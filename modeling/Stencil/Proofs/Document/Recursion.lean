/-
  Stencil/Proofs/Document/Recursion.lean
  ======================================
  **What a walk over a document finds, by recursion over the subtree.**

  In a forest exactly one plant stands at a node (`IsForest.existsUnique_stands`), and
  recursion over it says what there is to find below the node: its written form, its
  texts, and its first element of a name.  Texts and comments can have children, too.  They
  are not written, but their texts count and their elements can be found.

  The walks with a stack come to the same.  All of them visit the numbers of the plant
  in document order (`IsForest.walks`), so the texts that one collects are those of the
  plant (`AllStand.filterMap_text?`), and a search ends at the first element of the plant
  (`AllStand.find?_name`).
-/
import Stencil.Proofs.Document.Course
import Stencil.Proofs.Walk.Loop

namespace Stencil.Document

open Plant Walk

variable {π η : Type} {d : Document π η}

/-! ### Recursion over a plant -/

namespace Plant

/-- What stands directly below the topmost node. -/
def branches : Plant π η → List (Plant π η)
  | node _ _ cs => cs

mutual

/-- The texts of a plant in document order. -/
def texts : Plant π η → List String
  | node _ (.text value) cs => value :: textsAll cs
  | node _ _ cs => textsAll cs

/-- The texts of several plants. -/
def textsAll : List (Plant π η) → List String
  | [] => []
  | t :: ts => t.texts ++ textsAll ts

end

mutual

/-- The first element of a name: the topmost node, or the first one in what stands below. -/
def first? (name : String) : Plant π η → Option NodeId
  | node id (.element e) cs => if e.name = name then some id else firstAll? name cs
  | node _ _ cs => firstAll? name cs

/-- The first element of a name in several plants. -/
def firstAll? (name : String) : List (Plant π η) → Option NodeId
  | [] => none
  | t :: ts => (t.first? name).or (firstAll? name ts)

end

end Plant

/-! ### One plant at a node -/

theorem AllStand.unique {parent : Option NodeId} {ts us : List (Plant π η)}
    (h : d.AllStand parent ts) (h' : d.AllStand parent us) (hroots : roots us = roots ts) :
    us = ts := by
  induction ts using Plant.induct generalizing parent us with
  | nil => exact List.map_eq_nil_iff.mp hroots
  | cons id c cs ts ihc iht =>
    obtain ⟨⟨hnode, hcs⟩, hts⟩ := h
    obtain ⟨⟨id', c', cs'⟩, us, rfl, hid, hrest⟩ := List.map_eq_cons_iff.mp hroots
    obtain ⟨⟨hnode', hcs'⟩, hus⟩ := h'
    obtain rfl : id' = id := hid
    rw [hnode] at hnode'
    simp only [Option.some.injEq, NodeData.mk.injEq, true_and] at hnode'
    obtain ⟨rfl, hbelow⟩ := hnode'
    rw [ihc hcs hcs' hbelow.symm, iht hts hus hrest]

theorem Stands.unique {parent : Option NodeId} {t u : Plant π η} (h : d.Stands parent t)
    (h' : d.Stands parent u) (hroot : u.root = t.root) : u = t := by
  have heq := h.alone.unique h'.alone (by simp only [roots, List.map_cons, hroot])
  exact (List.cons.inj heq).1

theorem IsForest.existsUnique_stands (h : d.IsForest) {x : Nat} (hx : x < d.size) :
    ∃! t : Plant π η, t.root = x ∧ d.Stands (d.parent? x) t := by
  obtain ⟨t, rfl, ht⟩ := h.exists_stands hx
  exact ⟨t, ⟨rfl, ht⟩, fun u hu => ht.unique hu.2 hu.1⟩

/-! ### Texts, and the search for an element -/

theorem text?_of_node? {x : NodeId} {n : NodeData π η} (h : d.node? x = some n) :
    d.text? x = match n.content with | .text value => some value | _ => none := by
  obtain ⟨c, p, cs⟩ := n
  cases c <;> simp [text?, h]

/-- The texts of a plant are those of its nodes, in document order. -/
theorem AllStand.filterMap_text? {parent : Option NodeId} {ts : List (Plant π η)}
    (h : d.AllStand parent ts) : (idsAll ts).filterMap d.text? = textsAll ts := by
  induction ts using Plant.induct generalizing parent with
  | nil => rfl
  | cons id c cs ts ihc iht =>
    obtain ⟨⟨hnode, hcs⟩, hts⟩ := h
    have htext := text?_of_node? hnode
    rw [idsAll, ids, List.filterMap_append, List.filterMap_cons, htext, ihc hcs, iht hts, textsAll]
    cases c <;> rfl

/-- The first element of a plant is the first one among its nodes, in document order. -/
theorem AllStand.find?_name {parent : Option NodeId} {ts : List (Plant π η)}
    (h : d.AllStand parent ts) (name : String) :
    (idsAll ts).find? (fun x => d.name? x == some name) = firstAll? name ts := by
  induction ts using Plant.induct generalizing parent with
  | nil => rfl
  | cons id c cs ts ihc iht =>
    obtain ⟨⟨hnode, hcs⟩, hts⟩ := h
    have hname := name?_of_node? hnode
    rw [idsAll, ids, List.cons_append, List.find?_cons, List.find?_append, ihc hcs, iht hts,
      firstAll?, hname]
    cases c with
    | element e =>
      by_cases heq : e.name = name
      · simp [first?, heq]
      · have hne : (e.name == name) = false := by simpa using heq
        simp [first?, heq, hne]
    | _ => rfl

section Stands

variable {parent : Option NodeId} {t : Plant π η}

theorem Stands.filterMap_text? (h : d.Stands parent t) : t.ids.filterMap d.text? = t.texts := by
  simpa [textsAll] using h.alone.filterMap_text?

theorem Stands.find?_name (h : d.Stands parent t) (name : String) :
    t.ids.find? (fun x => d.name? x == some name) = t.first? name := by
  simpa [firstAll?] using h.alone.find?_name name

theorem Stands.textContent_eq (h : d.Stands parent t) (hforest : d.IsForest) :
    d.textContent t.root = String.join t.texts := by
  rw [textContent, h.subtree_eq hforest, h.filterMap_text?]

theorem Stands.findElement?_eq (h : d.Stands parent t) (hforest : d.IsForest) (name : String) :
    d.findElement? t.root name = t.first? name := by
  rw [findElement?, h.subtree_eq hforest, h.find?_name]

/-- What is in a node is written tree by tree. -/
theorem Stands.innerHtml_eq (h : d.Stands parent t) (hforest : d.IsForest) :
    d.innerHtml t.root = Tree.html.htmlAll (d.name? t.root) (trees t.branches) := by
  obtain ⟨id, c, cs⟩ := t
  obtain ⟨hnode, hcs⟩ := h
  have hchildren : d.children id = roots cs := children_of_node? hnode
  rw [hforest.innerHtml_childTrees, childTrees, Plant.root, hchildren, hcs.map_tree hforest,
    branches]

end Stands

/-! ### The walks -/

theorem Walks.visits {stack l : List NodeId} (h : d.Walks stack l) : Visits d.children stack l := by
  induction h with
  | nil => exact .done
  | node _ ih => exact .step ih

theorem Writes.unique {stack : List Pending} {s s' : String} (h : d.Writes stack s)
    (h' : d.Writes stack s') : s' = s := by
  induction h generalizing s' with
  | nil =>
    cases h'
    rfl
  | close _ ih =>
    cases h' with
    | close hrest => rw [ih hrest]
  | node _ ih =>
    cases h' with
    | node hrest => rw [ih hrest]

theorem Writes.iff {stack : List Pending} {s : String} (h : d.Writes stack s) (s' : String) :
    d.Writes stack s' ↔ s' = s :=
  ⟨h.unique, fun heq => heq ▸ h⟩

section Stands

variable {parent : Option NodeId} {t : Plant π η}

/-- The walk that collects texts. -/
theorem Stands.loop_texts (h : d.Stands parent t) :
    Loop d.children (fun x => (d.text? x).toList) [t.root] t.texts := by
  rw [← h.filterMap_text?, List.filterMap_eq_flatMap_toList]
  exact h.walks.visits.loop _

/-- The walk that ends at an element of a name. -/
theorem Stands.search_name (h : d.Stands parent t) (name : String) :
    Search d.children (fun x => d.name? x == some name) [t.root] (t.first? name) := by
  rw [← h.find?_name]
  exact h.walks.visits.search _

end Stands

end Stencil.Document
