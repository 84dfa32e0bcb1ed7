/-
  Stencil/Proofs/Render/Replace.lean
  ==================================
  **Content that is replaced.**

  A binding of content takes out the nodes that it remembers, wherever they stand, and puts
  new ones before its marker.  Taking nodes out touches their parents and themselves and
  nothing else (`node?_detachAll`), and nodes that are no fragments are put in as they are
  (`replaceContent_nodes`).
-/
import Stencil.Proofs.Document.Reachable
import Stencil.Proofs.Render.Rerun
import Stencil.Render.Session

namespace Stencil.Render

open Document

/-! ### Taking nodes out -/

section

variable {d d' : Page}

/-- What taking nodes out of their parents makes of every node. -/
theorem node?_detachAll (h : d.IsForest) (ns : List NodeId) :
    (ns.foldl (fun d n => d.detach n) d).IsForest ∧
      ∀ x, (ns.foldl (fun d n => d.detach n) d).node? x = (d.node? x).map fun n =>
        ⟨n.content, if x ∈ ns then none else n.parent,
          n.children.filter fun c => !ns.contains c⟩ := by
  induction ns generalizing d with
  | nil =>
    refine ⟨h, fun x => ?_⟩
    rcases hx : d.node? x with _ | ⟨c, q, cs⟩ <;> simp [hx]
  | cons n ns ih =>
    obtain ⟨hforest, hnode⟩ := ih (h.detach n)
    refine ⟨hforest, fun x => ?_⟩
    rw [List.foldl_cons, hnode, node?_detach h]
    rcases d.node? x with _ | ⟨c, q, cs⟩
    · rfl
    · have hup : (if x ∈ ns then none else if x = n then none else q) =
          if x ∈ n :: ns then none else q := by
        by_cases hxn : x = n <;> simp [hxn]
      have hdown (y : NodeId) : (!ns.contains y && y != n) = !(n :: ns).contains y := by
        by_cases hyn : y = n <;> simp [hyn]
      simp only [Option.map_some, hup, List.filter_filter, hdown]

theorem parent?_detachAll (h : d.IsForest) (ns : List NodeId) (x : NodeId) :
    (ns.foldl (fun d n => d.detach n) d).parent? x = if x ∈ ns then none else d.parent? x := by
  rw [parent?, (node?_detachAll h ns).2, parent?]
  cases d.node? x <;> simp

theorem children_detachAll (h : d.IsForest) (ns : List NodeId) (x : NodeId) :
    (ns.foldl (fun d n => d.detach n) d).children x =
      (d.children x).filter fun c => !ns.contains c := by
  rw [children, (node?_detachAll h ns).2, children]
  cases d.node? x <;> simp

theorem size_detachAll (d : Page) (ns : List NodeId) :
    (ns.foldl (fun d n => d.detach n) d).size = d.size := by
  induction ns generalizing d with
  | nil => rfl
  | cons n ns ih => rw [List.foldl_cons, ih, size_detach]

theorem kind_detachAll (h : d.IsForest) (ns : List NodeId) (x : NodeId) :
    (ns.foldl (fun d n => d.detach n) d).kind x = d.kind x := by
  rw [kind, (node?_detachAll h ns).2, kind]
  cases d.node? x <;> rfl

/-- The same nodes taken out of a document and of one that has grown out of it. -/
theorem extends_detachAll (h : d.IsForest) (hext : d.Extends d') (ns : List NodeId) :
    (ns.foldl (fun d n => d.detach n) d).Extends (ns.foldl (fun d n => d.detach n) d') where
  forest := (node?_detachAll hext.forest ns).1
  size_le := by
    rw [size_detachAll, size_detachAll]
    exact hext.size_le
  same x hx := by
    rw [size_detachAll] at hx
    rw [(node?_detachAll hext.forest ns).2, (node?_detachAll h ns).2, hext.same x hx]

/-- A node that is not taken out and none of whose children are is as it was. -/
theorem node?_detachAll_of_not_mem (h : d.IsForest) {ns : List NodeId} {x : NodeId} (hx : x ∉ ns)
    (hchildren : ∀ c ∈ d.children x, c ∉ ns) :
    (ns.foldl (fun d n => d.detach n) d).node? x = d.node? x := by
  rw [(node?_detachAll h ns).2]
  rcases hnode : d.node? x with _ | ⟨c, q, cs⟩
  · rfl
  · rw [children_of_node? hnode] at hchildren
    have hfilter : cs.filter (fun c => !ns.contains c) = cs :=
      List.filter_eq_self.mpr fun y hy => by simpa using hchildren y hy
    simp only [Option.map_some, hx, if_false, hfilter]

end

/-! ### New nodes -/

/-- The nodes of a list of nodes are the nodes. -/
theorem nodesOfAll_nodes (c : Calls) {w : World} {ns : List NodeId}
    (h : ∀ n ∈ ns, w.page.isFragment n = false) :
    nodesOfAll c (ns.map .node) w = some (ns, w) := by
  induction ns with
  | nil => rfl
  | cons n ns ih =>
    obtain ⟨hn, hns⟩ := List.forall_mem_cons.mp h
    have hone : nodesOf c (.node n) w = some ([n], w) := by
      rw [nodesOf, run_bind (run_page w), hn]
      rfl
    rw [List.map_cons, nodesOfAll, run_bind hone, run_bind (ih hns)]
    rfl

theorem nodesOf_nodes (c : Calls) {w : World} {ns : List NodeId}
    (h : ∀ n ∈ ns, w.page.isFragment n = false) :
    nodesOf c (Value.ofList (ns.map .node)) w = some (ns, w) := by
  match ns with
  | [] => rfl
  | [n] =>
    rw [List.map_singleton, Value.ofList, nodesOf, run_bind (run_page w), h n List.mem_cons_self]
    rfl
  | n :: n' :: ns =>
    have hlist : Value.ofList ((n :: n' :: ns).map .node) = .list ((n :: n' :: ns).map .node) := rfl
    rw [hlist, nodesOf]
    exact nodesOfAll_nodes c h

/-! ### The run of a binding -/

theorem plainText?_nodes (ns : List NodeId) : plainText? (Value.ofList (ns.map .node)) = none := by
  match ns with
  | [] => rfl
  | [_] => rfl
  | _ :: _ :: _ => rfl

/-- Nodes never go into a text node that is there. -/
theorem updateContent_nodes (c : Calls) (m : NodeId) (cur ns : List NodeId) (w : World) :
    updateContent c m cur (Value.ofList (ns.map .node)) w =
      replaceContent c m cur (Value.ofList (ns.map .node)) w := by
  rw [updateContent, run_bind (run_page w), plainText?_nodes]
  cases onlyText? w.page cur <;> rfl

/-- A binding of content whose reader yields nodes. -/
theorem runBinding_nodes {f : Factory} {c : Calls} {w w₁ w₂ : World} {m : NodeId} {r : Reader}
    {cur ns : List NodeId} (hlive : w.live = true)
    (hread : c.resolve (.reactive r) w = some (Value.ofList (ns.map .node), w₁))
    (hreplace : replaceContent c m cur (Value.ofList (ns.map .node)) w₁ = some (ns, w₂)) :
    runBinding f c (.content m r cur) w = some (.content m r ns, w₂) := by
  have hget : (getThe World : Run World) w = some (w, w) := rfl
  rw [runBinding, run_bind hget, if_neg (by simp [hlive])]
  rw [run_bind hread, run_bind ((updateContent_nodes c m cur ns w₁).trans hreplace)]
  rfl

/-- What is remembered goes, and then the nodes come. -/
theorem replaceContent_nodes {c : Calls} {w : World} {m p : NodeId} {cur ns : List NodeId}
    {d : Page} (hd : d = cur.foldl (fun d n => d.detach n) w.page)
    (hparent : d.parent? m = some p) (hkind : ∀ n ∈ ns, d.isFragment n = false) :
    replaceContent c m cur (Value.ofList (ns.map .node)) w =
      some (ns, { w with page := insertAll d p (some m) ns }) := by
  have hnodes : nodesOf c (Value.ofList (ns.map .node)) { w with page := d } =
      some (ns, { w with page := d }) := nodesOf_nodes c hkind
  rw [replaceContent, run_bind (run_changePage _ w), ← hd, run_bind hnodes, run_bind (run_page _)]
  simp only [hparent]
  rfl

/-! ### Sessions -/

/-- An application without literals and components. -/
def plainFactory : Factory where
  config := .usual
  policy := .usual
  registry := ⟨[]⟩
  literals := []
  tracking := true

/-- The steps of a session taken one after the other, and what its containers hold then. -/
def showAfter (f : Factory) (depth : Nat) : List Step → Run (List (String × String))
  | [] => do
    let w ← getThe World
    return w.containers.map fun (name, id) => (name, w.page.innerHtml id)
  | s :: rest => do
    let _ ← step f depth s
    showAfter f depth rest

end Stencil.Render
