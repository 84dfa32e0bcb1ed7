/-
  Stencil/Proofs/Walk/Recursion.lean
  ==================================
  **Walks with a stack come to what recursion comes to.**

  Documents and literals are gone over with a stack, since they can be deeper than a
  recursion may go.  Here each walk stands beside the recursion that it saves: the
  three walks over a subtree of a document beside recursion over its plant, and the three
  walks over a literal beside the list of its nodes by address.
-/
import Stencil.Proofs.Document.Reachable
import Stencil.Proofs.Document.Recursion
import Stencil.Proofs.Markup.Position

namespace Stencil.Walk

open Document Markup Template

/-- **Walks with a stack are recursion.**  In a document that operations can make, exactly one
    plant stands at a node.  The written form is that of its tree: a start tag, the children
    in order and a close tag, but for a void name the start tag alone.  What is in a node is
    written child by child.  The text is all texts of the plant in document order, and the
    search finds its first element of the name.

    A literal has a list of its nodes with their addresses, all of them and each once, in
    document order.  The walks over elements and holes and the outline go through this list,
    and a line of the outline is indented by the length of the address.

    Each loop, left to itself, ends with exactly that. -/
theorem walks_recursive :
    (∀ (π η : Type) (d : Document π η), Reachable d → ∀ x < d.size,
      ∃ t : Plant π η, (∀ u : Plant π η, u.root = x ∧ d.Stands (d.parent? x) u ↔ u = t) ∧
        (d.toHtml x = t.tree.html ((d.parent? x).bind d.name?) ∧
          ∀ s, d.Writes [.node x] s ↔ s = d.toHtml x) ∧
        (d.innerHtml x = Tree.html.htmlAll (d.name? x) (t.branches.map Plant.tree) ∧
          d.innerHtml x = String.join ((d.children x).map d.toHtml)) ∧
        (d.textContent x = String.join t.texts ∧
          ∀ out, Loop d.children (fun y => (d.text? y).toList) [x] out ↔ out = t.texts) ∧
        ∀ name, d.findElement? x name = t.first? name ∧
          ∀ r, Search d.children (fun y => d.name? y == some name) [x] r ↔ r = t.first? name) ∧
    ∀ t : Template, ∃ l : List (List Nat × Node), t.Lists l ∧
      Node.preorder.preorderAll 1 t.children = l.map (fun e => (e.1.length, e.2)) ∧
      Visits Node.children t.children (l.map (·.2)) ∧
      Visits deeper (t.children.map (1, ·)) (l.map fun e => (e.1.length, e.2)) ∧
      (t.tags = (l.filterMap fun e => e.2.element?).map (·.1) ∧
        ∀ out, Loop Node.children (fun n => n.element?.toList) t.children out ↔
          out = l.filterMap fun e => e.2.element?) ∧
      (t.holes = l.flatMap (fun e => e.2.ownHoles) ∧
        ∀ out, Loop Node.children Node.ownHoles t.children out ↔ out = t.holes) ∧
      (t.outline = ("#root slots=" ++ toString t.slotCount) ::
          l.map (fun e => outlineLine (e.1.length, e.2)) ∧
        ∀ out, Loop deeper (fun e => [outlineLine e]) (t.children.map (1, ·)) out ↔
          out = l.map fun e => outlineLine (e.1.length, e.2)) := by
  constructor
  · intro π η d hd x hx
    have hforest := hd.isForest
    obtain ⟨t, ⟨rfl, ht⟩, honly⟩ := hforest.existsUnique_stands hx
    refine ⟨t, fun u => ⟨honly u, ?_⟩, ⟨ht.toHtml_eq hforest, fun s => (hforest.writes hx).iff s⟩,
      ⟨?_, rfl⟩, ⟨ht.textContent_eq hforest, fun out => ht.loop_texts.iff out⟩,
      fun name => ⟨ht.findElement?_eq hforest name, fun r => (ht.search_name name).iff r⟩⟩
    · rintro rfl
      exact ⟨rfl, ht⟩
    · rw [ht.innerHtml_eq hforest, Plant.trees_eq_map]
  · intro t
    refine ⟨t.places, t.lists_places, t.preorderAll_places, t.visits_children, t.visits_deeper,
      ⟨t.tags_places, fun out => t.loop_elements.iff out⟩, ⟨t.holes_places, fun out => ?_⟩,
      ⟨t.outline_places, fun out => t.loop_outline.iff out⟩⟩
    rw [t.holes_places]
    exact t.loop_holes.iff out

/-- In the element `0` stand a script, a void element with a text in it, and a text with an
    element in it, which is not written and yet found. -/
theorem walks_recursive_unwritten :
    ∃ d : Document Unit Unit, Reachable d ∧
      d.Writes [.node 0] "<div><script>a<b</script><br>t&amp;</div>" ∧
      (∃ out, Loop d.children (fun y => (d.text? y).toList) [0] out ∧ String.join out = "a<bxt&") ∧
      Search d.children (fun y => d.name? y == some "p") [0] (some 6) := by
  have h₀ : Reachable (Document.empty : Document Unit Unit) := .empty
  have h₁ := h₀.step (.make (.element "div" .html)) (by decide)
  have h₂ := h₁.step (.make (.element "script" .html)) (by decide)
  have h₃ := h₂.step (.make (.text "a<b")) (by decide)
  have h₄ := h₃.step (.make (.element "br" .html)) (by decide)
  have h₅ := h₄.step (.make (.text "x")) (by decide)
  have h₆ := h₅.step (.make (.text "t&")) (by decide)
  have h₇ := h₆.step (.make (.element "p" .html)) (by decide)
  have h₈ := h₇.step (.change 1 (.append 2)) (by decide)
  have h₉ := h₈.step (.change 3 (.append 4)) (by decide)
  have h₁₀ := h₉.step (.change 5 (.append 6)) (by decide)
  have h₁₁ := h₁₀.step (.change 0 (.append 1)) (by decide)
  have h₁₂ := h₁₁.step (.change 0 (.append 3)) (by decide)
  have h := h₁₂.step (.change 0 (.append 5)) (by decide)
  obtain ⟨t, -, ⟨-, hwrites⟩, -, ⟨htext, hloop⟩, hfind⟩ :=
    walks_recursive.1 _ _ _ h 0 (by decide)
  obtain ⟨hfirst, hsearch⟩ := hfind "p"
  refine ⟨_, h, (hwrites _).mpr (by decide), ⟨t.texts, (hloop _).mpr rfl, ?_⟩,
    (hsearch _).mpr ?_⟩
  · rw [← htext]
    decide
  · rw [← hfirst]
    decide

end Stencil.Walk
