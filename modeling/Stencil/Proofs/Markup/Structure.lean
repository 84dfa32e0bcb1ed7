/-
  Stencil/Proofs/Markup/Structure.lean
  ====================================
  **What holds of every parsed tree.**

  Three things about an element are decided when its start tag is read, from the elements
  that are open at that moment: whether it may have content, whether it belongs to SVG,
  and its slot.  The tree is put together later, as the elements are closed.
  `WellMade` says the three things of a finished tree, without a stack, and
  `parseTokens_wellMade` says them of every tree that parsing makes.

  The proof goes through the derivation: each phrase adds well-made nodes to the element
  that it stands in (`Phrase.wellMade_nodes`).
-/
import Stencil.Proofs.Markup.Elements
import Stencil.Proofs.Markup.Leaves

namespace Stencil.Markup

/-- The flag of an element that stands in the element `around` says whether it belongs to SVG:
    it begins an SVG image, or its parent belongs to one and does not end it. -/
def FlaggedIn (around : Option Tag) (tag : Tag) : Prop :=
  tag.svg = true ↔ tag.name = "svg" ∨
    ∃ parent, around = some parent ∧ parent.svg = true ∧ parent.name ≠ "foreignObject"

/-- Nodes that stand in the element `around` as a parser makes them. -/
structure WellMade (void : NameSet) (around : Option Tag) (ns : List Node) : Prop where
  /-- A void element has no content; a capital makes a name that of a component. -/
  childless : ∀ e ∈ elementsOfAll ns, void.contains e.1.name = true → e.1.isCapitalized = false →
    e.2 = []
  flagged : ∀ tag children, .element tag children ∈ ns → FlaggedIn around tag
  flagged_below : ∀ e ∈ elementsOfAll ns, ∀ tag children, .element tag children ∈ e.2 →
    FlaggedIn (some e.1) tag
  slotted : ∀ e ∈ elementsOfAll ns, e.1.slot.isSome = true ↔ e.1.isCapitalized = true

namespace WellMade

variable {void : NameSet} {around : Option Tag} {ns ms : List Node}

/-- Nodes of which none is an element. -/
theorem of_elementsOfAll_eq_nil (h : elementsOfAll ns = [])
    (hns : ∀ tag children, .element tag children ∉ ns) : WellMade void around ns :=
  ⟨by simp [h], fun tag children hmem => absurd hmem (hns tag children), by simp [h], by simp [h]⟩

theorem append (h : WellMade void around ns) (h' : WellMade void around ms) :
    WellMade void around (ns ++ ms) := by
  constructor
  · intro e he
    rw [elementsOfAll_append] at he
    exact (List.mem_append.mp he).elim (h.childless e) (h'.childless e)
  · intro tag children hmem
    exact (List.mem_append.mp hmem).elim (h.flagged tag children) (h'.flagged tag children)
  · intro e he
    rw [elementsOfAll_append] at he
    exact (List.mem_append.mp he).elim (h.flagged_below e) (h'.flagged_below e)
  · intro e he
    rw [elementsOfAll_append] at he
    exact (List.mem_append.mp he).elim (h.slotted e) (h'.slotted e)

/-- An element around well-made nodes. -/
theorem element {tag : Tag} {children : List Node}
    (hvoid : isVoid void tag.name = true → children = []) (hflag : FlaggedIn around tag)
    (hslot : tag.slot.isSome = true ↔ tag.isCapitalized = true)
    (h : WellMade void (some tag) children) : WellMade void around [.element tag children] := by
  have hmem {e : Tag × List Node} (he : e ∈ elementsOfAll [.element tag children]) :
      e = (tag, children) ∨ e ∈ elementsOfAll children := by
    simpa [elementsOfAll, elementsOf] using he
  constructor
  · intro e he hcontains hlower
    rcases hmem he with rfl | he
    · exact hvoid (by simpa [isVoid, Tag.isCapitalized] using ⟨hlower, hcontains⟩)
    · exact h.childless e he hcontains hlower
  · intro tag' children' heq
    obtain ⟨rfl, rfl⟩ := by simpa using heq
    exact hflag
  · intro e he
    rcases hmem he with rfl | he
    · exact h.flagged
    · exact h.flagged_below e he
  · intro e he
    rcases hmem he with rfl | he
    · exact hslot
    · exact h.slotted e he

end WellMade

namespace Phrase

theorem flaggedIn_tagIn (around : Option Tag) (slot : Nat) (name : String) (attrs : List Attr) :
    FlaggedIn around (tagIn around slot name attrs) := by
  cases around <;> simp [FlaggedIn, tagIn]

theorem isSome_slot_tagIn (around : Option Tag) (slot : Nat) (name : String) (attrs : List Attr) :
    (tagIn around slot name attrs).slot.isSome = true ↔
      (tagIn around slot name attrs).isCapitalized = true := by
  by_cases h : Text.startsCapital name <;> simp [tagIn, Tag.isCapitalized, h]

mutual

/-- The nodes of a phrase that stands in the element `around`. -/
theorem wellMade_nodes {void : NameSet} (around : Option Tag) : ∀ (p : Phrase) (slot : Nat),
    p.WellFormed void → WellMade void around (p.nodes around slot).1
  | .text value true, _, _ => .of_elementsOfAll_eq_nil rfl (by simp [nodes])
  | .text value false, _, _ => .of_elementsOfAll_eq_nil rfl (by simp [nodes])
  | .hole i, _, _ => .of_elementsOfAll_eq_nil rfl (by simp [nodes])
  | .commentHole _, _, _ => .of_elementsOfAll_eq_nil rfl (by simp [nodes])
  | .idle _ _, _, _ => .of_elementsOfAll_eq_nil rfl (by simp [nodes])
  | .leaf name attrs _ _, slot, _ => by
    rw [nodes]
    exact .element (fun _ => rfl) (flaggedIn_tagIn around slot name attrs)
      (isSome_slot_tagIn around slot name attrs) (.of_elementsOfAll_eq_nil rfl (by simp))
  | .element name attrs _ content _ _, slot, ⟨hvoid, _, hcontent⟩ => by
    rw [nodes]
    refine .element (fun hvoid' => ?_) (flaggedIn_tagIn around slot name attrs)
      (isSome_slot_tagIn around slot name attrs) (wellMade_nodesAll _ content _ hcontent)
    have hname : (tagIn around slot name attrs).name = name := rfl
    rw [hname, hvoid] at hvoid'
    cases hvoid'

theorem wellMade_nodesAll {void : NameSet} (around : Option Tag) : ∀ (ps : List Phrase)
    (slot : Nat), WellFormedAll void ps → WellMade void around (nodesAll around slot ps).1
  | [], _, _ => .of_elementsOfAll_eq_nil rfl (by simp [nodesAll])
  | p :: ps, slot, h => by
    rw [nodesAll]
    exact (wellMade_nodes around p slot h.1).append (wellMade_nodesAll around ps _ h.2)

end

end Phrase

/-! ### The walk over the elements -/

mutual

theorem tags_preorder (depth : Nat) : ∀ n : Node,
    (n.preorder depth).filterMap (fun
      | (_, .element tag _) => some tag
      | _ => none) = (elementsOf n).map (·.1)
  | .text _ => rfl
  | .hole _ => rfl
  | .element tag children => by
    rw [Node.preorder, List.filterMap_cons, elementsOf, List.map_cons,
      tags_preorderAll (depth + 1) children]

theorem tags_preorderAll (depth : Nat) : ∀ ns : List Node,
    (Node.preorder.preorderAll depth ns).filterMap (fun
      | (_, .element tag _) => some tag
      | _ => none) = (elementsOfAll ns).map (·.1)
  | [] => rfl
  | n :: ns => by
    rw [Node.preorder.preorderAll, List.filterMap_append, tags_preorder depth n,
      tags_preorderAll depth ns, elementsOfAll, List.map_append]

end

/-- The walk over a literal meets its elements in the order in which they are listed. -/
theorem Template.tags_eq (t : Template) : t.tags = (elementsOfAll t.children).map (·.1) := by
  rw [Template.tags, t.nodes_eq]
  exact tags_preorderAll 0 t.children

/-! ### Parsed trees -/

theorem wellMade_of_parseTokens {void : NameSet} {ts : List Token} {t : Template}
    (h : parseTokens void ts = .ok t) : WellMade void none t.children := by
  obtain ⟨ls, ps, -, hps, rfl⟩ := exists_derives_of_parseTokens h
  exact Phrase.wellMade_nodesAll none ps (rootSlot + 1) hps.wellFormed

/-- **The structure of a parsed tree.**  Whatever table of void elements is used, in the tree of a
    list of tokens an element of the table is empty unless it is capitalized, the flags of
    SVG are those that names and parents call for, and exactly the capitalized elements have
    a slot.  In document order the slots are `1`, `2`, and so on, up to the number of
    containers. -/
theorem parseTokens_wellMade {void : NameSet} {ts : List Token} {t : Template}
    (h : parseTokens void ts = .ok t) :
    WellMade void none t.children ∧ 0 < t.slotCount ∧
      t.tags.filterMap (·.slot) = List.range' 1 (t.slotCount - 1) := by
  have hnum := numbered_of_parseTokens h
  refine ⟨wellMade_of_parseTokens h, hnum.le, ?_⟩
  rw [t.tags_eq, List.filterMap_map]
  exact hnum.slots_eq

/-- An image with an icon and a paragraph in it, and a card with a void element. -/
def iconTokens : List Token :=
  tokenize .rawTextElements
    ["<svg><Icon><foreignObject><p></p></foreignObject></Icon></svg><Card><br></br></Card>"]

/-- The paragraph is not part of the image, and the void element ignores its close tag. -/
theorem parseTokens_wellMade_icon :
    ∃ t, parseTokens .voidElements iconTokens = .ok t ∧
      WellMade .voidElements none t.children ∧ t.slotCount = 3 ∧
      t.tags.filterMap (·.slot) = [1, 2] ∧
      t.tags.map (fun tag => (tag.name, tag.svg)) =
        [("svg", true), ("Icon", true), ("foreignObject", true), ("p", false), ("Card", false),
          ("br", false)] := by
  have hparse : (parseTokens .voidElements iconTokens).toOption.map
      (fun t => (t.slotCount, (elementsOfAll t.children).map fun e => (e.1.name, e.1.svg))) =
        some (3, [("svg", true), ("Icon", true), ("foreignObject", true), ("p", false),
          ("Card", false), ("br", false)]) := by
    decide +kernel
  cases h : parseTokens .voidElements iconTokens with
  | error e =>
    rw [h] at hparse
    cases hparse
  | ok t =>
    rw [h] at hparse
    obtain ⟨hcount, htags⟩ : t.slotCount = 3 ∧ _ = _ := by simpa [Except.toOption] using hparse
    obtain ⟨hmade, -, hslots⟩ := parseTokens_wellMade h
    rw [hcount] at hslots
    refine ⟨t, rfl, hmade, hcount, hslots, ?_⟩
    rw [t.tags_eq, List.map_map]
    exact htags

end Stencil.Markup
