/-
  Stencil/Proofs/Markup/Written.lean
  ==================================
  **Parsing a written page gives the page.**

  Not every page can be read off its written form: blank texts go, texts that meet
  become one, and a comment leaves nothing.  `Tree.Canonical` says which pages with names in
  lower case can.  For these, `Tree.source` is the tree that parsing comes to, and
  `parse_htmlAll` that it does: a canonical page is legible, it has no slots, and it is read
  as its source.
-/
import Stencil.Proofs.Markup.Legible

namespace Stencil

namespace Document

open Markup

/-! ### Canonical pages -/

/-- What an element whose body is raw may hold: nothing, or one text, and if that is written to
    the letter, no close tag begins in it. -/
def IsRawContent (name : String) (children : List Tree) : Prop :=
  children = [] ∨ ∃ value, children = [.text value] ∧
    (verbatimElements.contains name = true → ¬ ('<' :: '/' :: name.toList) <:+: value.toList)

mutual

/-- A tree that can be read off its written form. -/
def Tree.Canonical : Tree → Prop
  | .element name _ as children =>
    IsElementName name ∧ (∀ a ∈ as, IsAttributeName a.name) ∧ (as.map (·.name)).Nodup ∧
      (NameSet.voidElements.contains name = true → children = []) ∧
      (NameSet.rawTextElements.contains name = true → IsRawContent name children) ∧
      CanonicalAll children
  | .text value => Text.allBlank value = false
  | _ => False

/-- Trees that can be read off their written form, of which no two texts are neighbours. -/
def CanonicalAll : List Tree → Prop
  | [] => True
  | t :: ts => t.Canonical ∧ (t.isText = true → ∀ u ∈ ts.head?, u.isText = false) ∧ CanonicalAll ts

end

mutual

/-- The nodes that a tree is parsed to, inside SVG or not. -/
def Tree.source (svg : Bool) : Tree → List Node
  | .element name _ as children =>
    [.element ⟨name, as.map readAs, name == "svg" || svg, none⟩
      (sourceAll (name == "svg" || svg) children)]
  | .text value => [.text value]
  | _ => []

/-- The nodes that several trees are parsed to. -/
def sourceAll (svg : Bool) : List Tree → List Node
  | [] => []
  | t :: ts => t.source svg ++ sourceAll svg ts

end

end Document

namespace Markup

open Document
open Document.Tree.html (htmlAll)
open Phrase (tagIn textIn slotAfter)

/-! ### Canonical pages are legible -/

/-- The elements whose texts are read to the letter are those whose texts are written so. -/
theorem sameName_verbatim {name : String} (h : IsElementName name) :
    (Text.sameName name "script" || Text.sameName name "style") =
      verbatimElements.contains name := by
  have hscript : Text.lower "script" = "script" := by decide +kernel
  have hstyle : Text.lower "style" = "style" := by decide +kernel
  rw [Text.sameName, Text.sameName, h.lower, hscript, hstyle]
  rw [verbatimElements, List.contains_cons, List.contains_cons, List.contains_nil, Bool.or_false]

/-- The texts of an element of a page survive in it. -/
theorem IsElementName.survives {name : String} (h : IsElementName name) (value : String) :
    Survives (some name) value := by
  intro around haround
  obtain ⟨tag, rfl, rfl⟩ := Option.map_eq_some_iff.mp haround
  rw [textIn, textHtml, Option.any_some, Option.any_some, sameName_verbatim h]
  split
  · rfl
  · exact decodeReferences_escapeContent value

theorem isRawBody_of_isRawContent {name : String} (h : IsElementName name) {children : List Tree}
    (hchildren : IsRawContent name children) : IsRawBody name children := by
  rcases hchildren with rfl | ⟨value, rfl, hvalue⟩
  · exact Or.inl rfl
  · refine Or.inr ⟨value, rfl, h.survives value, ?_⟩
    rw [textHtml, Option.any_some]
    split
    · exact staysIn_of_not_infix h.isWord (hvalue (by assumption))
    · exact staysIn_of_not_mem h.isWord (not_mem_escapeContent value)

mutual

theorem legible_of_canonical : ∀ {t : Tree}, t.Canonical → t.Legible
  | .element _ _ _ _, h => by
    obtain ⟨hname, has, hnodup, hvoid, hraw, hchildren⟩ := h
    exact ⟨hname.isTagName, has, hnodup, fun h => hvoid (contains_of_isVoid h),
      fun h => isRawBody_of_isRawContent hname (hraw h), legibleAll_of_canonicalAll hchildren⟩
  | .text _, h => h
  | .comment _, h => h
  | .fragment _, h => h

theorem legibleAll_of_canonicalAll : ∀ {ts : List Tree}, CanonicalAll ts → LegibleAll ts
  | [], _ => trivial
  | _ :: _, h => ⟨legible_of_canonical h.1, h.2.1, legibleAll_of_canonicalAll h.2.2⟩

end

/-! ### What they are read as -/

/-- Whether what stands in an element is part of SVG. -/
def isSvgIn (around : Option Tag) : Bool := around.any fun t => t.svg && t.name != "foreignObject"

/-- The tag of an element, as parsing makes it. -/
theorem tagIn_eq {name : String} (h : IsElementName name) (around : Option Tag) (slot : Nat)
    (attrs : List Attr) :
    tagIn around slot name attrs = ⟨name, attrs, name == "svg" || isSvgIn around, none⟩ := by
  rw [tagIn, h.startsCapital]
  rfl

theorem slotAfter_eq {name : String} (h : IsElementName name) (slot : Nat) :
    slotAfter name slot = slot := by
  rw [slotAfter, h.startsCapital]
  rfl

/-- What stands in an element of a page is part of SVG if the element is. -/
theorem isSvgIn_some {name : String} (h : IsElementName name) (attrs : List Attr) (svg : Bool) :
    isSvgIn (some ⟨name, attrs, svg, none⟩) = svg := by
  have hforeign : (name != "foreignObject") = true := by
    rw [bne_iff_ne]
    rintro rfl
    have hupper := h.isUpper 'O' (by decide)
    cases hupper
  rw [isSvgIn, Option.any_some, hforeign, Bool.and_true]

mutual

theorem reading_canonical (around : Option Tag) (slot : Nat) : ∀ {t : Tree}, t.Canonical →
    t.reading around slot = (t.source (isSvgIn around), slot)
  | .element name _ as children, h => by
    obtain ⟨hname, -, -, -, -, hchildren⟩ := h
    simp only [Tree.reading, tagIn_eq hname, slotAfter_eq hname, readingAll_canonical _ _ hchildren,
      isSvgIn_some hname, Tree.source]
  | .text value, _ => by rw [Tree.reading, Tree.source]
  | .comment _, h => h.elim
  | .fragment _, h => h.elim

/-- Canonical trees are read as their source, and own no slots. -/
theorem readingAll_canonical (around : Option Tag) (slot : Nat) : ∀ {ts : List Tree},
    CanonicalAll ts → readingAll around slot ts = (sourceAll (isSvgIn around) ts, slot)
  | [], _ => by rw [readingAll, sourceAll]
  | t :: ts, h => by
    rw [readingAll, reading_canonical around slot h.1, readingAll_canonical around slot h.2.2,
      sourceAll]

end

/-- The written form of a canonical page is parsed to its source. -/
theorem parse_htmlAll {ts : List Tree} (hts : CanonicalAll ts) :
    parse NameSet.voidElements NameSet.rawTextElements [htmlAll none ts] =
      .ok ⟨sourceAll false ts, rootSlot + 1⟩ := by
  rw [parse_legible (legibleAll_of_canonicalAll hts), readingAll_canonical none _ hts]
  rfl

end Markup
end Stencil
