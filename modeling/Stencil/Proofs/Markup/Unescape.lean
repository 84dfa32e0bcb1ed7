/-
  Stencil/Proofs/Markup/Unescape.lean
  ===================================
  **A written text read again.**

  In a page a text stands with some of its characters as references.  Both ways of
  writing, between tags and in an attribute value, are undone by replacing references
  once, because every `&` of the text has itself become one.
-/
import Stencil.Markup.Reference
import Stencil.Text.Blank
import Stencil.Text.Escape

namespace Stencil.Markup

open Text (attributeChar contentChar escapeAttribute escapeContent)

/-! ### Single characters -/

theorem decodeChars_cons {c : Char} (h : c ≠ '&') (cs : List Char) :
    decodeChars (c :: cs) = c :: decodeChars cs := by
  rw [decodeChars, if_neg h]

theorem decodeChars_reference (name : List Char) {cs : List Char} {c : Char}
    (h : reference? (name ++ cs) = some (c, name.length)) :
    decodeChars ('&' :: (name ++ cs)) = c :: decodeChars cs := by
  rw [decodeChars, if_pos rfl, h]
  simp

theorem decodeChars_contentChar (c : Char) (cs : List Char) :
    decodeChars (contentChar c ++ cs) = c :: decodeChars cs := by
  unfold contentChar
  split
  · exact decodeChars_reference ['a', 'm', 'p', ';'] rfl
  · exact decodeChars_reference ['l', 't', ';'] rfl
  · exact decodeChars_reference ['g', 't', ';'] rfl
  · rename_i hand _ _
    exact decodeChars_cons hand cs

theorem decodeChars_attributeChar (c : Char) (cs : List Char) :
    decodeChars (attributeChar c ++ cs) = c :: decodeChars cs := by
  unfold attributeChar
  split
  · exact decodeChars_reference ['a', 'm', 'p', ';'] rfl
  · exact decodeChars_reference ['q', 'u', 'o', 't', ';'] rfl
  · rename_i hand _
    exact decodeChars_cons hand cs

/-! ### Texts -/

/-- What is undone for each character is undone for a text. -/
theorem decodeChars_flatMap {write : Char → List Char}
    (h : ∀ c cs, decodeChars (write c ++ cs) = c :: decodeChars cs) (cs : List Char) :
    decodeChars (cs.flatMap write) = cs := by
  induction cs with
  | nil => rw [List.flatMap_nil, decodeChars]
  | cons c cs ih => rw [List.flatMap_cons, h, ih]

@[simp] theorem decodeReferences_escapeContent (s : String) :
    decodeReferences (escapeContent s) = s := by
  rw [decodeReferences, escapeContent, String.toList_ofList,
    decodeChars_flatMap decodeChars_contentChar, String.ofList_toList]

@[simp] theorem decodeReferences_escapeAttribute (s : String) :
    decodeReferences (escapeAttribute s) = s := by
  rw [decodeReferences, escapeAttribute, String.toList_ofList,
    decodeChars_flatMap decodeChars_attributeChar, String.ofList_toList]

/-! ### Texts that stand for themselves -/

/-- A text without `&` has no references. -/
theorem decodeReferences_of_not_mem {s : String} (h : '&' ∉ s.toList) : decodeReferences s = s := by
  have hchars : ∀ cs : List Char, '&' ∉ cs → decodeChars cs = cs := by
    intro cs hcs
    induction cs with
    | nil => rw [decodeChars]
    | cons c cs ih =>
      rw [List.mem_cons, not_or] at hcs
      rw [decodeChars_cons (Ne.symm hcs.1), ih hcs.2]
  rw [decodeReferences, hchars _ h, String.ofList_toList]

/-- A text without `&`, `<` and `>` is written as it is. -/
theorem escapeContent_of_not_mem {s : String} (hand : '&' ∉ s.toList) (hless : '<' ∉ s.toList)
    (hgreater : '>' ∉ s.toList) : escapeContent s = s := by
  have hchars : ∀ cs : List Char, '&' ∉ cs → '<' ∉ cs → '>' ∉ cs → cs.flatMap contentChar = cs := by
    intro cs hand hless hgreater
    induction cs with
    | nil => rfl
    | cons c cs ih =>
      rw [List.mem_cons, not_or] at hand hless hgreater
      have hc : contentChar c = [c] := by
        unfold contentChar
        split
        · exact absurd rfl hand.1
        · exact absurd rfl hless.1
        · exact absurd rfl hgreater.1
        · rfl
      rw [List.flatMap_cons, hc, ih hand.2 hless.2 hgreater.2, List.singleton_append]
  rw [escapeContent, hchars _ hand hless hgreater, String.ofList_toList]

/-! ### What is not in a written text -/

theorem not_mem_contentChar {c d : Char} (hd : d = '<' ∨ d = '>') : d ∉ contentChar c := by
  intro hmem
  unfold contentChar at hmem
  split at hmem
  · rcases hd with rfl | rfl <;> exact absurd hmem (by decide)
  · rcases hd with rfl | rfl <;> exact absurd hmem (by decide)
  · rcases hd with rfl | rfl <;> exact absurd hmem (by decide)
  · rename_i _ hless hgreater
    rcases hd with rfl | rfl
    · exact hless (List.mem_singleton.mp hmem).symm
    · exact hgreater (List.mem_singleton.mp hmem).symm

/-- No tag begins in a written text. -/
theorem not_mem_escapeContent (s : String) : '<' ∉ (escapeContent s).toList := by
  rw [escapeContent, String.toList_ofList, List.mem_flatMap]
  rintro ⟨c, -, hc⟩
  exact not_mem_contentChar (Or.inl rfl) hc

/-- No tag ends in a written text. -/
theorem greater_not_mem_escapeContent (s : String) : '>' ∉ (escapeContent s).toList := by
  rw [escapeContent, String.toList_ofList, List.mem_flatMap]
  rintro ⟨c, -, hc⟩
  exact not_mem_contentChar (Or.inr rfl) hc

/-- A written attribute value does not end in the midst of it. -/
theorem not_mem_escapeAttribute (s : String) : '"' ∉ (escapeAttribute s).toList := by
  rw [escapeAttribute, String.toList_ofList, List.mem_flatMap]
  rintro ⟨c, -, hc⟩
  unfold attributeChar at hc
  split at hc
  · revert hc
    decide
  · revert hc
    decide
  · rename_i _ hquote
    exact hquote (List.mem_singleton.mp hc).symm

/-- A written text is read again as it was, between tags and in an attribute value, and nothing in
    it begins or ends a tag or ends the value. -/
theorem written_legible (s : String) :
    decodeReferences (escapeContent s) = s ∧ decodeReferences (escapeAttribute s) = s ∧
    '<' ∉ (escapeContent s).toList ∧ '>' ∉ (escapeContent s).toList ∧
    '"' ∉ (escapeAttribute s).toList :=
  ⟨decodeReferences_escapeContent s, decodeReferences_escapeAttribute s, not_mem_escapeContent s,
    greater_not_mem_escapeContent s, not_mem_escapeAttribute s⟩

/-- A written text is blank only if the text is. -/
theorem allBlank_escapeContent {s : String} (h : Text.allBlank s = false) :
    Text.allBlank (escapeContent s) = false := by
  obtain ⟨c, hc, hblank⟩ : ∃ c ∈ s.toList, Text.isBlank c = false := by
    simpa [Text.allBlank] using h
  have hhead : ∃ d ∈ contentChar c, Text.isBlank d = false := by
    unfold contentChar
    split
    · exact ⟨'&', by decide, by decide⟩
    · exact ⟨'&', by decide, by decide⟩
    · exact ⟨'&', by decide, by decide⟩
    · exact ⟨c, List.mem_singleton_self c, hblank⟩
  obtain ⟨d, hd, hdblank⟩ := hhead
  rw [Text.allBlank, List.all_eq_false]
  refine ⟨d, ?_, by simp [hdblank]⟩
  rw [escapeContent, String.toList_ofList]
  exact List.mem_flatMap.mpr ⟨c, hc, hd⟩

end Stencil.Markup
