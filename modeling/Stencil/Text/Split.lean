/-
  Stencil/Text/Split.lean
  =======================
  **Splitting a text at every separator.**

  `splitAll` cuts at each character of a class; there is always one more part than
  there were separators, and parts may be empty.  `words` keeps the parts that are
  not empty, `splitFirst?` cuts once.
-/
import Stencil.Text.Blank

namespace Stencil.Text

/-- The parts between the separators, in order. -/
def splitAll (isSeparator : Char → Bool) : List Char → List (List Char)
  | [] => [[]]
  | c :: cs =>
    if isSeparator c then [] :: splitAll isSeparator cs
    else
      match splitAll isSeparator cs with
      | [] => [[c]]
      | part :: parts => (c :: part) :: parts

/-- The parts of a text between ASCII blanks, without the empty ones. -/
def words (s : String) : List String :=
  ((splitAll isTagBlank s.toList).filter (!·.isEmpty)).map String.ofList

/-- The text before the first occurrence of a character and the text behind it. -/
def splitFirst? (c : Char) (cs : List Char) : Option (List Char × List Char) :=
  match cs.dropWhile (· != c) with
  | [] => none
  | _ :: rest => some (cs.takeWhile (· != c), rest)

/-! ### What splitting gives -/

section
variable {isSeparator : Char → Bool} {c : Char} {cs : List Char}

theorem splitAll_ne_nil (isSeparator : Char → Bool) (cs : List Char) :
    splitAll isSeparator cs ≠ [] := by
  cases cs with
  | nil => exact List.cons_ne_nil _ _
  | cons c cs =>
    rw [splitAll]
    split
    · exact List.cons_ne_nil _ _
    · split <;> exact List.cons_ne_nil _ _

/-- A character that is no separator belongs to the first part. -/
theorem splitAll_cons (h : isSeparator c = false) (cs : List Char) :
    ∃ part parts, splitAll isSeparator cs = part :: parts ∧
      splitAll isSeparator (c :: cs) = (c :: part) :: parts := by
  obtain ⟨part, parts, hparts⟩ := List.exists_cons_of_ne_nil (splitAll_ne_nil isSeparator cs)
  refine ⟨part, parts, hparts, ?_⟩
  rw [splitAll, if_neg (by simp [h]), hparts]

/-- No part has a separator in it. -/
theorem isSeparator_of_mem_splitAll {part : List Char} (hpart : part ∈ splitAll isSeparator cs) :
    ∀ c ∈ part, isSeparator c = false := by
  induction cs generalizing part with
  | nil =>
    rw [List.mem_singleton.mp hpart]
    nofun
  | cons c cs ih =>
    by_cases hc : isSeparator c = true
    · rw [splitAll, if_pos hc] at hpart
      rcases List.mem_cons.mp hpart with rfl | hpart
      · nofun
      · exact ih hpart
    · obtain ⟨first, parts, hparts, hsplit⟩ := splitAll_cons (Bool.eq_false_iff.mpr hc) cs
      rw [hsplit] at hpart
      rcases List.mem_cons.mp hpart with rfl | hpart
      · intro d hd
        rcases List.mem_cons.mp hd with rfl | hd
        · exact Bool.eq_false_iff.mpr hc
        · exact ih (hparts ▸ List.mem_cons_self) d hd
      · exact ih (hparts ▸ List.mem_cons_of_mem _ hpart)

theorem splitAll_of_plain (h : ∀ c ∈ cs, isSeparator c = false) :
    splitAll isSeparator cs = [cs] := by
  induction cs with
  | nil => rfl
  | cons c cs ih =>
    obtain ⟨hc, hcs⟩ := List.forall_mem_cons.mp h
    obtain ⟨part, parts, hparts, hsplit⟩ := splitAll_cons hc cs
    rw [ih hcs] at hparts
    obtain ⟨rfl, rfl⟩ := List.cons.inj hparts
    exact hsplit

/-- A text is split at each of its separators on its own. -/
theorem splitAll_append (h : isSeparator c = true) (front back : List Char) :
    splitAll isSeparator (front ++ c :: back) =
      splitAll isSeparator front ++ splitAll isSeparator back := by
  induction front with
  | nil => rw [List.nil_append, splitAll.eq_2, if_pos h, splitAll.eq_1, List.singleton_append]
  | cons d front ih =>
    by_cases hd : isSeparator d = true
    · rw [List.cons_append, splitAll, if_pos hd, ih, splitAll, if_pos hd, List.cons_append]
    · have hd := Bool.eq_false_iff.mpr hd
      obtain ⟨part, parts, hparts, hsplit⟩ := splitAll_cons hd front
      obtain ⟨part', parts', hparts', hsplit'⟩ := splitAll_cons hd (front ++ c :: back)
      rw [ih, hparts] at hparts'
      obtain ⟨rfl, rfl⟩ := List.cons.inj hparts'
      rw [List.cons_append, hsplit', hsplit]
      rfl

/-! ### What stands in front of a character -/

theorem not_mem_takeWhile_ne (c : Char) (cs : List Char) : c ∉ cs.takeWhile (· != c) := by
  intro h
  simpa using List.all_eq_true.mp List.all_takeWhile c h

theorem takeWhile_ne_of_not_mem (h : c ∉ cs) : cs.takeWhile (· != c) = cs := by
  have hall : ∀ d ∈ cs, (d != c) = true := fun d hd => bne_iff_ne.mpr fun heq => h (heq ▸ hd)
  have hwhole : (cs ++ []).takeWhile (· != c) = cs ++ [].takeWhile (· != c) :=
    List.takeWhile_append_of_pos hall
  rwa [List.takeWhile_nil, List.append_nil] at hwhole

theorem takeWhile_ne_append {front : List Char} (h : c ∉ front) (back : List Char) :
    (front ++ c :: back).takeWhile (· != c) = front := by
  have hfront : ∀ d ∈ front, (d != c) = true := fun d hd => bne_iff_ne.mpr fun heq => h (heq ▸ hd)
  rw [List.takeWhile_append_of_pos hfront, List.takeWhile_cons_of_neg (by simp), List.append_nil]

/-- A character is not there, or something stands in front of where it is first. -/
theorem not_mem_or_eq_append (c : Char) (cs : List Char) :
    c ∉ cs ∨ ∃ back, cs = cs.takeWhile (· != c) ++ c :: back := by
  by_cases h : c ∈ cs
  · obtain ⟨front, back, rfl, hfront⟩ := List.eq_append_cons_of_mem h
    exact Or.inr ⟨back, by rw [takeWhile_ne_append hfront]⟩
  · exact Or.inl h

theorem splitFirst?_append {front : List Char} (h : c ∉ front) (back : List Char) :
    splitFirst? c (front ++ c :: back) = some (front, back) := by
  have hfront : ∀ d ∈ front, (d != c) = true := fun d hd => bne_iff_ne.mpr fun heq => h (heq ▸ hd)
  rw [splitFirst?, takeWhile_ne_append h, List.dropWhile_append_of_pos hfront,
    List.dropWhile_cons_of_neg (by simp)]

theorem splitFirst?_of_not_mem (h : c ∉ cs) : splitFirst? c cs = none := by
  have hall : ∀ d ∈ cs, (d != c) = true := fun d hd => bne_iff_ne.mpr fun heq => h (heq ▸ hd)
  have hdrop : (cs ++ []).dropWhile (· != c) = [].dropWhile (· != c) :=
    List.dropWhile_append_of_pos hall
  rw [List.append_nil] at hdrop
  rw [splitFirst?, hdrop]
  rfl

end

end Stencil.Text
