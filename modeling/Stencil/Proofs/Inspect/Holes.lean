/-
  Stencil/Proofs/Inspect/Holes.lean
  =================================
  **A file is split exactly at its holes.**

  A file is cut at its holes (`IsCut`) if no hole begins in the text between them and the
  braces in the code of each hole balance.  Every file is cut at its holes up to a hole that
  does not end (`exists_isCut`), and the reader goes through what is cut and takes up its
  pieces (`IsCut.exists_join`).  So the pieces are read if there are such, and otherwise the
  error names the first hole that does not end (`read_eq_ok_iff`, `read_eq_error_iff`).  Holes
  that begin in the code of others do not count against a file: within code that balances
  they all end (`ends_of_balanced`).

  The reader counts the open braces of a hole.  `Within` says that the count never goes below
  zero, and as long as no brace has closed the hole that is so (`within_of_unclosed`).

  A report on a file that is read has a value for each hole of the literal, so it never
  complains about their number: what it has to say of the written form is the direct reading
  or that there is no tree (`writeHtml_eq`).
-/
import Stencil.Proofs.Inspect.Form
import Stencil.Text.Cut

namespace Stencil.Inspect

open Render
open Text (byteLength byteLength_append byteLength_cons byteLength_nil isBlank IsTrimmed trimChars)

/-! ### Balance -/

/-- Code whose braces balance: none is closed before it is opened, and in the end all are closed. -/
structure Balanced (code : List Char) : Prop where
  never_below : ∀ front, front <+: code → front.count '}' ≤ front.count '{'
  settled : code.count '}' = code.count '{'

namespace Source

/-- With `depth` braces open, there are never more closing braces than that and the opening ones
    in front of them. -/
def Within (depth : Nat) (cs : List Char) : Prop :=
  ∀ front, front <+: cs → front.count '}' ≤ depth + front.count '{'

section
variable {depth start offset : Nat} {c : Char} {cs code text : List Char}

theorem within_nil : Within depth [] := by
  intro front hfront
  rw [List.prefix_nil.mp hfront]
  exact Nat.zero_le _

/-- The counter after one more character is what was open and is open now. -/
theorem openAfter_add_count (h : ¬(c = '}' ∧ depth = 0)) (cs : List Char) :
    openAfter depth c + cs.count '{' + (c :: cs).count '}' =
      depth + (c :: cs).count '{' + cs.count '}' := by
  unfold openAfter
  by_cases hopen : c = '{'
  · subst hopen
    simp
    omega
  · by_cases hclose : c = '}'
    · subst hclose
      have hdepth : depth ≠ 0 := fun h0 => h ⟨rfl, h0⟩
      simp
      omega
    · simp [hopen, hclose]

theorem isBalanced_cons (h : ¬(c = '}' ∧ depth = 0)) :
    isBalanced depth (c :: cs) = isBalanced (openAfter depth c) cs := by
  have hgo : (c == '}' && depth == 0) = false := by simpa using h
  rw [isBalanced, hgo, Bool.not_false, Bool.true_and]

theorem within_cons (h : ¬(c = '}' ∧ depth = 0)) :
    Within depth (c :: cs) ↔ Within (openAfter depth c) cs := by
  constructor
  · intro hwithin front hfront
    have hcount := openAfter_add_count h front
    have := hwithin (c :: front) (List.cons_prefix_cons.mpr ⟨rfl, hfront⟩)
    omega
  · intro hwithin front hfront
    rcases List.prefix_cons_iff.mp hfront with rfl | ⟨front, rfl, hrest⟩
    · exact Nat.zero_le _
    · have hcount := openAfter_add_count h front
      have := hwithin front hrest
      omega

theorem not_within_close : ¬ Within 0 ('}' :: cs) := by
  intro h
  have := h ['}'] (List.cons_prefix_cons.mpr ⟨rfl, List.nil_prefix⟩)
  simp at this

/-- Code may stand in a hole if its counter is never below zero and is zero in the end. -/
theorem isBalanced_iff : isBalanced depth code = true ↔
    Within depth code ∧ depth + code.count '{' = code.count '}' := by
  induction code generalizing depth with
  | nil => simp [isBalanced, within_nil]
  | cons c code ih =>
    by_cases hend : c = '}' ∧ depth = 0
    · obtain ⟨rfl, rfl⟩ := hend
      simp [isBalanced, not_within_close]
    · have hcount := openAfter_add_count hend code
      rw [isBalanced_cons hend, ih, within_cons hend]
      constructor <;> rintro ⟨hwithin, hsettled⟩ <;> exact ⟨hwithin, by omega⟩

theorem balanced_iff : Balanced code ↔ isBalanced 0 code = true := by
  rw [isBalanced_iff]
  constructor
  · intro h
    refine ⟨fun front hfront => ?_, by rw [h.settled, Nat.zero_add]⟩
    rw [Nat.zero_add]
    exact h.never_below front hfront
  · rintro ⟨hwithin, hsettled⟩
    exact ⟨fun front hfront => by have := hwithin front hfront; omega, by omega⟩

/-! ### One hole -/

/-- While no brace has closed the hole, the counter has never been below zero. -/
theorem within_of_unclosed
    (h : ∀ code behind, cs = code ++ '}' :: behind → isBalanced depth code = false) :
    Within depth cs := by
  induction cs generalizing depth with
  | nil => exact within_nil
  | cons c cs ih =>
    have hend : ¬(c = '}' ∧ depth = 0) := by
      rintro ⟨rfl, rfl⟩
      exact absurd (h [] cs rfl) (by decide)
    refine (within_cons hend).mpr (ih fun code behind heq => ?_)
    rw [← isBalanced_cons hend]
    exact h (c :: code) behind (by rw [heq, List.cons_append])

/-- The reader goes through code with its counter at the number of braces that are open. -/
theorem readHole_append (h : Within depth code) (rest : List Char) :
    readHole start offset depth (code ++ rest) =
      (readHole start (offset + byteLength code) (depth + code.count '{' - code.count '}') rest).map
        fun (more, s) => (code ++ more, s) := by
  induction code generalizing depth offset with
  | nil =>
    simp only [List.nil_append, List.count_nil, byteLength_nil, Nat.add_zero, Nat.sub_zero]
    cases readHole start offset depth rest <;> rfl
  | cons c code ih =>
    have hend : ¬(c = '}' ∧ depth = 0) := by
      rintro ⟨rfl, rfl⟩
      exact not_within_close h
    have hcount := openAfter_add_count hend code
    have hdepth : openAfter depth c + code.count '{' - code.count '}' =
        depth + (c :: code).count '{' - (c :: code).count '}' := by omega
    rw [List.cons_append, readHole, if_neg hend, ih ((within_cons hend).mp h), hdepth,
      byteLength_cons, Nat.add_assoc]
    cases readHole start _ _ rest <;> rfl

theorem readHole_closed (h : isBalanced depth code = true) (rest : List Char) :
    readHole start offset depth (code ++ '}' :: rest) =
      (readText (offset + byteLength code + 1) rest).map fun s => (code, s) := by
  obtain ⟨hwithin, hsettled⟩ := isBalanced_iff.mp h
  rw [readHole_append hwithin, hsettled, Nat.sub_self, readHole, if_pos ⟨rfl, rfl⟩]
  cases readText _ rest with
  | error e => rfl
  | ok s => simp [Except.map]

theorem readHole_unclosed (h : Within depth code) :
    readHole start offset depth code = .error ⟨start⟩ := by
  rw [← List.append_nil code, readHole_append h []]
  rfl

/-! ### Text in front of a hole -/

/-- How a hole begins. -/
def mark : List Char := ['$', '{']

theorem isPlain_iff : isPlain text = true ↔ ¬ mark <:+: text := by
  fun_induction isPlain text with
  | case1 text => exact ⟨nofun, fun h => absurd ⟨[], text, rfl⟩ h⟩
  | case2 => simp [mark]
  | case3 c text hmark ih =>
    have hfront : ¬ mark <+: c :: text := by
      rintro ⟨rest, hrest⟩
      obtain ⟨rfl, rfl⟩ := List.cons.inj hrest
      exact hmark rest rfl rfl
    rw [ih, List.infix_cons_iff, not_or]
    exact ⟨fun h => ⟨hfront, h⟩, fun h => h.2⟩

/-- More text in front. -/
def after (text : List Char) (s : Source) : Source := { s with first := text ++ s.first }

theorem readText_append {rest : List Char} (h : ¬ mark <:+: text) (hrest : rest.head? ≠ some '{') :
    readText offset (text ++ rest) = (readText (offset + byteLength text) rest).map
      (after text) := by
  induction text generalizing offset with
  | nil =>
    rw [List.nil_append, byteLength_nil, Nat.add_zero]
    cases readText offset rest <;> rfl
  | cons c text ih =>
    have hmark : ∀ cs, c = '$' → text ++ rest = '{' :: cs → False := by
      rintro cs rfl heq
      cases text with
      | nil => exact hrest (by rw [← List.nil_append rest, heq]; rfl)
      | cons d text =>
        obtain rfl : d = '{' := (List.cons.inj heq).1
        exact h ⟨[], text, rfl⟩
    rw [List.cons_append, readText.eq_3 _ _ _ hmark, ih fun hin => h (List.infix_cons hin),
      byteLength_cons, Nat.add_assoc]
    cases readText _ rest <;> rfl

/-- A hole that ends, with text in front of it. -/
theorem readText_hole (htext : ¬ mark <:+: text) (hcode : Balanced code) (rest : List Char) :
    readText offset (text ++ writtenHole code ++ rest) =
      (readText (offset + byteLength (text ++ writtenHole code)) rest).map fun s =>
        ⟨text, (code, s.first) :: s.rest⟩ := by
  have hlength : offset + byteLength text + 2 + byteLength code + 1 =
      offset + byteLength (text ++ writtenHole code) := by
    have hmark : byteLength (writtenHole code) = 1 + (1 + (byteLength code + 1)) := by
      rw [writtenHole, byteLength_cons, byteLength_cons, byteLength_append]
      rfl
    rw [byteLength_append, hmark]
    omega
  have hopen : writtenHole code ++ rest = '$' :: '{' :: (code ++ '}' :: rest) := by
    simp [writtenHole]
  have hmarked : ('$' :: '{' :: (code ++ '}' :: rest)).head? ≠ some '{' := nofun
  rw [List.append_assoc, hopen, readText_append htext hmarked, readText,
    readHole_closed (balanced_iff.mp hcode), hlength]
  cases readText (offset + byteLength (text ++ writtenHole code)) rest <;>
    simp [Except.map, after, consHole]

/-! ### Files that are cut at their holes -/

/-- No hole begins in the text between the holes, and the code of each hole balances. -/
structure IsCut (s : Source) : Prop where
  first_plain : ¬ mark <:+: s.first
  plain : ∀ r ∈ s.rest, ¬ mark <:+: r.2
  balanced : ∀ r ∈ s.rest, Balanced r.1

instance (s : Source) : Decidable s.IsCut :=
  decidable_of_iff (isPlain s.first = true ∧ (∀ r ∈ s.rest, isPlain r.2 = true) ∧
      ∀ r ∈ s.rest, isBalanced 0 r.1 = true) <| by
    simp only [isPlain_iff, ← balanced_iff]
    exact ⟨fun ⟨hfirst, hplain, hcode⟩ => ⟨hfirst, hplain, hcode⟩,
      fun ⟨hfirst, hplain, hcode⟩ => ⟨hfirst, hplain, hcode⟩⟩

theorem written_cons (first code text : List Char) (rest : List (List Char × List Char)) :
    written ⟨first, (code, text) :: rest⟩ = first ++ writtenHole code ++ written ⟨text, rest⟩ := by
  simp [written]

theorem isCut_cons {first code text : List Char} {rest : List (List Char × List Char)} :
    IsCut ⟨first, (code, text) :: rest⟩ ↔ ¬ mark <:+: first ∧ Balanced code ∧
      IsCut ⟨text, rest⟩ := by
  constructor
  · rintro ⟨hfirst, hplain, hbalanced⟩
    obtain ⟨htext, hplain⟩ := List.forall_mem_cons.mp hplain
    obtain ⟨hcode, hbalanced⟩ := List.forall_mem_cons.mp hbalanced
    exact ⟨hfirst, hcode, htext, hplain, hbalanced⟩
  · rintro ⟨hfirst, hcode, htext, hplain, hbalanced⟩
    exact ⟨hfirst, List.forall_mem_cons.mpr ⟨htext, hplain⟩,
      List.forall_mem_cons.mpr ⟨hcode, hbalanced⟩⟩

/-- The reader goes through a file that is cut at its holes and takes up its pieces. -/
theorem IsCut.exists_join {s : Source} (h : s.IsCut) {rest : List Char}
    (hrest : rest.head? ≠ some '{') :
    ∃ join : Source → Source, join ⟨[], []⟩ = s ∧ ∀ offset, readText offset (s.written ++ rest) =
      (readText (offset + byteLength s.written) rest).map join := by
  obtain ⟨first, holes⟩ := s
  induction holes generalizing first with
  | nil =>
    refine ⟨after first, by simp [after], fun offset => ?_⟩
    have hwritten : written ⟨first, []⟩ = first := by simp [written]
    rw [hwritten, readText_append h.first_plain hrest]
  | cons r holes ih =>
    obtain ⟨code, text⟩ := r
    obtain ⟨hfirst, hcode, hcut⟩ := isCut_cons.mp h
    obtain ⟨join, hjoin, hread⟩ := ih text hcut
    refine ⟨fun t => ⟨first, (code, (join t).first) :: (join t).rest⟩, by simp only [hjoin], ?_⟩
    intro offset
    rw [written_cons, List.append_assoc, readText_hole hfirst hcode, hread, Nat.add_assoc,
      ← byteLength_append]
    cases readText _ rest <;> rfl

theorem IsCut.readText {s : Source} (h : s.IsCut) (offset : Nat) :
    readText offset s.written = .ok s := by
  obtain ⟨join, hjoin, hread⟩ := h.exists_join (show [].head? ≠ some '{' from nofun)
  have := hread offset
  rw [List.append_nil] at this
  rw [this, ← hjoin]
  rfl

theorem IsCut.readText_unclosed {s : Source} (h : s.IsCut) {body : List Char}
    (hbody : Within 0 body) (offset : Nat) :
    Source.readText offset (s.written ++ '$' :: '{' :: body) =
      .error ⟨offset + byteLength s.written⟩ := by
  have hmarked : ('$' :: '{' :: body).head? ≠ some '{' := nofun
  obtain ⟨join, -, hread⟩ := h.exists_join hmarked
  rw [hread, Source.readText, readHole_unclosed hbody]
  rfl

/-! ### Holes that end -/

/-- What follows the mark of a hole that ends: code that balances and a closing brace. -/
def Ends (body : List Char) : Prop := ∃ code behind, body = code ++ '}' :: behind ∧ Balanced code

/-- The first hole that does not end, wherever in the file holes begin, starts at byte `offset`. -/
def FirstUnclosed (file : List Char) (offset : Nat) : Prop :=
  ∃ front body, file = front ++ '$' :: '{' :: body ∧ byteLength front = offset ∧ ¬ Ends body ∧
    ∀ front' body', file = front' ++ '$' :: '{' :: body' → byteLength front' < offset → Ends body'

theorem Ends.append (h : Ends cs) (more : List Char) : Ends (cs ++ more) := by
  obtain ⟨code, behind, rfl, hcode⟩ := h
  exact ⟨code, behind ++ more, by simp, hcode⟩

theorem ends_or_within (cs : List Char) : Ends cs ∨ Within 0 cs := by
  by_cases h : ∃ code behind, cs = code ++ '}' :: behind ∧ isBalanced 0 code = true
  · obtain ⟨code, behind, heq, hcode⟩ := h
    exact Or.inl ⟨code, behind, heq, balanced_iff.mpr hcode⟩
  · refine Or.inr (within_of_unclosed fun code behind heq => ?_)
    exact Bool.eq_false_iff.mpr fun hcode => h ⟨code, behind, heq, hcode⟩

theorem Within.not_ends (h : Within 0 cs) : ¬ Ends cs := by
  rintro ⟨code, behind, rfl, hcode⟩
  have hclosed := h (code ++ ['}']) ⟨behind, by simp⟩
  have hsettled := hcode.settled
  simp only [List.count_append, List.count_singleton_self] at hclosed
  simp at hclosed
  omega

/-- Within code that balances every hole ends. -/
theorem ends_of_balanced {u v : List Char} (h : Balanced (u ++ '$' :: '{' :: v)) : Ends v := by
  refine (ends_or_within v).resolve_right fun hwithin => ?_
  have hfront := h.never_below u (List.prefix_append _ _)
  have hback := hwithin v (List.prefix_refl v)
  have hsettled := h.settled
  simp at hsettled
  omega

/-- A hole does not begin in plain text. -/
theorem behind_plain {rest front body : List Char} (h : ¬ mark <:+: text)
    (hrest : rest.head? ≠ some '{') (heq : text ++ rest = front ++ '$' :: '{' :: body) :
    ∃ u, front = text ++ u ∧ rest = u ++ '$' :: '{' :: body := by
  rcases List.append_eq_append_iff.mp heq with ⟨u, rfl, hu⟩ | ⟨u, rfl, hu⟩
  · exact ⟨u, rfl, hu⟩
  · match u with
    | [] => exact ⟨[], by simp, by simpa using hu.symm⟩
    | [c] =>
      simp only [List.cons_append, List.nil_append, List.cons.injEq] at hu
      exact absurd (by rw [← hu.2]; rfl) hrest
    | c :: d :: u =>
      simp only [List.cons_append, List.cons.injEq] at hu
      obtain ⟨rfl, rfl, -⟩ := hu
      exact absurd ⟨front, u, by simp [mark]⟩ h

/-- What begins where a hole is written ends, or begins behind the hole. -/
theorem ends_or_behind {tail front body : List Char} (hcode : Balanced code)
    (h : writtenHole code ++ tail = front ++ '$' :: '{' :: body) :
    Ends body ∨ ∃ behind, front = writtenHole code ++ behind ∧
      tail = behind ++ '$' :: '{' :: body := by
  simp only [writtenHole, List.cons_append, List.append_assoc, List.nil_append] at h ⊢
  match front with
  | [] =>
    simp only [List.nil_append, List.cons.injEq, true_and] at h
    exact Or.inl ⟨code, tail, h.symm, hcode⟩
  | [c] => simp at h
  | c :: d :: front =>
    simp only [List.cons_append, List.cons.injEq] at h
    obtain ⟨rfl, rfl, h⟩ := h
    rcases List.append_eq_append_iff.mp h with ⟨behind, rfl, hbehind⟩ | ⟨inner, rfl, hinner⟩
    · match behind with
      | [] => simp at hbehind
      | c :: behind =>
        simp only [List.cons_append, List.cons.injEq] at hbehind
        obtain ⟨rfl, rfl⟩ := hbehind
        exact Or.inr ⟨behind, by simp, rfl⟩
    · -- Within the code: the braces behind the mark can only balance if they end the hole there.
      match inner with
      | [] => simp at hinner
      | [c] => simp at hinner
      | c :: d :: inner =>
        simp only [List.cons_append, List.cons.injEq] at hinner
        obtain ⟨rfl, rfl, rfl⟩ := hinner
        exact Or.inl ((ends_of_balanced hcode).append _)

/-- Where a file is cut at its holes, every hole that begins in it ends. -/
theorem IsCut.ends {s : Source} (h : s.IsCut) {tail front body : List Char}
    (htail : tail.head? ≠ some '{') (heq : s.written ++ tail = front ++ '$' :: '{' :: body)
    (hlt : front.length < s.written.length) : Ends body := by
  obtain ⟨first, holes⟩ := s
  induction holes generalizing first front with
  | nil =>
    have hwritten : written ⟨first, []⟩ = first := by simp [written]
    rw [hwritten] at heq hlt
    obtain ⟨u, rfl, -⟩ := behind_plain h.first_plain htail heq
    simp only [List.length_append] at hlt
    omega
  | cons r holes ih =>
    obtain ⟨code, text⟩ := r
    obtain ⟨hfirst, hcode, hcut⟩ := isCut_cons.mp h
    have hmarked : (writtenHole code ++ (written ⟨text, holes⟩ ++ tail)).head? ≠ some '{' := nofun
    rw [written_cons, List.append_assoc, List.append_assoc] at heq
    obtain ⟨u, rfl, hu⟩ := behind_plain hfirst hmarked heq
    rcases ends_or_behind hcode hu with hends | ⟨behind, rfl, hbehind⟩
    · exact hends
    · refine ih text hcut hbehind ?_
      rw [written_cons] at hlt
      simp only [List.length_append] at hlt
      omega

/-! ### Reading -/

/-- A text without holes, or the first of them. -/
theorem plain_or_mark (cs : List Char) :
    ¬ mark <:+: cs ∨ ∃ text body, cs = text ++ '$' :: '{' :: body ∧ ¬ mark <:+: text := by
  induction cs with
  | nil => exact Or.inl (by simp [mark])
  | cons c cs ih =>
    by_cases hc : mark <+: c :: cs
    · obtain ⟨body, hbody⟩ := hc
      exact Or.inr ⟨[], body, hbody.symm, by simp [mark]⟩
    · rcases ih with hplain | ⟨text, body, rfl, htext⟩
      · exact Or.inl fun hin => (List.infix_cons_iff.mp hin).elim hc hplain
      · refine Or.inr ⟨c :: text, body, rfl, fun hin => ?_⟩
        exact (List.infix_cons_iff.mp hin).elim
          (fun hfront => hc (hfront.trans (List.prefix_append (c :: text) _))) htext

/-- Every file is cut at its holes, up to one that does not end. -/
theorem exists_isCut (cs : List Char) : ∃ s : Source, s.IsCut ∧
    (s.written = cs ∨ ∃ body, cs = s.written ++ '$' :: '{' :: body ∧ Within 0 body) := by
  induction hn : cs.length using Nat.strongRecOn generalizing cs with
  | ind n ih =>
    subst hn
    rcases plain_or_mark cs with hplain | ⟨text, body, rfl, htext⟩
    · exact ⟨⟨cs, []⟩, ⟨hplain, nofun, nofun⟩, Or.inl (by simp [written])⟩
    · rcases ends_or_within body with ⟨code, behind, rfl, hcode⟩ | hbody
      · obtain ⟨s, hs, hbehind⟩ := ih behind.length (by simp; omega) behind rfl
        refine ⟨⟨text, (code, s.first) :: s.rest⟩, isCut_cons.mpr ⟨htext, hcode, hs⟩, ?_⟩
        rw [written_cons]
        rcases hbehind with rfl | ⟨body, rfl, hbody⟩
        · exact Or.inl (by simp [writtenHole])
        · exact Or.inr ⟨body, by simp [writtenHole], hbody⟩
      · exact ⟨⟨text, []⟩, ⟨htext, nofun, nofun⟩, Or.inr ⟨body, by simp [written], hbody⟩⟩

/-- A file is read if it is cut at its holes, and its pieces are what is read. -/
theorem read_eq_ok_iff {file : String} {s : Source} :
    read file = .ok s ↔ s.IsCut ∧ s.written = file.toList := by
  constructor
  · intro h
    obtain ⟨t, ht, heq | ⟨body, heq, hbody⟩⟩ := exists_isCut file.toList
    · have hread := ht.readText 0
      rw [heq, ← read, h] at hread
      obtain rfl := Except.ok.inj hread
      exact ⟨ht, heq⟩
    · have hread := ht.readText_unclosed hbody 0
      rw [← heq, ← read, h] at hread
      cases hread
  · rintro ⟨hs, heq⟩
    rw [read, ← heq, hs.readText]

theorem FirstUnclosed.unique {file : List Char} {o o' : Nat} (h : FirstUnclosed file o)
    (h' : FirstUnclosed file o') : o = o' := by
  obtain ⟨front, body, heq, rfl, hopen, hfirst⟩ := h
  obtain ⟨front', body', heq', rfl, hopen', hfirst'⟩ := h'
  rcases Nat.lt_trichotomy (byteLength front) (byteLength front') with hlt | heq | hlt
  · exact absurd (hfirst' front body heq hlt) hopen
  · exact heq
  · exact absurd (hfirst front' body' heq' hlt) hopen'

/-- A file is refused at the first of its holes that does not end. -/
theorem read_eq_error_iff {file : String} {e : Unterminated} :
    read file = .error e ↔ FirstUnclosed file.toList e.offset := by
  obtain ⟨t, ht, heq | ⟨body, heq, hbody⟩⟩ := exists_isCut file.toList
  · have hread : read file = .ok t := read_eq_ok_iff.mpr ⟨ht, heq⟩
    rw [hread]
    refine ⟨nofun, ?_⟩
    rintro ⟨front, body, hfile, -, hopen, -⟩
    refine absurd ?_ hopen
    have hwhole : t.written ++ [] = front ++ '$' :: '{' :: body := by
      rw [List.append_nil, heq, hfile]
    refine ht.ends (by simp) hwhole ?_
    rw [heq, hfile, List.length_append]
    simp
  · have hfirst : FirstUnclosed file.toList (byteLength t.written) := by
      refine ⟨t.written, body, heq, rfl, hbody.not_ends, fun front' body' heq' hlt => ?_⟩
      have hmarked : ('$' :: '{' :: body).head? ≠ some '{' := nofun
      refine ht.ends hmarked (heq.symm.trans heq') (Nat.lt_of_not_le fun hle => ?_)
      obtain ⟨more, rfl⟩ := List.prefix_of_prefix_length_le ⟨_, heq.symm⟩ ⟨_, heq'.symm⟩ hle
      rw [byteLength_append] at hlt
      omega
    have hread : read file = .error ⟨byteLength t.written⟩ := by
      rw [read, heq, ht.readText_unclosed hbody, Nat.zero_add]
    rw [hread]
    constructor
    · intro h
      rw [← Except.error.inj h]
      exact hfirst
    · intro h
      rw [hfirst.unique h]

/-- The holes of a file are handed on without the blanks around their code. -/
theorem forall₂_holes (s : Source) : List.Forall₂ (fun r hole => ∃ front back : List Char,
    r.1 = front ++ hole.toList ++ back ∧ (∀ c ∈ front, isBlank c = true) ∧
      (∀ c ∈ back, isBlank c = true) ∧ IsTrimmed hole.toList) s.rest s.holes := by
  rw [holes, List.forall₂_map_right_iff, List.forall₂_same]
  intro r _
  obtain ⟨front, back, heq, hfront, hback⟩ := Text.exists_trimChars r.1
  rw [String.toList_ofList]
  exact ⟨front, back, heq, hfront, hback, Text.isTrimmed_trimChars r.1⟩

end

end Source

/-! ### What a report may complain about -/

/-- A piece of a report can break off with a fault. -/
def Complains {α : Type} (x : Writing α) (f : Fault) : Prop :=
  ∃ out out', x.run.run out = (.error f, out')

section
variable {α β : Type} {f : Fault}

theorem complains_throw {f' : Fault} (h : Complains (throw f' : Writing α) f) : f = f' := by
  obtain ⟨out, out', h⟩ := h
  cases h
  rfl

theorem complains_bind {x : Writing α} {g : α → Writing β} (h : Complains (x >>= g) f) :
    Complains x f ∨ ∃ a, Complains (g a) f := by
  obtain ⟨out, out', h⟩ := h
  have hrun : (x >>= g).run.run out = match x.run.run out with
      | (.ok a, out₁) => (g a).run.run out₁
      | (.error f, out₁) => (.error f, out₁) := by
    change (ExceptT.bindCont g (x.run.run out).1).run (x.run.run out).2 = _
    rcases x.run.run out with ⟨_ | a, out₁⟩ <;> rfl
  rw [hrun] at h
  rcases hx : x.run.run out with ⟨f' | a, out₁⟩
  · rw [hx] at h
    cases h
    exact Or.inl ⟨out, out', hx⟩
  · rw [hx] at h
    exact Or.inr ⟨a, out₁, out', h⟩

/-- A section that is written if it is asked for, and the rest of the report. -/
theorem complains_section {b : Bool} {x y : Writing Unit}
    (h : Complains (if b = true then x >>= fun _ => y else y) f) :
    Complains x f ∨ Complains y f := by
  split at h
  · rcases complains_bind h with h | ⟨-, h⟩
    · exact Or.inl h
    · exact Or.inr h
  · exact Or.inr h

theorem not_complains_pure (a : α) : ¬ Complains (pure a) f := nofun

theorem not_complains_write (lines : List String) : ¬ Complains (write lines) f := by
  rintro ⟨out, out', h⟩
  cases h

theorem not_complains_writeTokens (l : Literal) : ¬ Complains (writeTokens l) f := by
  intro h
  rcases complains_bind h with h | ⟨-, h⟩ <;> exact not_complains_write _ h

theorem complains_writeOutline {path : String} {l : Literal}
    (h : Complains (writeOutline path l) f) :
    ∃ e, f = .malformed path e := by
  rcases complains_bind h with h | ⟨-, h⟩
  · exact absurd h (not_complains_write _)
  · cases hparse : l.parse config with
    | ok t =>
      simp only [hparse] at h
      exact absurd h (not_complains_write _)
    | error e =>
      simp only [hparse] at h
      exact ⟨e, complains_throw h⟩

theorem complains_writeHtml {path : String} {l : Literal} {holes : List String}
    (hcount : holes.length = l.holeCount) (h : Complains (writeHtml path l holes) f) :
    ∃ e, f = .unrendered path (.parse e) := by
  have hvalues : (placeholders l holes).length = l.holeCount := by
    rw [placeholders, List.length_mapIdx, hcount]
  obtain ⟨hwritten, hfailed⟩ := writeHtml_eq path l holes
  rcases hform : directForm l (placeholders l holes) with e | html
  · obtain ⟨fault, rfl⟩ := directForm_error hvalues hform
    rw [hfailed _ hform] at h
    rcases complains_bind h with h | ⟨-, h⟩
    · exact absurd h (not_complains_write _)
    · exact ⟨fault, complains_throw h⟩
  · rw [hwritten _ hform] at h
    rcases complains_bind h with h | ⟨-, h⟩ <;> exact absurd h (not_complains_write _)

/-- A report breaks off at a hole that does not end or at a literal without a tree, but never
    because of the number of holes. -/
theorem complains_writeReport {o : Options} {path content : String}
    (h : Complains (writeReport o path content) f) :
    (∃ hole, f = .unterminated hole ∧ Source.read content = .error hole) ∨
      (∃ e, f = .malformed path e) ∨ ∃ e, f = .unrendered path (.parse e) := by
  unfold writeReport at h
  cases hread : Source.read content with
  | error hole =>
    rw [hread] at h
    exact Or.inl ⟨hole, complains_throw h, rfl⟩
  | ok source =>
    rw [hread] at h
    have hcount : source.holes.length = Literal.holeCount ⟨path, source.segments⟩ := by
      rw [Literal.holeCount, Source.length_segments, Nat.add_sub_cancel]
    rcases complains_section h with h | h
    · exact absurd h (not_complains_writeTokens _)
    · rcases complains_section h with h | h
      · exact Or.inr (Or.inl (complains_writeOutline h))
      · split at h
        · exact Or.inr (Or.inr (complains_writeHtml hcount h))
        · exact absurd h (not_complains_pure _)

end

/-! ### Splitting a file -/

/-- **A file is split exactly at its holes.**  It is read if it can be cut into text without the
    mark of a hole and holes whose braces balance, and there is only one way to do so.  The segments
    are the texts, one more than there are holes, and the holes are handed on without the blanks
    around them, so no report on the file complains about their number.  A file that cannot be cut
    is refused with the byte at which the first hole starts that does not end.

    As long as no brace has ended a hole, no more braces are closed than opened in it, and the
    reader goes on with the difference as its counter. -/
theorem read_splits (file : String) :
    (∀ s, Source.read file = .ok s ↔ s.IsCut ∧ s.written = file.toList) ∧
      (∀ s t : Source, s.IsCut → t.IsCut → s.written = t.written → s = t) ∧
      (∀ e, Source.read file = .error e ↔ Source.FirstUnclosed file.toList e.offset) ∧
      (∀ s, Source.read file = .ok s →
        s.segments.map String.toList = s.first :: s.rest.map (·.2) ∧
        List.Forall₂ (fun r hole => ∃ front back : List Char, r.1 = front ++ hole.toList ++ back ∧
          (∀ c ∈ front, isBlank c = true) ∧ (∀ c ∈ back, isBlank c = true) ∧ IsTrimmed hole.toList)
          s.rest s.holes ∧
        s.segments.length = s.holes.length + 1) ∧
      (∀ o path path' expected found,
        ¬ Complains (writeReport o path file) (.unrendered path' (.holeCount expected found))) ∧
      ∀ start offset front rest, ¬ Source.Ends front →
        front.count '}' ≤ front.count '{' ∧
        Source.readHole start offset 0 (front ++ rest) =
          (Source.readHole start (offset + byteLength front)
            (front.count '{' - front.count '}') rest).map fun (code, s) => (front ++ code, s) := by
  refine ⟨fun s => Source.read_eq_ok_iff, fun s t hs ht heq => ?_,
    fun e => Source.read_eq_error_iff,
    fun s _ => ⟨?_, s.forall₂_holes, s.length_segments⟩, fun o path path' expected found h => ?_,
    fun start offset front rest hends => ?_⟩
  · have hread := ht.readText 0
    rw [← heq, hs.readText 0] at hread
    exact Except.ok.inj hread
  · simp [Source.segments]
  · rcases complains_writeReport h with ⟨_, hf, -⟩ | ⟨_, hf⟩ | ⟨_, hf⟩
    · cases hf
    · cases hf
    · cases hf
  · have hwithin := (Source.ends_or_within front).resolve_left hends
    have hcount := hwithin front (List.prefix_refl front)
    refine ⟨by omega, ?_⟩
    rw [Source.readHole_append hwithin, Nat.zero_add]

/-- Braces in code and a `$` at the end of a text are no holes; the first hole that does not end is
    the one at byte six, for the letter in front takes two bytes, and not the one within it. -/
theorem read_splits_braces :
    Source.read "é$\x7ba\x7d$\x7b \x7bb\x7d \x7d$" =
        .ok ⟨['é'], [(['a'], []), (" \x7bb\x7d ".toList, ['$'])]⟩ ∧
      Source.FirstUnclosed "é$\x7ba\x7d$\x7b \x7b $\x7bb\x7d".toList 6 :=
  ⟨((read_splits _).1 _).mpr ⟨by decide, by decide⟩, ((read_splits _).2.2.1 ⟨6⟩).mp (by decide)⟩

end Stencil.Inspect
