/-
  Stencil/Proofs/Markup/Scanned.lean
  ==================================
  **The tokens of written markup.**

  The written form of a page is made of few things: start tags whose attribute values
  all stand in double quotes, close tags, and texts.  For each of them this file says
  which tokens it is cut into and in which mode the scanner goes on behind it.  Where a
  token stands does not matter here, so places are left open.
-/
import Stencil.Document.Walk
import Stencil.Proofs.Markup.Phrase
import Stencil.Proofs.Markup.Stretch
import Stencil.Proofs.Markup.Unescape

namespace Stencil.Markup

open Document (Attribute Attributes attributeHtml startTag closeTag)
open SourceSymbol (chars cut cut_chars chars_append)
open Text (byteLength cutAt)

/-! ### Steps -/

/-- The tokens of the rest of a literal of one segment. -/
def tokensFrom (raw : NameSet) (m : Mode) (offset : Nat) (cs : List Char) : List Token :=
  (scanRest raw 0 m offset cs).1

/-- A literal of one segment has no holes. -/
theorem tokensFrom_eq (raw : NameSet) (m : Mode) (offset : Nat) (cs : List Char) :
    tokensFrom raw m offset cs = tokensAt raw 0 m offset (chars cs) := by
  have hcut : cut (chars cs) = (cs, []) := by simpa [cut] using cut_chars cs []
  rw [tokensAt, hcut, joined_emissionsFrom_nil]
  rfl

section

variable {raw : NameSet} {m m' : Mode} {c : Char} {cs taken rest : List Char}

theorem tokensFrom_nil (raw : NameSet) (m : Mode) (offset : Nat) :
    tokensFrom raw m offset [] = [] := by
  rw [tokensFrom, scanRest]

theorem tokensFrom_cons (raw : NameSet) (m : Mode) (offset : Nat) (c : Char) (cs : List Char) :
    tokensFrom raw m offset (c :: cs) =
      (m.move raw c cs).emitted.foldr (fun e ts => Token.push ⟨e.2, ⟨0, offset + e.1⟩⟩ ts)
        (tokensFrom raw (m.move raw c cs).mode (offset + byteLength (m.move raw c cs).taken)
          (m.move raw c cs).rest) := by
  rw [tokensFrom, scanRest]
  rfl

/-- A move that emits two tokens, which are no texts. -/
theorem tokensFrom_two {n n' : Nat} {k k' : TokenKind}
    (h : m.move raw c cs = ⟨[(n, k), (n', k')], m', taken, rest⟩)
    (hk : ∀ value, k ≠ .text value) (hk' : ∀ value, k' ≠ .text value) (offset : Nat) :
    ∃ pos pos' offset', tokensFrom raw m offset (c :: cs) =
      ⟨k, pos⟩ :: ⟨k', pos'⟩ :: tokensFrom raw m' offset' rest := by
  refine ⟨⟨0, offset + n⟩, ⟨0, offset + n'⟩, offset + byteLength taken, ?_⟩
  rw [tokensFrom_cons, h]
  exact (push_eq hk _).trans (congrArg _ (push_eq hk' _))

end

/-! ### Names -/

/-- Names of which every character is one of a name. -/
def IsWord (name : String) : Prop := name.toList ≠ [] ∧ ∀ c ∈ name.toList, isNameChar c = true

instance (name : String) : Decidable (IsWord name) :=
  decidable_of_iff (name.toList ≠ [] ∧ name.toList.all isNameChar = true) <| by simp [IsWord]

theorem IsWord.exists_cons {name : String} (h : IsWord name) : ∃ c cs, name.toList = c :: cs ∧
    isNameChar c = true ∧ ∀ d ∈ cs, isNameChar d = true := by
  obtain ⟨hne, hall⟩ := h
  obtain ⟨c, cs, heq⟩ := List.exists_cons_of_ne_nil hne
  rw [heq] at hall
  obtain ⟨hc, hcs⟩ := List.forall_mem_cons.mp hall
  exact ⟨c, cs, heq, hc, hcs⟩

/-! ### Inside a tag -/

section

variable (raw : NameSet) (startName : Option String)

/-- Inside a tag, with no value on the way. -/
def inside : Mode := .tag ⟨startName, false, .outside⟩

section
variable {raw : NameSet} {seg o : Nat} {startName : Option String} {l : List SourceSymbol}

theorem tokensAt_blank : tokensAt raw seg (inside startName) o (.char ' ' :: l) =
    tokensAt raw seg (inside startName) (o + 1) l := by
  have hmove : (inside startName).move raw ' ' (cut l).1 =
      ⟨[], inside startName, [' '], (cut l).1⟩ := rfl
  exact tokensAt_move ' ' [] hmove

/-- A name inside a tag. -/
theorem tokensAt_name {name : String} (h : IsWord name)
    (hl : ∀ d ∈ (cut l).1.head?, isNameChar d = false) :
    tokensAt raw seg (inside startName) o (chars name.toList ++ l) =
      ⟨.ident name, ⟨seg, o⟩⟩ ::
        tokensAt raw seg (inside startName) (o + byteLength name.toList) l := by
  refine tokensAt_mark h.1 (fun c cs hname => ?_) (by simp)
  have hmoves : Moves raw _ _ _ := moves_move (inside startName) c (cs ++ (cut l).1)
  rw [← List.cons_append, ← hname] at hmoves
  rw [hmoves.eq_ident (by simp) h.1 h.2 hl, String.ofList_toList]
  rfl

/-- The end of a tag. -/
theorem tokensAt_end : tokensAt raw seg (inside startName) o (.char '>' :: l) =
    ⟨.closeAngle, ⟨seg, o⟩⟩ ::
      tokensAt raw seg (InTag.close raw ⟨startName, false, .outside⟩) (o + 1) l := by
  have hmove : (inside startName).move raw '>' (cut l).1 =
      ⟨[(0, .closeAngle)], InTag.close raw ⟨startName, false, .outside⟩, ['>'], (cut l).1⟩ := rfl
  exact tokensAt_char hmove (by simp)

theorem tokensAt_equals : tokensAt raw seg (inside startName) o (.char '=' :: l) =
    ⟨.equals, ⟨seg, o⟩⟩ :: tokensAt raw seg (.tag ⟨startName, false, .awaited⟩) (o + 1) l := by
  have hmove : (inside startName).move raw '=' (cut l).1 =
      ⟨[(0, .equals)], .tag ⟨startName, false, .awaited⟩, ['='], (cut l).1⟩ := rfl
  exact tokensAt_char hmove (by simp)

theorem tokensAt_openQuote {q : Quote} :
    tokensAt raw seg (.tag ⟨startName, false, .awaited⟩) o (.char q.char :: l) =
      ⟨.quote q, ⟨seg, o⟩⟩ ::
        tokensAt raw seg (.value q ⟨startName, false, .outside⟩) (o + 1) l := by
  have hmove : (Mode.tag ⟨startName, false, .awaited⟩).move raw q.char (cut l).1 =
      ⟨[(0, .quote q)], .value q ⟨startName, false, .outside⟩, [q.char], (cut l).1⟩ := by
    cases q <;> rfl
  rw [tokensAt_char hmove (by simp)]
  cases q <;> rfl

theorem tokensAt_closeQuote {q : Quote} :
    tokensAt raw seg (.value q ⟨startName, false, .outside⟩) o (.char q.char :: l) =
      ⟨.quote q, ⟨seg, o⟩⟩ :: tokensAt raw seg (inside startName) (o + 1) l := by
  have hmove : (Mode.value q ⟨startName, false, .outside⟩).move raw q.char (cut l).1 =
      ⟨[(0, .quote q)], inside startName, [q.char], (cut l).1⟩ := if_pos rfl
  rw [tokensAt_char hmove (by simp)]
  cases q <;> rfl

/-- A text in quotes, up to a hole or the quote. -/
theorem tokensAt_quotedText {q : Quote} {t : InTag} {value : String} (hvalue : value ≠ "")
    (hq : q.char ∉ value.toList) (hl : ∀ d ∈ (cut l).1.head?, d = q.char) :
    tokensAt raw seg (.value q t) o (chars value.toList ++ l) =
      ⟨.fragment value, ⟨seg, o⟩⟩ ::
        tokensAt raw seg (.value q t) (o + byteLength value.toList) l := by
  refine tokensAt_mark (by simpa using hvalue) (fun c cs hchars => ?_) (by simp)
  have hplain : ∀ d ∈ c :: cs, (d != q.char) = true := by
    intro d hd
    rw [bne_iff_ne]
    rintro rfl
    exact hq (hchars ▸ hd)
  obtain ⟨hc, hcs⟩ := List.forall_mem_cons.mp hplain
  obtain ⟨htake, hdrop⟩ := span_append hcs
    (show ∀ d ∈ (cut l).1.head?, (d != q.char) = false by simpa using hl)
  rw [Mode.move, moveValue, if_neg (by simpa using hc), htake, hdrop]
  simp only [← hchars, String.ofList_toList]

end

theorem tokens_blank (offset : Nat) (r : List Char) :
    ∃ offset', tokensFrom raw (inside startName) offset (' ' :: r) =
      tokensFrom raw (inside startName) offset' r := by
  refine ⟨offset + 1, ?_⟩
  rw [tokensFrom_eq, tokensFrom_eq]
  exact tokensAt_blank

theorem tokens_name {name : String} (h : IsWord name) {e : Char} (he : isNameChar e = false)
    (offset : Nat) (r : List Char) :
    ∃ pos offset', tokensFrom raw (inside startName) offset (name.toList ++ e :: r) =
      ⟨.ident name, pos⟩ :: tokensFrom raw (inside startName) offset' (e :: r) := by
  refine ⟨⟨0, offset⟩, offset + byteLength name.toList, ?_⟩
  rw [tokensFrom_eq, tokensFrom_eq, chars_append]
  exact tokensAt_name h (by simpa [chars, cut] using he)

theorem tokens_end (offset : Nat) (r : List Char) :
    ∃ pos offset', tokensFrom raw (inside startName) offset ('>' :: r) =
      ⟨.closeAngle, pos⟩ ::
        tokensFrom raw (InTag.close raw ⟨startName, false, .outside⟩) offset' r := by
  refine ⟨⟨0, offset⟩, offset + 1, ?_⟩
  rw [tokensFrom_eq, tokensFrom_eq]
  exact tokensAt_end

/-- A value in double quotes behind its `=`, and what reading it gives. -/
theorem tokens_value {value : String} (hvalue : '"' ∉ value.toList) (name : String) (offset : Nat)
    (r : List Char) :
    ∃ p q ts offset', tokensFrom raw (inside startName) offset
          ('=' :: '"' :: (value.toList ++ '"' :: r)) =
        ⟨.equals, p⟩ :: ⟨.quote .double, q⟩ :: (ts ++ tokensFrom raw (inside startName) offset' r) ∧
      ∀ stop rest, readValue stop name (⟨.quote .double, q⟩ :: (ts ++ rest)) =
        .ok (.fixed name (decodeReferences value) (some .double), rest) := by
  have hchars : chars ('=' :: '"' :: (value.toList ++ '"' :: r)) =
      .char '=' :: .char Quote.double.char ::
        (chars value.toList ++ .char Quote.double.char :: chars r) := by
    simp [chars, Quote.char]
  rw [tokensFrom_eq, hchars, tokensAt_equals, tokensAt_openQuote]
  by_cases hempty : value = ""
  · subst hempty
    refine ⟨⟨0, offset⟩, ⟨0, offset + 1⟩, [⟨.quote .double, ⟨0, offset + 1 + 1⟩⟩],
      offset + 1 + 1 + 1, ?_, fun stop rest => ?_⟩
    · rw [tokensFrom_eq]
      exact congrArg (_ :: _ :: ·) tokensAt_closeQuote
    · simp [readValue, readQuoted, Attr.ofParts, decodeReferences, decodeChars]
  · have hends : ∀ d ∈ (cut (.char Quote.double.char :: chars r)).1.head?,
        d = Quote.double.char := by
      intro d hd
      cases hd
      rfl
    refine ⟨⟨0, offset⟩, ⟨0, offset + 1⟩, [⟨.fragment value, ⟨0, offset + 1 + 1⟩⟩,
      ⟨.quote .double, ⟨0, offset + 1 + 1 + byteLength value.toList⟩⟩],
      offset + 1 + 1 + byteLength value.toList + 1, ?_, fun stop rest => ?_⟩
    · rw [tokensFrom_eq, tokensAt_quotedText (q := .double) hempty hvalue hends,
        tokensAt_closeQuote]
      rfl
    · simp [readValue, readQuoted, Attr.ofParts]

/-- What an attribute is read as. -/
def readAs (a : Attribute) : Attr := .fixed a.name a.value (some .double)

/-- Attributes up to the end of a start tag, and what reading them gives. -/
theorem tokens_attributes {as : Attributes} (has : ∀ a ∈ as, IsWord a.name ∧ a.name ≠ spreadMark)
    (offset : Nat) (r : List Char) :
    ∃ ts offset', tokensFrom raw (inside startName) offset
          ((String.join (as.map attributeHtml)).toList ++ '>' :: r) =
        ts ++ tokensFrom raw (InTag.close raw ⟨startName, false, .outside⟩) offset' r ∧
      ∀ stop rest, readAttrs stop (ts ++ rest) = .ok (as.map readAs, false, rest) := by
  induction as generalizing offset with
  | nil =>
    obtain ⟨p, o, h⟩ := tokens_end raw startName offset r
    refine ⟨[⟨.closeAngle, p⟩], o, ?_, fun stop rest => ?_⟩
    · simpa using h
    · unfold readAttrs
      rfl
  | cons a as ih =>
    obtain ⟨⟨hword, hspread⟩, has'⟩ := List.forall_mem_cons.mp has
    obtain ⟨tail, htail⟩ : ∃ tail, tail = (String.join (as.map attributeHtml)).toList ++ '>' :: r :=
      ⟨_, rfl⟩
    have hchars : (String.join ((a :: as).map attributeHtml)).toList ++ '>' :: r =
        ' ' :: (a.name.toList ++ '=' :: '"' ::
          ((Text.escapeAttribute a.value).toList ++ '"' :: tail)) := by
      rw [htail, List.map_cons, String.join_cons, attributeHtml]
      simp [String.toList_append]
    obtain ⟨o₁, h₁⟩ := tokens_blank raw startName offset
      (a.name.toList ++ '=' :: '"' :: ((Text.escapeAttribute a.value).toList ++ '"' :: tail))
    obtain ⟨p₂, o₂, h₂⟩ := tokens_name raw startName hword (e := '=') (by decide) o₁
      ('"' :: ((Text.escapeAttribute a.value).toList ++ '"' :: tail))
    obtain ⟨p₃, q₃, ts₃, o₃, h₃, hread⟩ := tokens_value raw startName
      (not_mem_escapeAttribute a.value) a.name o₂ tail
    obtain ⟨ts, o', h, hrest⟩ := ih has' o₃
    refine ⟨⟨.ident a.name, p₂⟩ :: ⟨.equals, p₃⟩ :: ⟨.quote .double, q₃⟩ :: (ts₃ ++ ts), o', ?_,
      fun stop rest => ?_⟩
    · rw [hchars, h₁, h₂, h₃, htail, h]
      simp
    · have hskip : skipEquals (⟨.equals, p₃⟩ :: ⟨.quote .double, q₃⟩ :: (ts₃ ++ (ts ++ rest))) =
          ⟨.quote .double, q₃⟩ :: (ts₃ ++ (ts ++ rest)) := rfl
      have hvalue := hread stop (ts ++ rest)
      rw [decodeReferences_escapeAttribute] at hvalue
      simp only [List.cons_append, List.append_assoc]
      unfold readAttrs
      simp only [if_neg hspread, startsEquals, beq_self_eq_true, if_true]
      split
      · rename_i e heq
        rw [hskip, hvalue] at heq
        cases heq
      · rename_i b rest' heq
        rw [hskip, hvalue] at heq
        obtain ⟨rfl, rfl⟩ := by simpa using heq
        rw [hrest]
        rfl

end

/-! ### Tags -/

/-- The names of elements as they are usual: a small letter, and then small letters, digits and
    hyphens. -/
def IsElementName (name : String) : Prop :=
  ∃ c cs, name.toList = c :: cs ∧ c.isLower = true ∧
    ∀ d ∈ cs, d.isLower = true ∨ d.isDigit = true ∨ d = '-'

instance (name : String) : Decidable (IsElementName name) :=
  decidable_of_iff ((match name.toList with
      | [] => false
      | c :: cs => c.isLower && cs.all fun d => d.isLower || d.isDigit || d == '-') = true) <| by
    rw [IsElementName]
    cases name.toList with
    | nil => simp
    | cons c cs => simp [or_assoc, and_assoc]

theorem isAlpha_of_isLower {c : Char} (h : c.isLower = true) : c.isAlpha = true := by
  have hletter : c.isAlpha = (c.isUpper || c.isLower) := rfl
  rw [hletter, h, Bool.or_true]

theorem isNameChar_of_isLower {c : Char} (h : c.isLower = true) : isNameChar c = true := by
  simp [isNameChar, Char.isAlphanum, isAlpha_of_isLower h]

theorem isUpper_iff {c : Char} : c.isUpper = true ↔ 65 ≤ c.val ∧ c.val ≤ 90 := by
  change decide (65 ≤ c.val ∧ c.val ≤ 90) = true ↔ _
  exact decide_eq_true_iff

theorem isUpper_of_isLower {c : Char} (h : c.isLower = true) : c.isUpper = false := by
  have hbounds : (decide (97 ≤ c.val) && decide (c.val ≤ 122)) = true := h
  rw [Bool.and_eq_true, decide_eq_true_eq, decide_eq_true_eq] at hbounds
  rw [Bool.eq_false_iff]
  intro hupper
  exact absurd (Nat.le_trans hbounds.1 (isUpper_iff.mp hupper).2) (by decide)

theorem isUpper_of_isDigit {c : Char} (h : c.isDigit = true) : c.isUpper = false := by
  have hbounds : (decide (48 ≤ c.val) && decide (c.val ≤ 57)) = true := h
  rw [Bool.and_eq_true, decide_eq_true_eq, decide_eq_true_eq] at hbounds
  rw [Bool.eq_false_iff]
  intro hupper
  exact absurd (Nat.le_trans (isUpper_iff.mp hupper).1 hbounds.2) (by decide)

namespace IsElementName

variable {name : String}

theorem isWord (h : IsElementName name) : IsWord name := by
  obtain ⟨c, cs, heq, hc, hcs⟩ := h
  rw [IsWord, heq]
  refine ⟨by simp, List.forall_mem_cons.mpr ⟨isNameChar_of_isLower hc, fun d hd => ?_⟩⟩
  rcases hcs d hd with hlower | hdigit | rfl
  · exact isNameChar_of_isLower hlower
  · simp [isNameChar, Char.isAlphanum, hdigit]
  · rfl

/-- No letter of such a name is a capital. -/
theorem isUpper (h : IsElementName name) (d : Char) (hd : d ∈ name.toList) : d.isUpper = false := by
  obtain ⟨c, cs, heq, hc, hcs⟩ := h
  rw [heq] at hd
  rcases List.mem_cons.mp hd with rfl | hd
  · exact isUpper_of_isLower hc
  · rcases hcs d hd with hd | hd | rfl
    · exact isUpper_of_isLower hd
    · exact isUpper_of_isDigit hd
    · rfl

theorem startsCapital (h : IsElementName name) : Text.startsCapital name = false := by
  obtain ⟨c, cs, heq, -⟩ := id h
  rw [Text.startsCapital, heq]
  exact h.isUpper c (heq ▸ List.mem_cons_self)

theorem lower (h : IsElementName name) : Text.lower name = name := by
  have hsame (d : Char) (hd : d ∈ name.toList) : d.toLower = d := by
    have hupper := h.isUpper d hd
    have hno : ¬ (65 ≤ d.val ∧ d.val ≤ 90) := fun hbounds => by
      rw [isUpper_iff.mpr hbounds] at hupper
      cases hupper
    exact dif_neg hno
  rw [Text.lower, ← String.toList_inj, String.toList_map, List.map_congr_left hsame, List.map_id']

end IsElementName

/-- What is written begins a tag, or there is nothing more. -/
def StartsTag (r : List Char) : Prop :=
  r = [] ∨ ∃ c cs, r = '<' :: c :: cs ∧ (c.isAlpha = true ∨ c = '/')

theorem opensMarkup_startsTag {c : Char} {cs : List Char} (h : c.isAlpha = true ∨ c = '/') :
    opensMarkup ('<' :: c :: cs) = true := by
  unfold opensMarkup
  split
  · rfl
  · rename_i heq
    obtain ⟨rfl, -⟩ := List.cons.inj (List.cons.inj heq).2
    simpa using h
  · rename_i hno
    exact absurd rfl (hno c cs)

theorem moveText_alpha {c : Char} (h : c.isAlpha = true) (cs : List Char) :
    moveText '<' (c :: cs) =
      ⟨[(0, .openAngle), (1, .ident (String.ofList ((c :: cs).takeWhile isNameChar)))],
        .tag ⟨some (String.ofList ((c :: cs).takeWhile isNameChar)), false, .outside⟩,
        '<' :: (c :: cs).takeWhile isNameChar, (c :: cs).dropWhile isNameChar⟩ := by
  unfold moveText
  rw [opensMarkup_startsTag (Or.inl h)]
  split
  · rename_i heq
    obtain ⟨rfl, -⟩ := by simpa using heq
    exact absurd h (by decide)
  · rename_i heq
    obtain ⟨rfl, -⟩ := by simpa using heq
    exact absurd h (by decide)
  · rfl
  · rename_i hno
    cases hno

/-- A word that begins with a letter, as the name of an element must. -/
def IsTagName (name : String) : Prop := IsWord name ∧ ∀ c ∈ name.toList.head?, c.isAlpha = true

instance (name : String) : Decidable (IsTagName name) :=
  decidable_of_iff (IsWord name ∧ name.toList.head?.all Char.isAlpha = true) <| by
    simp [IsTagName, Option.all_eq_true]

theorem IsElementName.isTagName {name : String} (h : IsElementName name) : IsTagName name := by
  obtain ⟨c, cs, hname, hlower, -⟩ := id h
  refine ⟨h.isWord, ?_⟩
  rw [hname]
  intro d hd
  cases hd
  exact isAlpha_of_isLower hlower

section
variable {raw : NameSet} {name : String} {l : List SourceSymbol}

/-- The beginning of a start tag in text. -/
theorem tokensAt_tagName (h : IsTagName name) (hl : ∀ d ∈ (cut l).1.head?, isNameChar d = false)
    (seg o : Nat) :
    tokensAt raw seg .text o (.char '<' :: (chars name.toList ++ l)) =
      ⟨.openAngle, ⟨seg, o⟩⟩ :: ⟨.ident name, ⟨seg, o + 1⟩⟩ ::
        tokensAt raw seg (inside (some name)) (o + byteLength ('<' :: name.toList)) l := by
  obtain ⟨hword, halpha⟩ := h
  obtain ⟨c, cs, hname, -⟩ := hword.exists_cons
  obtain ⟨htake, hdrop⟩ := span_append hword.2 hl
  have hmove : Mode.text.move raw '<' (name.toList ++ (cut l).1) =
      ⟨[(0, .openAngle), (1, .ident name)], inside (some name), '<' :: name.toList,
        (cut l).1⟩ := by
    have hmoved := moveText_alpha (halpha c (by simp [hname])) (cs ++ (cut l).1)
    rw [← List.cons_append, ← hname, htake, hdrop, String.ofList_toList] at hmoved
    exact hmoved
  have hpushed (ts : List Token) : (Token.push ⟨.openAngle, ⟨seg, o⟩⟩
      (Token.push ⟨.ident name, ⟨seg, o + 1⟩⟩ ts)) =
      ⟨.openAngle, ⟨seg, o⟩⟩ :: ⟨.ident name, ⟨seg, o + 1⟩⟩ :: ts := by
    rw [push_eq (by simp), push_eq (by simp)]
  rw [← hpushed]
  exact tokensAt_move '<' name.toList hmove

theorem closesRaw_closeTag (name : String) (r : List Char) :
    closesRaw name ('<' :: '/' :: (name.toList ++ '>' :: r)) = true := by
  have hopens : ('<' :: '/' :: name.toList).isPrefixOf
      ('<' :: '/' :: (name.toList ++ '>' :: r)) = true :=
    List.isPrefixOf_iff_prefix.mpr ⟨'>' :: r, rfl⟩
  have hend : isNameChar '>' = false := by decide
  rw [closesRaw, hopens]
  simp [hend]

/-- The mode behind a start tag that does not close itself. -/
theorem InTag.close_cases (raw : NameSet) (name : String) :
    InTag.close raw ⟨some name, false, .outside⟩ = .text ∨
      InTag.close raw ⟨some name, false, .outside⟩ = .raw name := by
  simp only [InTag.close]
  split
  · exact Or.inr rfl
  · exact Or.inl rfl

/-- A close tag in text or at the end of the raw text of its element. -/
theorem tokensAt_closeTag (h : IsWord name) {m : Mode} (hm : m = .text ∨ m = .raw name)
    (seg o : Nat) :
    ∃ p₁ p₂ p₃ p₄ o', tokensAt raw seg m o (chars (closeTag name).toList ++ l) =
      ⟨.openAngle, p₁⟩ :: ⟨.slash, p₂⟩ :: ⟨.ident name, p₃⟩ :: ⟨.closeAngle, p₄⟩ ::
        tokensAt raw seg .text o' l := by
  have hchars : chars (closeTag name).toList ++ l =
      chars ['<', '/'] ++ (chars name.toList ++ .char '>' :: l) := by
    rw [closeTag]
    simp [chars, String.toList_append]
  have hcut : (cut (chars name.toList ++ .char '>' :: l)).1 =
      name.toList ++ '>' :: (cut l).1 := by
    rw [cut_chars]
    rfl
  have hopen : m.move raw '<' (['/'] ++ (cut (chars name.toList ++ .char '>' :: l)).1) =
      ⟨[(0, .openAngle), (1, .slash)], inside none, ['<', '/'],
        (cut (chars name.toList ++ .char '>' :: l)).1⟩ := by
    rcases hm with rfl | rfl
    · rfl
    · rw [hcut, List.singleton_append, Mode.move, moveRaw.eq_def,
        if_pos (closesRaw_closeTag name (cut l).1)]
      rfl
  have hname : ∀ d ∈ (cut (.char '>' :: l)).1.head?, isNameChar d = false := by
    intro d hd
    cases hd
    rfl
  rw [hchars, tokensAt_move '<' ['/'] hopen, tokensAt_name h hname, tokensAt_end]
  exact ⟨_, _, _, _, _, rfl⟩

end

variable (raw : NameSet)

/-- A start tag, and what reading its attributes gives. -/
theorem tokens_startTag {name : String} (h : IsTagName name) {as : Attributes}
    (has : ∀ a ∈ as, IsWord a.name ∧ a.name ≠ spreadMark) (offset : Nat) (r : List Char) :
    ∃ p p' body offset', tokensFrom raw .text offset ((startTag name as).toList ++ r) =
        ⟨.openAngle, p⟩ :: ⟨.ident name, p'⟩ :: (body ++
          tokensFrom raw (InTag.close raw ⟨some name, false, .outside⟩) offset' r) ∧
      ∀ stop rest, readAttrs stop (body ++ rest) = .ok (as.map readAs, false, rest) := by
  obtain ⟨tail, htail⟩ : ∃ tail, tail = (String.join (as.map attributeHtml)).toList ++ '>' :: r :=
    ⟨_, rfl⟩
  have hchars : (startTag name as).toList ++ r = '<' :: (name.toList ++ tail) := by
    rw [htail, startTag]
    simp [String.toList_append]
  have htagName : ∀ d ∈ (cut (chars tail)).1.head?, isNameChar d = false := by
    intro d hd
    rw [htail] at hd
    cases as with
    | nil =>
      cases hd
      rfl
    | cons a as =>
      rw [List.map_cons, String.join_cons, attributeHtml] at hd
      simp only [String.append_assoc, String.toList_append] at hd
      cases hd
      rfl
  obtain ⟨body, o', h', hread⟩ := tokens_attributes raw (some name) has
    (offset + byteLength ('<' :: name.toList)) r
  refine ⟨⟨0, offset⟩, ⟨0, offset + 1⟩, body, o', ?_, hread⟩
  rw [hchars, ← h', ← htail, tokensFrom_eq, tokensFrom_eq, ← tokensAt_tagName h htagName,
    ← chars_append]
  rfl

/-- A close tag in text or at the end of the raw text of its element. -/
theorem tokens_closeTag {name : String} (h : IsWord name) {m : Mode}
    (hm : m = .text ∨ m = .raw name) (offset : Nat) (r : List Char) :
    ∃ p₁ p₂ p₃ p₄ offset', tokensFrom raw m offset ((closeTag name).toList ++ r) =
      ⟨.openAngle, p₁⟩ :: ⟨.slash, p₂⟩ :: ⟨.ident name, p₃⟩ :: ⟨.closeAngle, p₄⟩ ::
        tokensFrom raw .text offset' r := by
  simp only [tokensFrom_eq, chars_append]
  exact tokensAt_closeTag h hm 0 offset

/-! ### Texts -/

/-- A cut comes where a test is passed for the first time. -/
theorem cutAt_eq {test : List Char → Bool} {body rest : List Char}
    (hgo : ∀ s, s ≠ [] → s <:+ body → test (s ++ rest) = false)
    (hstop : rest = [] ∨ test rest = true) : cutAt test (body ++ rest) = (body, rest) := by
  induction body with
  | nil =>
    cases rest with
    | nil => rfl
    | cons c cs =>
      rcases hstop with hnil | htest
      · cases hnil
      · rw [List.nil_append, cutAt, if_pos htest]
  | cons c cs ih =>
    have hc := hgo (c :: cs) (by simp) (List.suffix_refl _)
    rw [List.cons_append] at hc
    rw [List.cons_append, cutAt, if_neg (by simp [hc]),
      ih fun s hs hsuffix => hgo s hs (hsuffix.trans (List.suffix_cons _ _))]

theorem push_text {value : String} {p : Position} {ts : List Token}
    (h : ∀ t ∈ ts.head?, ∀ value, t.kind ≠ .text value) :
    Token.push ⟨.text value, p⟩ ts = ⟨.text value, p⟩ :: ts := by
  unfold Token.push
  split
  · rename_i b p' r heq
    exact absurd rfl (h ⟨.text b, p'⟩ (by simp) b)
  · rfl

theorem head?_tokens_startsTag {r : List Char} (h : StartsTag r) (offset : Nat) :
    ∀ t ∈ (tokensFrom raw .text offset r).head?, ∀ value, t.kind ≠ .text value := by
  rcases h with rfl | ⟨c, cs, rfl, hc⟩
  · simp [tokensFrom_nil]
  · obtain ⟨k, m', taken, rest, hmove, hk⟩ : ∃ k m' taken rest, Mode.text.move raw '<' (c :: cs) =
        ⟨[(0, .openAngle), (1, k)], m', taken, rest⟩ ∧ ∀ value, k ≠ .text value := by
      rcases hc with hc | rfl
      · exact ⟨_, _, _, _, moveText_alpha hc cs, by simp⟩
      · exact ⟨_, _, _, _, rfl, by simp⟩
    obtain ⟨p, p', o, h⟩ := tokensFrom_two hmove (by simp) hk offset
    simp [h]

/-- A text between tags. -/
theorem tokens_text {value : String} (hne : value ≠ "") (hplain : '<' ∉ value.toList)
    {r : List Char} (hr : StartsTag r) (offset : Nat) :
    ∃ p offset', tokensFrom raw .text offset (value.toList ++ r) =
      ⟨.text value, p⟩ :: tokensFrom raw .text offset' r := by
  obtain ⟨c, cs, hvalue⟩ := List.exists_cons_of_ne_nil fun h => hne (String.toList_eq_nil_iff.mp h)
  have hshut (d : Char) (hd : d ≠ '<') (ds : List Char) : opensMarkup (d :: ds) = false := by
    unfold opensMarkup
    split
    · rename_i heq
      exact absurd (List.cons.inj heq).1 hd
    · rename_i heq
      exact absurd (List.cons.inj heq).1 hd
    · rfl
  rw [hvalue] at hplain
  have hcut : cutAt opensMarkup (cs ++ r) = (cs, r) := by
    refine cutAt_eq (fun s hs hsuffix => ?_) ?_
    · obtain ⟨d, ds, rfl⟩ := List.exists_cons_of_ne_nil hs
      refine hshut d ?_ _
      rintro rfl
      exact hplain (List.mem_cons_of_mem _ (hsuffix.mem List.mem_cons_self))
    · rcases hr with rfl | ⟨c, cs, rfl, hc⟩
      · exact Or.inl rfl
      · exact Or.inr (opensMarkup_startsTag hc)
  have hmove : Mode.text.move raw c (cs ++ r) =
      ⟨[(0, .text value)], .text, c :: cs, r⟩ := by
    have hword : String.ofList (c :: cs) = value := by rw [← hvalue, String.ofList_toList]
    have hshutc := hshut c (fun heq => hplain (heq ▸ List.mem_cons_self)) (cs ++ r)
    rw [Mode.move]
    unfold moveText
    rw [hshutc, hcut, ← hword]
  refine ⟨⟨0, offset + 0⟩, offset + byteLength (c :: cs), ?_⟩
  rw [hvalue, List.cons_append, tokensFrom_cons, hmove]
  exact push_text (head?_tokens_startsTag raw hr _)

/-! ### Raw bodies -/

/-- A close tag of a word that begins in a text does not end behind a `<` that follows. -/
theorem close_of_append {name : String} (h : IsWord name) {w : List Char} (hw : w ≠ [])
    {r : List Char} (hclose : ('<' :: '/' :: name.toList) <+: w ++ '<' :: r) :
    ('<' :: '/' :: name.toList) <+: w := by
  obtain ⟨u, hu⟩ := hclose
  rcases List.append_eq_append_iff.mp hu with ⟨a, ha, -⟩ | ⟨a, ha, hrest⟩
  · exact ⟨a, ha.symm⟩
  · cases a with
    | nil =>
      rw [List.append_nil] at ha
      exact ha ▸ List.prefix_refl _
    | cons c a =>
      -- the text would end within the close tag, which has no second `<`
      obtain ⟨rfl, -⟩ := List.cons.inj hrest
      obtain ⟨d, ds, rfl⟩ := List.exists_cons_of_ne_nil hw
      obtain ⟨-, htail⟩ := List.cons.inj ha
      have hmem : '<' ∈ '/' :: name.toList := htail ▸ by simp
      rcases List.mem_cons.mp hmem with hno | hno
      · exact absurd hno (by decide)
      · exact absurd (h.2 _ hno) (by decide)

/-- What does not hold the beginning of a close tag does not close a raw body, not even together
    with the beginning of what follows. -/
theorem not_closesRaw {name : String} (h : IsWord name) {s : List Char} (hs : s ≠ [])
    (hbody : ¬ ('<' :: '/' :: name.toList) <:+: s) (r : List Char) :
    closesRaw name (s ++ '<' :: r) = false := by
  rw [closesRaw, Bool.and_eq_false_iff]
  left
  rw [Bool.eq_false_iff]
  intro hopens
  exact hbody (close_of_append h hs (List.isPrefixOf_iff_prefix.mp hopens)).isInfix

/-- Whether a close tag begins in a text is decided before a `<` that follows it. -/
theorem closesRaw_append {name : String} (h : IsWord name) {w : List Char} (hw : w ≠ [])
    {r : List Char} (hclose : closesRaw name (w ++ '<' :: r) = true) (r' : List Char) :
    closesRaw name (w ++ '<' :: r') = true := by
  rw [closesRaw, Bool.and_eq_true] at hclose ⊢
  obtain ⟨hopens, hend⟩ := hclose
  obtain ⟨u, rfl⟩ := close_of_append h hw (List.isPrefixOf_iff_prefix.mp hopens)
  constructor
  · rw [List.isPrefixOf_iff_prefix, List.append_assoc]
    exact List.prefix_append _ _
  · rw [List.append_assoc, List.drop_left] at hend ⊢
    cases u with
    | nil => rfl
    | cons d u => exact hend

/-- `StaysIn name value`: no close tag of `name` begins in the text `value`, if a tag stands
    behind it. -/
def StaysIn (name value : String) : Prop := PassesNowhere (closesRaw name) value.toList ['<']

/-- Which tag stands behind a text does not matter. -/
theorem staysIn_iff {name value : String} (h : IsWord name) (r : List Char) :
    StaysIn name value ↔ PassesNowhere (closesRaw name) value.toList ('<' :: r) := by
  have hany {r r' : List Char} (hopen : PassesNowhere (closesRaw name) value.toList ('<' :: r)) :
      PassesNowhere (closesRaw name) value.toList ('<' :: r') := by
    intro w hne hsuffix
    rw [Bool.eq_false_iff]
    intro hclose
    have hclose' := closesRaw_append h hne hclose r
    rw [hopen w hne hsuffix] at hclose'
    cases hclose'
  exact ⟨hany, hany⟩

theorem staysIn_of_not_infix {name value : String} (h : IsWord name)
    (hvalue : ¬ ('<' :: '/' :: name.toList) <:+: value.toList) : StaysIn name value := by
  intro w hne hsuffix
  exact not_closesRaw h hne (fun hcloses => hvalue (hcloses.trans hsuffix.isInfix)) _

/-- A text without `<` closes nothing. -/
theorem staysIn_of_not_mem {name value : String} (h : IsWord name) (hvalue : '<' ∉ value.toList) :
    StaysIn name value :=
  staysIn_of_not_infix h fun hinside => hvalue (hinside.mem List.mem_cons_self)

/-- A raw body and its close tag. -/
theorem tokens_raw {name value : String} (h : IsWord name) (hvalue : StaysIn name value)
    (offset : Nat) (r : List Char) :
    ∃ ts p₁ p₂ p₃ p₄ offset', tokensFrom raw (.raw name) offset
          (value.toList ++ (closeTag name).toList ++ r) =
        ts ++ ⟨.openAngle, p₁⟩ :: ⟨.slash, p₂⟩ :: ⟨.ident name, p₃⟩ :: ⟨.closeAngle, p₄⟩ ::
          tokensFrom raw .text offset' r ∧
      (value = "" ∧ ts = [] ∨ value ≠ "" ∧ ∃ p, ts = [⟨.text value, p⟩]) := by
  have hchars : (closeTag name).toList ++ r = '<' :: '/' :: (name.toList ++ '>' :: r) := by
    rw [closeTag]
    simp [String.toList_append]
  have hclose (offset : Nat) := tokens_closeTag raw h (Or.inr rfl : Mode.raw name = _ ∨ _) offset r
  rw [hchars] at hclose
  rw [List.append_assoc, hchars]
  rcases hlist : value.toList with _ | ⟨c, cs⟩
  · obtain ⟨p₁, p₂, p₃, p₄, o', h'⟩ := hclose offset
    exact ⟨[], p₁, p₂, p₃, p₄, o', h', Or.inl ⟨String.toList_eq_nil_iff.mp hlist, rfl⟩⟩
  · have hgo : PassesNowhere (closesRaw name) (c :: cs) ('<' :: '/' :: (name.toList ++ '>' :: r)) :=
      hlist ▸ (staysIn_iff h _).mp hvalue
    have hcut : cutAt (closesRaw name) (cs ++ '<' :: '/' :: (name.toList ++ '>' :: r)) =
        (cs, '<' :: '/' :: (name.toList ++ '>' :: r)) :=
      cutAt_eq (fun s hs hsuffix => hgo s hs (hsuffix.trans (List.suffix_cons _ _)))
        (Or.inr (closesRaw_closeTag name r))
    have hmove : (Mode.raw name).move raw c (cs ++ '<' :: '/' :: (name.toList ++ '>' :: r)) =
        ⟨[(0, .text value)], .raw name, c :: cs, '<' :: '/' :: (name.toList ++ '>' :: r)⟩ := by
      have hword : String.ofList (c :: cs) = value := by rw [← hlist, String.ofList_toList]
      have hopen := hgo (c :: cs) (by simp) (List.suffix_refl _)
      rw [List.cons_append] at hopen
      rw [Mode.move]
      unfold moveRaw
      rw [if_neg (by simp [hopen]), hcut, ← hword]
    obtain ⟨p₁, p₂, p₃, p₄, o', h'⟩ := hclose (offset + byteLength (c :: cs))
    refine ⟨[⟨.text value, ⟨0, offset + 0⟩⟩], p₁, p₂, p₃, p₄, o', ?_, Or.inr ⟨?_, _, rfl⟩⟩
    · rw [List.cons_append, tokensFrom_cons, hmove]
      simp only [List.foldr_cons, List.foldr_nil]
      rw [h', push_text (by simp)]
      rfl
    · rintro rfl
      cases hlist

end Stencil.Markup
