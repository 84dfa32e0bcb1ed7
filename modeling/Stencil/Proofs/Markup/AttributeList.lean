/-
  Stencil/Proofs/Markup/AttributeList.lean
  ========================================
  **Attributes survive being written and read.**

  `Written` are the attributes that an author writes in a start tag, each with its form: a
  bare name, a value in quotes, a value without quotes, and a hole with `...` in front of it
  or without.  `Written.attr` says what such an attribute is meant to be in the tree.

  Whether the pieces of a value without quotes belong together is decided by the scanner at
  the ends of the segments and by the reader from the places of the tokens;
  `readTouching_value` shows that the value is read up to its end and no further.  All
  attributes of a tag together are read back by `readAttrs_listed`, and the element around
  them by `parse_written`.
-/
import Stencil.Proofs.Markup.Scanned
import Stencil.Proofs.Markup.WellNested

namespace Stencil.Markup

open Text (byteLength)
open SourceSymbol (chars cut cut_chars)

/-! ### Written attributes -/

/-- A part of a written value. -/
inductive ValuePart where
  | text (value : String)
  | hole
deriving DecidableEq, Repr

namespace ValuePart

def symbols : ValuePart → List SourceSymbol
  | text value => chars value.toList
  | hole => [.hole]

/-- The texts of some parts. -/
def texts (parts : List ValuePart) : List String :=
  parts.filterMap fun
    | text value => some value
    | hole => none

/-- No text is empty, and none follows another. -/
def Apart : List ValuePart → Prop
  | [] => True
  | text value :: parts => value ≠ "" ∧ (∀ next ∈ parts.head?, next = hole) ∧ Apart parts
  | hole :: parts => Apart parts

instance decidableApart : (parts : List ValuePart) → Decidable (Apart parts)
  | [] => .isTrue trivial
  | text value :: parts =>
    have : Decidable (Apart parts) := decidableApart parts
    inferInstanceAs (Decidable (value ≠ "" ∧ (∀ next ∈ parts.head?, next = hole) ∧ Apart parts))
  | hole :: parts => decidableApart parts

/-- The number of holes. -/
def holes : List ValuePart → Nat
  | [] => 0
  | text _ :: parts => holes parts
  | hole :: parts => holes parts + 1

/-- What the parts of a value are meant to be, if the first hole has the number `i`: texts with
    their references replaced, and holes numbered. -/
def meant (i : Nat) : List ValuePart → List AttrPart
  | [] => []
  | text value :: parts => .text (decodeReferences value) :: meant i parts
  | hole :: parts => .hole i :: meant (i + 1) parts

end ValuePart

/-- An attribute as it is written. -/
inductive Written where
  | flag (name : String)
  | quoted (name : String) (quote : Quote) (parts : List ValuePart)
  | unquoted (name : String) (parts : List ValuePart)
  | spread
  | bareHole
deriving DecidableEq, Repr

/-- An attribute with a value of some parts. -/
def Attr.ofMeant (name : String) (quote : Option Quote) : List AttrPart → Attr
  | [] => .fixed name "" quote
  | [.text value] => .fixed name value quote
  | [.hole i] => .dynamic name i quote
  | parts => .mixed name parts quote

namespace Written

/-- What stands between the blank before an attribute and the one behind it. -/
def symbols : Written → List SourceSymbol
  | flag name => chars name.toList
  | quoted name q parts =>
    chars name.toList ++ .char '=' :: .char q.char ::
      (parts.flatMap ValuePart.symbols ++ [.char q.char])
  | unquoted name parts => chars name.toList ++ .char '=' :: parts.flatMap ValuePart.symbols
  | spread => chars spreadMark.toList ++ [.hole]
  | bareHole => [.hole]

/-- The number of holes of an attribute. -/
def holes : Written → Nat
  | flag _ => 0
  | quoted _ _ parts => ValuePart.holes parts
  | unquoted _ parts => ValuePart.holes parts
  | spread => 1
  | bareHole => 1

/-- Names are made of the characters of names, and none is the mark of a spread. -/
def IsName (name : String) : Prop := IsWord name ∧ name ≠ spreadMark

/-- A text that can stand in a value without quotes: it has neither blanks nor `>` in it, and
    does not begin with a quote. -/
def IsBare (value : String) : Prop :=
  (∀ c ∈ value.toList, Text.isTagBlank c = false ∧ c ≠ '>') ∧
    ∀ c ∈ value.toList.head?, Quote.ofChar? c = none

/-- What can be written.  A text in quotes does not have the quote in it, and a value without
    quotes is not empty. -/
def Legal : Written → Prop
  | flag name => IsName name
  | quoted name q parts =>
    IsName name ∧ ValuePart.Apart parts ∧ ∀ value ∈ ValuePart.texts parts, q.char ∉ value.toList
  | unquoted name parts =>
    IsName name ∧ ValuePart.Apart parts ∧ parts ≠ [] ∧ ∀ value ∈ ValuePart.texts parts, IsBare value
  | spread => True
  | bareHole => True

instance (name : String) : Decidable (IsName name) :=
  inferInstanceAs (Decidable (IsWord name ∧ name ≠ spreadMark))

instance (value : String) : Decidable (IsBare value) :=
  decidable_of_iff ((value.toList.all fun c => !Text.isTagBlank c && c != '>') = true ∧
      (value.toList.head?.all fun c => (Quote.ofChar? c).isNone) = true) <| by
    simp [IsBare, Option.all_eq_true]

instance : (w : Written) → Decidable w.Legal
  | flag name => inferInstanceAs (Decidable (IsName name))
  | quoted name q parts => inferInstanceAs (Decidable
      (IsName name ∧ ValuePart.Apart parts ∧
        ∀ value ∈ ValuePart.texts parts, q.char ∉ value.toList))
  | unquoted name parts => inferInstanceAs (Decidable
      (IsName name ∧ ValuePart.Apart parts ∧ parts ≠ [] ∧
        ∀ value ∈ ValuePart.texts parts, IsBare value))
  | spread => .isTrue trivial
  | bareHole => .isTrue trivial

/-- What an attribute is meant to be, if its first hole has the number `i`. -/
def attr (i : Nat) : Written → Attr
  | flag name => .flag name
  | quoted name q parts => .ofMeant name (some q) (ValuePart.meant i parts)
  | unquoted name parts => .ofMeant name none (ValuePart.meant i parts)
  | spread => .spread i
  | bareHole => .spread i

/-- What several attributes are meant to be, the holes numbered from the left. -/
def attrs (i : Nat) : List Written → List Attr
  | [] => []
  | w :: ws => w.attr i :: attrs (i + w.holes) ws

/-- Attributes with a blank before each. -/
def listed (ws : List Written) : List SourceSymbol := ws.flatMap fun w => .char ' ' :: w.symbols

/-- A start tag with a blank before its `>`. -/
def startTag (name : String) (ws : List Written) : List SourceSymbol :=
  .char '<' :: (chars name.toList ++ (listed ws ++ [.char ' ', .char '>']))

/-- An element without children. -/
def element (name : String) (ws : List Written) : List SourceSymbol :=
  startTag name ws ++ chars (Document.closeTag name).toList

end Written

/-- A literal of one element without children. -/
def Template.single (name : String) (attrs : List Attr) : Template :=
  ⟨[.element (Phrase.tagIn none (rootSlot + 1) name attrs) []],
    Phrase.slotAfter name (rootSlot + 1)⟩

section
variable {raw : NameSet} {seg o : Nat} {startName : Option String} {l : List SourceSymbol}

/-! ### Values in quotes -/

/-- The parts of a value as the reader finds them, their texts as written. -/
def ValuePart.found (i : Nat) : List ValuePart → List AttrPart
  | [] => []
  | text value :: parts => .text value :: found i parts
  | hole :: parts => .hole i :: found (i + 1) parts

/-- A part with the references of its text replaced. -/
def AttrPart.decoded : AttrPart → AttrPart
  | text value => text (decodeReferences value)
  | hole i => hole i

theorem ValuePart.map_found (i : Nat) (parts : List ValuePart) :
    (found i parts).map AttrPart.decoded = meant i parts := by
  induction parts generalizing i with
  | nil => rfl
  | cons p parts ih => cases p <;> exact congrArg _ (ih _)

theorem ofParts_found (name : String) (quote : Option Quote) (i : Nat) (parts : List ValuePart) :
    Attr.ofParts name (ValuePart.found i parts) quote =
      .ofMeant name quote (ValuePart.meant i parts) := by
  rcases parts with _ | ⟨p, _ | ⟨p', parts⟩⟩
  · rfl
  · cases p <;> rfl
  · rw [← ValuePart.map_found]
    cases p <;> cases p' <;> rfl

/-- The head of what follows a text in a value: nothing where a hole follows, and what follows
    the value where it ends. -/
theorem head_of_apart {value : String} {parts : List ValuePart} {d : Char}
    (h : ValuePart.Apart (.text value :: parts)) :
    ∀ e ∈ (cut (parts.flatMap ValuePart.symbols ++ .char d :: l)).1.head?, e = d := by
  obtain ⟨-, hnext, -⟩ := h
  cases parts with
  | nil =>
    intro e he
    cases he
    rfl
  | cons p parts =>
    cases p with
    | text next => exact nomatch hnext _ rfl
    | hole => exact nofun

/-- A value in quotes is read up to its closing quote. -/
theorem readQuoted_value (stop : Position) {q : Quote} {parts : List ValuePart}
    (hapart : ValuePart.Apart parts) (hq : ∀ value ∈ ValuePart.texts parts, q.char ∉ value.toList)
    (seg o : Nat) :
    ∃ o', readQuoted stop q (tokensAt raw seg (.value q ⟨startName, false, .outside⟩) o
        (parts.flatMap ValuePart.symbols ++ .char q.char :: l)) =
      .ok (ValuePart.found seg parts,
        tokensAt raw (seg + ValuePart.holes parts) (inside startName) o' l) := by
  induction parts generalizing seg o with
  | nil =>
    refine ⟨o + 1, ?_⟩
    rw [List.flatMap_nil, List.nil_append, tokensAt_closeQuote, readQuoted]
    exact if_pos rfl
  | cons p parts ih =>
    cases p with
    | text value =>
      obtain ⟨hne, -, hparts⟩ := id hapart
      obtain ⟨hvalue, hrest⟩ := List.forall_mem_cons.mp hq
      obtain ⟨o', h⟩ := ih hparts hrest seg (o + byteLength value.toList)
      refine ⟨o', ?_⟩
      rw [List.flatMap_cons, ValuePart.symbols, List.append_assoc,
        tokensAt_quotedText hne hvalue (head_of_apart hapart), readQuoted, h]
      rfl
    | hole =>
      obtain ⟨o', h⟩ := ih hapart hq (seg + 1) 0
      refine ⟨o', ?_⟩
      have hresume (s : List Char) :
          (Mode.value q ⟨startName, false, .outside⟩).afterHole.resume s =
            .value q ⟨startName, false, .outside⟩ := by cases s <;> rfl
      rw [List.flatMap_cons, ValuePart.symbols, List.append_assoc, List.singleton_append,
        tokensAt_hole, hresume, readQuoted]
      simp only [Mode.holeKind, h]
      rw [ValuePart.found, ValuePart.holes, Nat.add_right_comm, Nat.add_assoc]

/-! ### Values without quotes -/

/-- What the scanner has to know of a value without quotes that goes on with some parts: before
    a text that it begins, before a hole that it may touch one, at the end that it is over. -/
def Awaits (v : ValueState) : List ValuePart → Prop
  | [] => v = .outside
  | .text _ :: _ => v = .awaited
  | .hole :: _ => v ≠ .outside

theorem Written.IsBare.ends {value : String} (h : IsBare value) :
    ∀ d ∈ value.toList, (!endsUnquoted d) = true := by
  intro d hd
  obtain ⟨hblank, hclose⟩ := h.1 d hd
  simp [endsUnquoted, hblank, hclose]

theorem Written.IsBare.first {value : String} (h : IsBare value) {c : Char} {cs : List Char}
    (hvalue : value.toList = c :: cs) : Text.isTagBlank c = false ∧ refusesUnquoted c = false := by
  obtain ⟨hblank, hclose⟩ := h.1 c (hvalue ▸ List.mem_cons_self)
  have hquote : Quote.ofChar? c = none := h.2 c (by rw [hvalue]; rfl)
  refine ⟨hblank, ?_⟩
  unfold Quote.ofChar? at hquote
  split at hquote
  · cases hquote
  · cases hquote
  · next hsingle hdouble =>
    simp only [refusesUnquoted, Bool.or_eq_false_iff, beq_eq_false_iff_ne]
    exact ⟨⟨hdouble, hsingle⟩, hclose⟩

theorem exists_cons_of_apart {value : String} {parts : List ValuePart}
    (h : ValuePart.Apart (.text value :: parts)) : ∃ c cs, value.toList = c :: cs :=
  List.exists_cons_of_ne_nil (by simpa using h.1)

/-- A text of a value without quotes, up to a hole or a blank. -/
theorem tokensAt_unquotedText {value : String} (hbare : Written.IsBare value)
    {parts : List ValuePart} (hapart : ValuePart.Apart (.text value :: parts)) :
    ∃ v, Awaits v parts ∧
      tokensAt raw seg (.tag ⟨startName, false, .awaited⟩) o (chars value.toList ++
          (parts.flatMap ValuePart.symbols ++ .char ' ' :: l)) =
        ⟨.fragment value, ⟨seg, o⟩⟩ :: tokensAt raw seg (.tag ⟨startName, false, v⟩)
          (o + byteLength value.toList) (parts.flatMap ValuePart.symbols ++ .char ' ' :: l) := by
  obtain ⟨rest, hrest⟩ :
      ∃ rest, rest = (cut (parts.flatMap ValuePart.symbols ++ .char ' ' :: l)).1 := ⟨_, rfl⟩
  have hends : ∀ d ∈ rest.head?, (!endsUnquoted d) = false := by
    intro d hd
    rw [head_of_apart hapart d (hrest ▸ hd)]
    rfl
  refine ⟨if rest.isEmpty then .touching else .outside, ?_, ?_⟩
  · rw [hrest]
    cases parts with
    | nil => rfl
    | cons p parts =>
      cases p with
      | text next => exact nomatch hapart.2.1 _ rfl
      | hole => exact nofun
  · refine tokensAt_mark (by simpa using hapart.1) (fun c cs hvalue => ?_) (by simp)
    obtain ⟨hblank, hrefuses⟩ := hbare.first hvalue
    have hcs : ∀ d ∈ cs, (!endsUnquoted d) = true := fun d hd =>
      hbare.ends d (hvalue ▸ List.mem_cons_of_mem c hd)
    obtain ⟨htake, hdrop⟩ := span_append hcs hends
    rw [← hrest, Mode.move, moveTag, if_neg (by simp [hblank]), if_pos (by simp [hrefuses]),
      moveUnquoted, htake, hdrop]
    simp only [← hvalue, String.ofList_toList]

/-- A hole of a value without quotes. -/
theorem tokensAt_unquotedHole {v : ValueState} (hv : v ≠ .outside) (parts : List ValuePart)
    (hapart : ValuePart.Apart parts)
    (hbare : ∀ value ∈ ValuePart.texts parts, Written.IsBare value) :
    ∃ v', Awaits v' parts ∧
      tokensAt raw seg (.tag ⟨startName, false, v⟩) o
          (.hole :: (parts.flatMap ValuePart.symbols ++ .char ' ' :: l)) =
        ⟨.hole seg, ⟨seg, o⟩⟩ :: tokensAt raw (seg + 1) (.tag ⟨startName, false, v'⟩) 0
          (parts.flatMap ValuePart.symbols ++ .char ' ' :: l) := by
  have hafter : (Mode.tag ⟨startName, false, v⟩).afterHole =
      .tag ⟨startName, false, .touching⟩ := by
    rw [Mode.afterHole, if_neg hv]
  have htokens (s : List Char) (v' : ValueState)
      (hs : (cut (parts.flatMap ValuePart.symbols ++ .char ' ' :: l)).1 = s)
      (hresume : (Mode.tag ⟨startName, false, .touching⟩).resume s = .tag ⟨startName, false, v'⟩) :
      tokensAt raw seg (.tag ⟨startName, false, v⟩) o
          (.hole :: (parts.flatMap ValuePart.symbols ++ .char ' ' :: l)) =
        ⟨.hole seg, ⟨seg, o⟩⟩ :: tokensAt raw (seg + 1) (.tag ⟨startName, false, v'⟩) 0
          (parts.flatMap ValuePart.symbols ++ .char ' ' :: l) := by
    rw [tokensAt_hole, hafter, hs, hresume]
    rfl
  rcases parts with _ | ⟨value | _, parts⟩
  · exact ⟨.outside, rfl, htokens _ _ rfl rfl⟩
  · refine ⟨.awaited, rfl, ?_⟩
    obtain ⟨c, cs, hvalue⟩ := exists_cons_of_apart hapart
    have hcut : (cut ((ValuePart.text value :: parts).flatMap ValuePart.symbols ++
        .char ' ' :: l)).1 =
        c :: (cs ++ (cut (parts.flatMap ValuePart.symbols ++ .char ' ' :: l)).1) := by
      rw [List.flatMap_cons, ValuePart.symbols, List.append_assoc, cut_chars, hvalue]
      rfl
    refine htokens _ _ hcut ?_
    obtain ⟨hblank, hrefuses⟩ := (hbare value List.mem_cons_self).first hvalue
    have hslash : (cs ++ (cut (parts.flatMap ValuePart.symbols ++ .char ' ' :: l)).1).head? ≠
        some '>' := by
      intro hhead
      cases cs with
      | nil => cases head_of_apart hapart '>' hhead
      | cons d cs =>
        cases hhead
        have hd := (hbare value List.mem_cons_self).1 '>' (by simp [hvalue])
        exact hd.2 rfl
    generalize cs ++ (cut (parts.flatMap ValuePart.symbols ++ .char ' ' :: l)).1 = r at hslash
    rw [Mode.resume]
    simp [hblank, hrefuses, hslash]
  · exact ⟨.touching, nofun, htokens _ _ rfl rfl⟩

theorem readTouching_stop {p : Position} {ts : List Token} (h : ∀ t ∈ ts.head?, t.pos ≠ p) :
    readTouching (some p) ts = ([], ts) := by
  cases ts with
  | nil => rfl
  | cons t ts =>
    have hpos : (some p).any (· != t.pos) = true := by simpa using (h t rfl).symm
    rw [readTouching, if_pos hpos]

/-- A value without quotes is read up to the blank behind it. -/
theorem readTouching_value {parts : List ValuePart} (hapart : ValuePart.Apart parts)
    (hbare : ∀ value ∈ ValuePart.texts parts, Written.IsBare value)
    {v : ValueState} (hv : Awaits v parts) (seg o : Nat) {ends : Option Position}
    (hends : ∀ p ∈ ends, p = ⟨seg, o⟩) (hend : parts = [] → ends ≠ none) :
    ∃ o', readTouching ends (tokensAt raw seg (.tag ⟨startName, false, v⟩) o
        (parts.flatMap ValuePart.symbols ++ .char ' ' :: l)) =
      (ValuePart.found seg parts,
        tokensAt raw (seg + ValuePart.holes parts) (inside startName) o' (.char ' ' :: l)) := by
  -- the next part begins where the one before it ends, and the blank keeps what follows away
  induction parts generalizing v seg o ends with
  | nil =>
    obtain rfl : v = .outside := hv
    obtain ⟨p, rfl⟩ := Option.ne_none_iff_exists'.mp (hend rfl)
    obtain rfl := hends p rfl
    refine ⟨o, ?_⟩
    rw [List.flatMap_nil, List.nil_append]
    refine readTouching_stop ?_
    rw [← inside, tokensAt_blank]
    exact pos_ne_of_head (Nat.lt_succ_self o)
  | cons p parts ih =>
    have hnext {t : Token} (ht : t.pos = ⟨seg, o⟩) : ¬ ends.any (· != t.pos) = true := by
      rw [ht]
      cases ends with
      | none => simp
      | some p => simp [hends p rfl]
    cases p with
    | text value =>
      obtain ⟨-, -, hparts⟩ := id hapart
      obtain ⟨hvalue, hrest⟩ := List.forall_mem_cons.mp hbare
      obtain rfl : v = .awaited := hv
      obtain ⟨v', hv', htokens⟩ := tokensAt_unquotedText hvalue hapart
      have hstep {p : Position} (hp : p ∈ some (⟨seg, o + byteLength value.toList⟩ : Position)) :
          p = ⟨seg, o + byteLength value.toList⟩ := (Option.mem_some.mp hp).symm
      obtain ⟨o', h⟩ := ih hparts hrest hv' seg _ (fun _ => hstep) (fun _ => by simp)
      refine ⟨o', ?_⟩
      rw [List.flatMap_cons, ValuePart.symbols, List.append_assoc, htokens, readTouching,
        if_neg (hnext rfl)]
      simp only [h]
      rfl
    | hole =>
      obtain ⟨v', hv', htokens⟩ := tokensAt_unquotedHole hv parts hapart hbare
      have hstep {p : Position} (hp : p ∈ some (⟨seg + 1, 0⟩ : Position)) : p = ⟨seg + 1, 0⟩ :=
        (Option.mem_some.mp hp).symm
      obtain ⟨o', h⟩ := ih hapart hbare hv' (seg + 1) 0 (fun _ => hstep) (fun _ => by simp)
      refine ⟨o', ?_⟩
      rw [List.flatMap_cons, ValuePart.symbols, List.append_assoc, List.singleton_append, htokens,
        readTouching, if_neg (hnext rfl)]
      simp only [h]
      rw [ValuePart.found, ValuePart.holes, Nat.add_right_comm, Nat.add_assoc]

/-- A value without quotes begins with a token of a value. -/
theorem tokensAt_awaited {parts : List ValuePart} (hne : parts ≠ [])
    (hapart : ValuePart.Apart parts)
    (hbare : ∀ value ∈ ValuePart.texts parts, Written.IsBare value) :
    ∃ t ts, tokensAt raw seg (.tag ⟨startName, false, .awaited⟩) o
        (parts.flatMap ValuePart.symbols ++ .char ' ' :: l) = t :: ts ∧
      ((∃ value, t.kind = .fragment value) ∨ ∃ i, t.kind = .hole i) := by
  rcases parts with _ | ⟨value | _, parts⟩
  · exact absurd rfl hne
  · obtain ⟨v, -, htokens⟩ := tokensAt_unquotedText (hbare value List.mem_cons_self) hapart
    rw [List.flatMap_cons, ValuePart.symbols, List.append_assoc, htokens]
    exact ⟨_, _, rfl, Or.inl ⟨value, rfl⟩⟩
  · rw [List.flatMap_cons, ValuePart.symbols, List.append_assoc, List.singleton_append,
      tokensAt_hole]
    exact ⟨_, _, rfl, Or.inr ⟨seg, rfl⟩⟩

end

/-! ### Attributes -/

section
variable {stop p p' : Position} {name : String} {ts rest : List Token} {a : Attr} {i : Nat}

theorem readAttrs_flag (hname : name ≠ spreadMark) (hts : startsEquals ts = false) :
    readAttrs stop (⟨.ident name, p⟩ :: ts) = readAttrs.more (.flag name) (readAttrs stop ts) := by
  rw [readAttrs.eq_def]
  simp only [hname, hts, Bool.false_eq_true, if_false]

theorem readAttrs_value (hname : name ≠ spreadMark)
    (hvalue : readValue stop name (skipEquals ts) = .ok (a, rest)) :
    readAttrs stop (⟨.ident name, p⟩ :: ⟨.equals, p'⟩ :: ts) =
      readAttrs.more a (readAttrs stop rest) := by
  have hskip : readValue stop name (skipEquals (⟨.equals, p'⟩ :: ts)) = .ok (a, rest) := hvalue
  rw [readAttrs.eq_def]
  simp only [hname, startsEquals, beq_self_eq_true, if_true, if_false]
  split
  · next heq =>
    rw [hskip] at heq
    cases heq
  · next heq =>
    rw [hskip] at heq
    cases heq
    rfl

theorem readAttrs_spread : readAttrs stop (⟨.ident spreadMark, p⟩ :: ⟨.hole i, p'⟩ :: ts) =
    readAttrs.more (.spread i) (readAttrs stop ts) := by
  rw [readAttrs.eq_def]
  simp only [if_true]

theorem readAttrs_hole (hts : startsEquals ts = false) :
    readAttrs stop (⟨.hole i, p⟩ :: ts) = readAttrs.more (.spread i) (readAttrs stop ts) := by
  rw [readAttrs.eq_def]
  simp only [hts, Bool.false_eq_true, if_false]

theorem skipEquals_of_ne {t : Token} (ht : t.kind ≠ .equals) (ts : List Token) :
    skipEquals (t :: ts) = t :: ts := by
  rw [skipEquals, List.dropWhile_cons_of_neg (by simpa using ht)]

theorem readValue_quoted {q : Quote} {parts : List AttrPart}
    (h : readQuoted stop q ts = .ok (parts, rest)) :
    readValue stop name (skipEquals (⟨.quote q, p⟩ :: ts)) =
      .ok (.ofParts name parts (some q), rest) := by
  rw [skipEquals_of_ne (by simp), readValue]
  simp only [h]

theorem readValue_touching {t : Token} {parts : List AttrPart}
    (ht : (∃ value, t.kind = .fragment value) ∨ ∃ i, t.kind = .hole i)
    (h : readTouching none (t :: ts) = (parts, rest)) :
    readValue stop name (skipEquals (t :: ts)) = .ok (.ofParts name parts none, rest) := by
  obtain ⟨k, pos⟩ := t
  rcases ht with ⟨value, rfl⟩ | ⟨i, rfl⟩
  · rw [skipEquals_of_ne (by simp), readValue]
    simp only [h]
  · rw [skipEquals_of_ne (by simp), readValue]
    simp only [h]

end

section
variable {raw : NameSet} {startName : Option String} {l : List SourceSymbol}

theorem resume_inside (s : List Char) :
    (inside startName).afterHole.resume s = inside startName := by
  cases s <;> rfl

theorem isWord_spreadMark : IsWord spreadMark := by decide

/-- `ReadsBack stop ts attrs rest`: the tokens `ts` do not begin with an `=`, and the reader of
    attributes takes from them first `attrs` and then what it takes from `rest`. -/
def ReadsBack (stop : Position) (ts : List Token) (a : Attr) (rest : List Token) : Prop :=
  startsEquals ts = false ∧ readAttrs stop ts = readAttrs.more a (readAttrs stop rest)

/-- One attribute is read back, if there is a blank behind it and no `=` behind that. -/
theorem readsBack_written (stop : Position) {w : Written} (hw : w.Legal)
    (hnext : ∀ seg o, startsEquals (tokensAt raw seg (inside startName) o (.char ' ' :: l)) = false)
    (seg o : Nat) :
    ∃ o', ReadsBack stop (tokensAt raw seg (inside startName) o (w.symbols ++ .char ' ' :: l))
      (w.attr seg) (tokensAt raw (seg + w.holes) (inside startName) o' (.char ' ' :: l)) := by
  have hblank : ∀ d ∈ (cut (.char ' ' :: l)).1.head?, isNameChar d = false := by
    intro d hd
    cases hd
    rfl
  have hequals (l : List SourceSymbol) :
      ∀ d ∈ (cut (.char '=' :: l)).1.head?, isNameChar d = false := by
    intro d hd
    cases hd
    rfl
  cases w with
  | flag name =>
    refine ⟨o + byteLength name.toList, ?_⟩
    rw [Written.symbols, tokensAt_name hw.1 hblank]
    exact ⟨rfl, readAttrs_flag hw.2 (hnext _ _)⟩
  | quoted name q parts =>
    obtain ⟨hname, hapart, hq⟩ := hw
    obtain ⟨o', hread⟩ := readQuoted_value stop hapart hq seg
      (o + byteLength name.toList + 1 + 1)
    refine ⟨o', ?_⟩
    rw [Written.symbols, List.append_assoc, List.cons_append, List.cons_append, List.append_assoc,
      List.singleton_append, tokensAt_name hname.1 (hequals _), tokensAt_equals,
      tokensAt_openQuote, Written.attr, ← ofParts_found]
    exact ⟨rfl, readAttrs_value hname.2 (readValue_quoted hread)⟩
  | unquoted name parts =>
    obtain ⟨hname, hapart, hne, hbare⟩ := hw
    have hv : Awaits .awaited parts := by
      rcases parts with _ | ⟨value | _, parts⟩
      · exact absurd rfl hne
      · rfl
      · exact nofun
    obtain ⟨o', hread⟩ := readTouching_value hapart hbare hv seg
      (o + byteLength name.toList + 1) (show ∀ p ∈ none, _ from nofun)
      (fun h => absurd h hne)
    obtain ⟨t, ts, htokens, ht⟩ := tokensAt_awaited hne hapart hbare
    refine ⟨o', ?_⟩
    rw [htokens] at hread
    rw [Written.symbols, List.append_assoc, List.cons_append, tokensAt_name hname.1 (hequals _),
      tokensAt_equals, htokens, Written.attr, ← ofParts_found]
    exact ⟨rfl, readAttrs_value hname.2 (readValue_touching ht hread)⟩
  | spread =>
    have hhole : ∀ d ∈ (cut (.hole :: .char ' ' :: l)).1.head?, isNameChar d = false := nofun
    refine ⟨0, ?_⟩
    rw [Written.symbols, List.append_assoc, List.singleton_append,
      tokensAt_name isWord_spreadMark hhole, tokensAt_hole, resume_inside]
    exact ⟨rfl, readAttrs_spread⟩
  | bareHole =>
    refine ⟨0, ?_⟩
    rw [Written.symbols, List.singleton_append, tokensAt_hole, resume_inside]
    exact ⟨rfl, readAttrs_hole (hnext _ _)⟩

/-- What follows an attribute begins with a blank. -/
theorem listed_append (ws : List Written) (l : List SourceSymbol) :
    ∃ l', Written.listed ws ++ .char ' ' :: l = .char ' ' :: l' := by
  cases ws with
  | nil => exact ⟨l, rfl⟩
  | cons w ws => exact ⟨_, rfl⟩

/-- The number of holes of several attributes. -/
def Written.allHoles : List Written → Nat
  | [] => 0
  | w :: ws => w.holes + allHoles ws

variable (raw startName l) in
/-- The attributes of a tag are read back up to its `>`. -/
theorem readAttrs_listed (stop : Position) {ws : List Written} (hws : ∀ w ∈ ws, w.Legal)
    (seg o : Nat) :
    startsEquals (tokensAt raw seg (inside startName) o
        (Written.listed ws ++ .char ' ' :: .char '>' :: l)) = false ∧
      ∃ o', readAttrs stop (tokensAt raw seg (inside startName) o
          (Written.listed ws ++ .char ' ' :: .char '>' :: l)) =
        .ok (Written.attrs seg ws, false, tokensAt raw (seg + Written.allHoles ws)
          (InTag.close raw ⟨startName, false, .outside⟩) o' l) := by
  induction ws generalizing seg o with
  | nil =>
    rw [Written.listed, List.flatMap_nil, List.nil_append, tokensAt_blank, tokensAt_end]
    refine ⟨rfl, o + 1 + 1, ?_⟩
    rw [readAttrs.eq_def]
    rfl
  | cons w ws ih =>
    obtain ⟨hw, hws⟩ := List.forall_mem_cons.mp hws
    obtain ⟨l', hl'⟩ := listed_append ws (.char '>' :: l)
    have hlisted : Written.listed (w :: ws) ++ .char ' ' :: .char '>' :: l =
        .char ' ' :: (w.symbols ++ .char ' ' :: l') := by
      rw [← hl', Written.listed, List.flatMap_cons, List.append_assoc]
      rfl
    obtain ⟨o₁, hfirst, hread⟩ := readsBack_written stop hw
      (fun seg o => hl' ▸ (ih hws seg o).1) seg (o + 1)
    obtain ⟨-, o', hrest⟩ := ih hws (seg + w.holes) o₁
    have hholes : seg + Written.allHoles (w :: ws) = seg + w.holes + Written.allHoles ws :=
      (Nat.add_assoc _ _ _).symm
    rw [hlisted, tokensAt_blank, hholes]
    refine ⟨hfirst, o', ?_⟩
    rw [hread, ← hl', hrest]
    rfl

end

/-! ### Elements -/

section
variable {raw : NameSet} {name : String} {l : List SourceSymbol}

/-- The tokens of a start tag with attributes, and what reading the attributes gives. -/
theorem tokensAt_startTag (stop : Position) (h : IsTagName name) {ws : List Written}
    (hws : ∀ w ∈ ws, w.Legal) (l : List SourceSymbol) :
    ∃ body seg o, tokensAt raw 0 .text 0 (Written.startTag name ws ++ l) =
        ⟨.openAngle, ⟨0, 0⟩⟩ :: ⟨.ident name, ⟨0, 1⟩⟩ :: body ∧
      readAttrs stop body = .ok (Written.attrs 0 ws, false,
        tokensAt raw seg (InTag.close raw ⟨some name, false, .outside⟩) o l) := by
  obtain ⟨l', hl'⟩ := listed_append ws (.char '>' :: l)
  have htag : Written.startTag name ws ++ l =
      .char '<' :: (chars name.toList ++ (Written.listed ws ++ .char ' ' :: .char '>' :: l)) := by
    rw [Written.startTag, List.cons_append, List.append_assoc, List.append_assoc]
    rfl
  have hname : ∀ d ∈ (cut (Written.listed ws ++ .char ' ' :: .char '>' :: l)).1.head?,
      isNameChar d = false := by
    rw [hl']
    intro d hd
    cases hd
    rfl
  obtain ⟨-, o, hread⟩ := readAttrs_listed raw (some name) l stop hws 0
    (0 + byteLength ('<' :: name.toList))
  rw [htag, tokensAt_tagName h hname]
  exact ⟨_, _, o, rfl, hread⟩

/-- A literal that begins with a start tag has a tree if what follows the tag has lexemes that
    complete a derivation. -/
theorem parse_startTag {void : NameSet} (h : IsTagName name) {ws : List Written}
    (hws : ∀ w ∈ ws, w.Legal) {t : Template}
    (hrest : ∀ stop seg o, ∃ ls ps,
      Lexed stop (some .closeAngle)
        (tokensAt raw seg (InTag.close raw ⟨some name, false, .outside⟩) o l) ls ∧
      Derives void (.start name (Written.attrs 0 ws) false ⟨0, 0⟩ :: ls) ps ∧
      Phrase.template ps = t) :
    parse void raw (SourceSymbol.segments (Written.startTag name ws ++ l)) = .ok t := by
  rw [parse, tokenize_segments]
  generalize hts : tokensAt raw 0 .text 0 (Written.startTag name ws ++ l) = ts
  obtain ⟨body, seg, o, hbody, hread⟩ :=
    tokensAt_startTag (lastPosition ts) h hws l
  obtain ⟨ls, ps, hls, hps, rfl⟩ := hrest (lastPosition ts) seg o
  have hlexed : Lexed (lastPosition ts) none
      (⟨.openAngle, ⟨0, 0⟩⟩ :: ⟨.ident name, ⟨0, 1⟩⟩ :: body)
      (.start name (Written.attrs 0 ws) false ⟨0, 0⟩ :: ls) := .start hread hls
  rw [← hbody, hts] at hlexed
  exact parseTokens_of_derives hlexed hps

/-- **Attributes survive being written and read.**  A start tag is written with attributes of
    any forms in any order, a blank before each and a blank before its `>`.  The element that the
    literal is parsed into has these attributes in this order, with the holes numbered from the
    left, whether its close tag is written or, for an element without content, left out. -/
theorem parse_written (void raw : NameSet) (h : IsTagName name) {ws : List Written}
    (hws : ∀ w ∈ ws, w.Legal) :
    parse void raw (SourceSymbol.segments (Written.element name ws)) =
        .ok (.single name (Written.attrs 0 ws)) ∧
      (isVoid void name = true →
        parse void raw (SourceSymbol.segments (Written.startTag name ws)) =
          .ok (.single name (Written.attrs 0 ws))) := by
  constructor
  · refine parse_startTag h hws fun stop seg o => ?_
    obtain ⟨p, p₂, p₃, p₄, o', hclose⟩ := tokensAt_closeTag h.1 (InTag.close_cases raw name) seg o
    rw [← List.append_nil (chars _), hclose, tokensAt_nil]
    cases hvoid : isVoid void name with
    | false =>
      have hphrase : (Phrase.element name (Written.attrs 0 ws) ⟨0, 0⟩ [] (some name) p).WellFormed
          void := ⟨hvoid, by simp [closesName], trivial⟩
      exact ⟨_, _, .close .nil, .single hphrase, rfl⟩
    | true =>
      -- the close tag of an element without content says nothing
      have hleaf : (Phrase.leaf name (Written.attrs 0 ws) false ⟨0, 0⟩).WellFormed void := hvoid
      have hidle : (Phrase.idle name p).WellFormed void := hvoid
      exact ⟨_, _, .close .nil, (Derives.single hleaf).append (.single hidle), rfl⟩
  · intro hvoid
    rw [← List.append_nil (Written.startTag name ws)]
    refine parse_startTag h hws fun stop seg o => ?_
    have hleaf : (Phrase.leaf name (Written.attrs 0 ws) false ⟨0, 0⟩).WellFormed void := hvoid
    rw [tokensAt_nil]
    exact ⟨_, _, .nil, .single hleaf, rfl⟩

end

/-- Attributes of every form. -/
def mixedAttributes : List Written :=
  [.flag "checked", .quoted "title" .single [], .quoted "class" .double [.text "a&amp;", .hole],
    .unquoted "style" [.hole, .text "px"], .spread, .bareHole]

/-- A tag that has an attribute of every form. -/
theorem parse_written_mixed :
    IsTagName "input" ∧ (∀ w ∈ mixedAttributes, w.Legal) ∧
      SourceSymbol.segments (Written.startTag "input" mixedAttributes) =
        ["<input checked title='' class=\"a&amp;", "\" style=", "px ...", " ", " >"] ∧
      Written.attrs 0 mixedAttributes =
        [.flag "checked", .fixed "title" "" (some .single),
          .mixed "class" [.text "a&", .hole 0] (some .double),
          .mixed "style" [.hole 1, .text "px"] none, .spread 2, .spread 3] ∧
      parse .voidElements .rawTextElements
        (SourceSymbol.segments (Written.startTag "input" mixedAttributes)) =
        .ok (.single "input" (Written.attrs 0 mixedAttributes)) := by
  have hname : IsTagName "input" := by decide
  have hlegal : ∀ w ∈ mixedAttributes, w.Legal := by decide
  refine ⟨hname, hlegal, by decide +kernel, by decide +kernel, ?_⟩
  exact (parse_written .voidElements .rawTextElements hname hlegal).2 (by decide +kernel)

end Stencil.Markup
