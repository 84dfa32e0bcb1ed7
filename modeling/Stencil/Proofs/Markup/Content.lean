/-
  Stencil/Proofs/Markup/Content.lean
  ==================================
  **What a list of tokens holds.**

  The texts and holes that a list of tokens brings into the tree are told here by
  looking at the tokens one after the other, with no more memory than the `Spot` at
  which a token stands: in content, behind a `<`, between the attributes of a tag,
  in the value of an attribute.  Two kinds of values belong to no attribute, and the
  holes in them are lost: a value in quotes that follows no name and no `=`, and the
  value behind a hole and an `=`.  A text is lost if it only lays out the source.

  Reading takes whole attributes and whole tags at once.  `kindsFrom_readAttrs`
  and the lemmas before it follow the readers token by token, and
  `Lexed.kindsFrom_eq` says that cutting the tokens into lexemes loses what is
  lost here, and nothing else.
-/
import Stencil.Proofs.Markup.Phrase

namespace Stencil.Markup

/-! ### Spots -/

/-- Where a token stands.  A value is `named` if it is that of an attribute with a
    name; `pending` tells what an `=` would begin, if it would begin a value. -/
inductive Spot where
  | content
  | tagName
  | closing
  | tag (pending : Option Bool)
  | spreading
  | awaiting (named : Bool)
  | quoted (named : Bool)
  | touching (named : Bool) (ends : Position)
deriving DecidableEq, Repr

namespace Spot

/-- The spot behind a token that stands between the attributes of a tag. -/
def among (pending : Option Bool) : TokenKind → Spot
  | .closeAngle => .content
  | .equals =>
    match pending with
    | some named => .awaiting named
    | none => .tag none
  | .quote _ => .quoted false
  | .ident name => if name = spreadMark then .spreading else .tag (some true)
  | .hole _ => .tag (some false)
  | _ => .tag none

/-- The spot behind a token at which a value without quotes stands. -/
def unquoted (named : Bool) (t : Token) : Spot :=
  match t.kind with
  | .fragment value =>
    .touching named ⟨t.pos.segment, t.pos.offset + Text.byteLength value.toList⟩
  | .hole i => .touching named ⟨i + 1, 0⟩
  | k => among none k

/-- The spot behind a token. -/
def next (s : Spot) (t : Token) : Spot :=
  match s with
  | .content => if t.kind = .openAngle then .tagName else .content
  | .tagName => if t.kind = .slash then .closing else .tag none
  | .closing => if t.kind = .closeAngle then .content else .closing
  | .tag pending => among pending t.kind
  | .spreading => .tag none
  | .awaiting named =>
    match t.kind with
    | .equals => .awaiting named
    | .quote _ => .quoted named
    | .ident _ => .tag none
    | _ => unquoted named t
  | .quoted named =>
    match t.kind with
    | .quote _ => .tag none
    | _ => .quoted named
  | .touching named ends => if t.pos = ends then unquoted named t else among none t.kind

/-- Whether a hole here is part of a value that belongs to no attribute. -/
def loses (s : Spot) (t : Token) : Bool :=
  match s with
  | .awaiting named => !named
  | .quoted named => !named
  | .touching named ends => !named && t.pos == ends
  | _ => false

end Spot

/-! ### Content -/

/-- A text that only lays out the source: blanks that touch the edge of a tag or an
    end of the literal. -/
def LaysOut (before after : Option TokenKind) (value : String) : Prop :=
  Text.allBlank value = true ∧
    ((before = none ∨ before = some .closeAngle) ∨ (after = none ∨ after = some .openAngle))

instance (before after : Option TokenKind) (value : String) :
    Decidable (LaysOut before after value) :=
  inferInstanceAs (Decidable (_ ∧ _))

/-- Whether a token brings something into the tree, given where it stands and the
    kinds of the tokens around it. -/
def Spot.carries (s : Spot) (before after : Option TokenKind) (t : Token) : Bool :=
  match t.kind with
  | .text value => !decide (LaysOut before after value)
  | .hole _ => !s.loses t
  | _ => false

/-- The tokens that bring something into the tree, among tokens that begin at the spot
    `s` and follow a token of the kind `before`. -/
def contentFrom (s : Spot) (before : Option TokenKind) : List Token → List Token
  | [] => []
  | t :: ts =>
    if s.carries before (ts.head?.map (·.kind)) t then
      t :: contentFrom (s.next t) (some t.kind) ts
    else contentFrom (s.next t) (some t.kind) ts

/-- The texts and holes of a literal that end up in its tree, in order. -/
def contentTokens (ts : List Token) : List Token := contentFrom .content none ts

theorem contentFrom_sublist (s : Spot) (before : Option TokenKind) (ts : List Token) :
    (contentFrom s before ts).Sublist ts := by
  induction ts generalizing s before with
  | nil => exact List.Sublist.slnil
  | cons t ts ih =>
    simp only [contentFrom]
    split
    · exact (ih _ _).cons_cons t
    · exact (ih _ _).cons t

theorem keepsText_eq (before after : Option TokenKind) (value : String) :
    keepsText before after value = !decide (LaysOut before after value) := by
  have edge (k : Option TokenKind) (e : TokenKind) :
      k.all (· == e) = decide (k = none ∨ k = some e) := by
    cases k with
    | none => simp
    | some k => by_cases h : k = e <;> simp [h]
  have hlays : decide (LaysOut before after value) = (Text.allBlank value &&
      (decide (before = none ∨ before = some .closeAngle) ||
        decide (after = none ∨ after = some .openAngle))) := by
    by_cases h : Text.allBlank value = true <;> simp [LaysOut, h]
  rw [keepsText, edge, edge, hlays, Bool.not_and]

/-- The kinds of the tokens that bring something into the tree. -/
def kindsFrom (s : Spot) (before : Option TokenKind) (ts : List Token) : List TokenKind :=
  (contentFrom s before ts).map (·.kind)

section Kinds

variable {s : Spot} {before : Option TokenKind} {t : Token} {ts : List Token}

theorem kindsFrom_cons : kindsFrom s before (t :: ts) =
    (if s.carries before (ts.head?.map (·.kind)) t then [t.kind] else []) ++
      kindsFrom (s.next t) (some t.kind) ts := by
  simp only [kindsFrom, contentFrom]
  split <;> simp

/-- A token that is neither a text nor a hole brings nothing. -/
theorem kindsFrom_mark (htext : ∀ value, t.kind ≠ .text value) (hhole : ∀ i, t.kind ≠ .hole i) :
    kindsFrom s before (t :: ts) = kindsFrom (s.next t) (some t.kind) ts := by
  have hcarries : s.carries before (ts.head?.map (·.kind)) t = false := by
    unfold Spot.carries
    split <;> simp_all
  rw [kindsFrom_cons, hcarries]
  rfl

theorem kindsFrom_hole {i : Nat} (h : t.kind = .hole i) : kindsFrom s before (t :: ts) =
    (if s.loses t then [] else [.hole i]) ++ kindsFrom (s.next t) (some (.hole i)) ts := by
  rw [kindsFrom_cons]
  cases hl : s.loses t <;> simp [Spot.carries, h, hl]

end Kinds

/-! ### Attribute values -/

/-- The holes of a value, as tokens bring them. -/
def holeKinds (holes : List Nat) : List TokenKind := holes.map .hole

/-- The holes among the pieces of a value. -/
def partHoles (parts : List AttrPart) : List Nat :=
  parts.filterMap fun
    | .text _ => none
    | .hole i => some i

theorem partHoles_text (value : String) (parts : List AttrPart) :
    partHoles (.text value :: parts) = partHoles parts := rfl

theorem partHoles_hole (i : Nat) (parts : List AttrPart) :
    partHoles (.hole i :: parts) = i :: partHoles parts := rfl

/-- Replacing the references of a value leaves its holes alone. -/
theorem holes_ofParts (name : String) (parts : List AttrPart) (quote : Option Quote) :
    (Attr.ofParts name parts quote).holes = partHoles parts := by
  have hmap : ∀ ps : List AttrPart,
      partHoles (ps.map fun
        | .text value => .text (decodeReferences value)
        | .hole i => .hole i) = partHoles ps := by
    intro ps
    simp only [partHoles, List.filterMap_map]
    congr 1
    funext p
    cases p <;> rfl
  unfold Attr.ofParts
  split
  · rfl
  · rfl
  · rfl
  · exact hmap parts

/-- What the value of an attribute brings: its holes, if the attribute has a name. -/
def valueKinds (named : Bool) (holes : List Nat) : List TokenKind :=
  if named then holeKinds holes else []

theorem valueKinds_cons (named : Bool) (i : Nat) (holes : List Nat) :
    valueKinds named (i :: holes) = (if named then [.hole i] else []) ++
      valueKinds named holes := by
  cases named <;> rfl

theorem kindsFrom_readQuoted {stop : Position} {q : Quote} {ts rest : List Token}
    {parts : List AttrPart} (h : readQuoted stop q ts = .ok (parts, rest)) (named : Bool)
    (before : Option TokenKind) :
    kindsFrom (.quoted named) before ts =
      valueKinds named (partHoles parts) ++ kindsFrom (.tag none) (some (.quote q)) rest := by
  induction ts generalizing parts before with
  | nil => simp [readQuoted] at h
  | cons t ts ih =>
    obtain ⟨k, pos⟩ := t
    cases k with
    | quote q' =>
      simp only [readQuoted] at h
      split at h
      · next hq =>
        injection h with h
        cases h
        subst hq
        rw [kindsFrom_mark (by simp) (by simp)]
        cases named <;> rfl
      · cases h
    | fragment value =>
      simp only [readQuoted] at h
      split at h
      · next heq =>
        injection h with h
        cases h
        rw [kindsFrom_mark (by simp) (by simp), partHoles_text]
        exact ih heq _
      · cases h
    | hole i =>
      simp only [readQuoted] at h
      split at h
      · next parts' rest' heq =>
        injection h with h
        cases h
        rw [kindsFrom_hole rfl, partHoles_hole, valueKinds_cons, List.append_assoc]
        congr 1
        · cases named <;> rfl
        · exact ih heq _
      · cases h
    | _ => simp [readQuoted] at h

/-- Where a value without quotes cannot go on, its end makes no difference. -/
theorem kindsFrom_touching_stop {named : Bool} {ends : Position} {t : Token} {ts : List Token}
    (h : t.pos ≠ ends ∨ (∀ value, t.kind ≠ .fragment value) ∧ ∀ i, t.kind ≠ .hole i)
    (before : Option TokenKind) :
    kindsFrom (.touching named ends) before (t :: ts) = kindsFrom (.tag none) before (t :: ts) := by
  have hnext : (Spot.touching named ends).next t = (Spot.tag none).next t := by
    obtain ⟨k, pos⟩ := t
    simp only [Spot.next]
    split
    · next hpos =>
      rcases h with h | ⟨hfragment, hhole⟩
      · exact absurd hpos h
      · cases k <;> simp_all [Spot.unquoted]
    · rfl
  have hcarries (after : Option TokenKind) :
      (Spot.touching named ends).carries before after t =
        (Spot.tag none).carries before after t := by
    obtain ⟨k, pos⟩ := t
    cases k with
    | hole i =>
      have hpos : pos ≠ ends := by
        rcases h with h | ⟨-, hhole⟩
        · exact h
        · exact absurd rfl (hhole i)
      simp [Spot.carries, Spot.loses, hpos]
    | _ => rfl
  rw [kindsFrom_cons, kindsFrom_cons, hnext, hcarries]

theorem kindsFrom_readTouching (named : Bool) (ends : Position) (ts : List Token)
    (before : Option TokenKind) :
    ∃ before', kindsFrom (.touching named ends) before ts =
      valueKinds named (partHoles (readTouching (some ends) ts).1) ++
        kindsFrom (.tag none) before' (readTouching (some ends) ts).2 := by
  induction ts generalizing ends before with
  | nil => exact ⟨before, by cases named <;> rfl⟩
  | cons t ts ih =>
    obtain ⟨k, pos⟩ := t
    simp only [readTouching]
    split
    · next hpos =>
      refine ⟨before, ?_⟩
      rw [kindsFrom_touching_stop (Or.inl ?_)]
      · cases named <;> rfl
      · intro h
        subst h
        simp at hpos
    · next hpos =>
      have hends : pos = ends := by
        refine Decidable.byContradiction fun hne => hpos ?_
        simpa using fun h => hne h.symm
      subst hends
      cases k with
      | fragment value =>
        obtain ⟨before', h⟩ := ih ⟨pos.segment, pos.offset + Text.byteLength value.toList⟩
          (some (.fragment value))
        refine ⟨before', ?_⟩
        rw [kindsFrom_mark (by simp) (by simp), partHoles_text]
        simpa only [Spot.next, if_true, Spot.unquoted] using h
      | hole i =>
        obtain ⟨before', h⟩ := ih ⟨i + 1, 0⟩ (some (.hole i))
        refine ⟨before', ?_⟩
        rw [kindsFrom_hole rfl, partHoles_hole, valueKinds_cons, List.append_assoc]
        congr 1
        · cases named <;> simp [Spot.loses]
        · simpa only [Spot.next, if_true, Spot.unquoted] using h
      | _ =>
        refine ⟨before, ?_⟩
        rw [kindsFrom_touching_stop (Or.inr ⟨by simp, by simp⟩)]
        cases named <;> rfl

theorem kindsFrom_readValue {stop : Position} {name : String} {ts rest : List Token} {a : Attr}
    (h : readValue stop name ts = .ok (a, rest)) (hstart : startsEquals ts = false) (named : Bool)
    (before : Option TokenKind) :
    ∃ before', kindsFrom (.awaiting named) before ts =
      valueKinds named a.holes ++ kindsFrom (.tag none) before' rest := by
  cases ts with
  | nil => simp [readValue] at h
  | cons t ts =>
    obtain ⟨k, pos⟩ := t
    cases k with
    | quote q =>
      simp only [readValue] at h
      split at h
      · next parts rest' heq =>
        injection h with h
        cases h
        refine ⟨some (.quote q), ?_⟩
        rw [kindsFrom_mark (by simp) (by simp), holes_ofParts]
        exact kindsFrom_readQuoted heq named _
      · cases h
    | ident value =>
      injection h with h
      cases h
      refine ⟨some (.ident value), ?_⟩
      rw [kindsFrom_mark (by simp) (by simp)]
      cases named <;> rfl
    | fragment value =>
      injection h with h
      cases h
      rw [holes_ofParts, kindsFrom_mark (by simp) (by simp)]
      exact kindsFrom_readTouching named _ ts _
    | hole i =>
      injection h with h
      cases h
      obtain ⟨before', h⟩ := kindsFrom_readTouching named ⟨i + 1, 0⟩ ts (some (.hole i))
      refine ⟨before', ?_⟩
      rw [holes_ofParts, kindsFrom_hole rfl, partHoles_hole, valueKinds_cons, List.append_assoc]
      congr 1
      cases named <;> rfl
    | equals => simp [startsEquals] at hstart
    | _ =>
      injection h with h
      cases h
      refine ⟨before, ?_⟩
      cases named <;> rfl

/-! ### Tags -/

/-- The `=` in front of a value make no difference. -/
theorem kindsFrom_skipEquals (named : Bool) (before : Option TokenKind) (ts : List Token) :
    ∃ before', kindsFrom (.awaiting named) before ts =
      kindsFrom (.awaiting named) before' (skipEquals ts) := by
  induction ts generalizing before with
  | nil => exact ⟨before, rfl⟩
  | cons t ts ih =>
    by_cases heq : t.kind = .equals
    · obtain ⟨before', h⟩ := ih (some t.kind)
      refine ⟨before', ?_⟩
      have hskip : skipEquals (t :: ts) = skipEquals ts := by simp [skipEquals, heq]
      rw [kindsFrom_mark (by simp [heq]) (by simp [heq]), hskip, ← h]
      simp [Spot.next, heq]
    · exact ⟨before, by simp [skipEquals, heq]⟩

theorem startsEquals_skipEquals (ts : List Token) : startsEquals (skipEquals ts) = false := by
  induction ts with
  | nil => rfl
  | cons t ts ih =>
    by_cases heq : t.kind = .equals
    · simpa [skipEquals, heq] using ih
    · simp [skipEquals, heq, startsEquals]

/-- An `=` and the value behind it. -/
theorem kindsFrom_value {stop : Position} {name : String} {ts rest : List Token} {a : Attr}
    (heq : startsEquals ts = true) (h : readValue stop name (skipEquals ts) = .ok (a, rest))
    (named : Bool) (before : Option TokenKind) :
    ∃ before', kindsFrom (.tag (some named)) before ts =
      valueKinds named a.holes ++ kindsFrom (.tag none) before' rest := by
  cases ts with
  | nil => cases heq
  | cons t ts =>
    have hkind : t.kind = .equals := by simpa [startsEquals] using heq
    obtain ⟨before₁, h₁⟩ := kindsFrom_skipEquals named (some .equals) ts
    have hskip : skipEquals (t :: ts) = skipEquals ts := by simp [skipEquals, hkind]
    rw [hskip] at h
    obtain ⟨before₂, h₂⟩ := kindsFrom_readValue h (startsEquals_skipEquals ts) named before₁
    refine ⟨before₂, ?_⟩
    rw [kindsFrom_mark (by simp [hkind]) (by simp [hkind]), hkind, ← h₂, ← h₁]
    simp [Spot.next, Spot.among, hkind]

/-- Where no `=` follows, it makes no difference what it would begin. -/
theorem kindsFrom_pending {ts : List Token} (h : startsEquals ts = false) (pending : Option Bool)
    (before : Option TokenKind) :
    kindsFrom (.tag pending) before ts = kindsFrom (.tag none) before ts := by
  cases ts with
  | nil => rfl
  | cons t ts =>
    obtain ⟨k, pos⟩ := t
    cases k with
    | equals => simp [startsEquals] at h
    | _ => rw [kindsFrom_cons, kindsFrom_cons]; rfl

theorem eq_of_more {a : Attr} {r : Except ParseError (List Attr × Bool × List Token)}
    {attrs : List Attr} {selfClosing : Bool} {rest : List Token}
    (h : readAttrs.more a r = .ok (attrs, selfClosing, rest)) :
    ∃ attrs', r = .ok (attrs', selfClosing, rest) ∧ attrs = a :: attrs' := by
  cases r with
  | error e => cases h
  | ok r =>
    injection h with h
    cases h
    exact ⟨_, rfl, rfl⟩

theorem holeKinds_cons (a : Attr) (attrs : List Attr) :
    holeKinds ((a :: attrs).flatMap Attr.holes) =
      holeKinds a.holes ++ holeKinds (attrs.flatMap Attr.holes) := by
  simp [holeKinds]

/-- The attributes of a tag bring their holes, and behind the tag content goes on.
    The induction is on the reading of the attributes; a pending `=` matters only if
    it comes at once, and then the attribute takes it. -/
theorem kindsFrom_readAttrs {stop : Position} {ts rest : List Token} {attrs : List Attr}
    {selfClosing : Bool} (h : readAttrs stop ts = .ok (attrs, selfClosing, rest))
    (before : Option TokenKind) :
    kindsFrom (.tag none) before ts =
      holeKinds (attrs.flatMap Attr.holes) ++ kindsFrom .content (some .closeAngle) rest := by
  fun_induction readAttrs stop ts generalizing attrs selfClosing before with
  | case1 => cases h
  | case2 t ts hk =>
    cases h
    rw [kindsFrom_mark (by simp [hk]) (by simp [hk]), hk]
    simp [Spot.next, Spot.among, hk, holeKinds]
  | case3 t ts hk hclose =>
    cases h
    cases ts with
    | nil => cases hclose
    | cons t' ts =>
      have hk' : t'.kind = .closeAngle := by simpa [startsClose] using hclose
      rw [kindsFrom_mark (by simp [hk]) (by simp [hk]),
        kindsFrom_mark (by simp [hk']) (by simp [hk']), hk']
      simp [Spot.next, Spot.among, hk, hk', holeKinds]
  | case4 t ts hk _ ih =>
    rw [kindsFrom_mark (by simp [hk]) (by simp [hk]), ← ih h (some t.kind)]
    simp [Spot.next, Spot.among, hk]
  | case5 t ts hk ih =>
    rw [kindsFrom_mark (by simp [hk]) (by simp [hk]), ← ih h (some t.kind)]
    simp [Spot.next, Spot.among, hk]
  | case6 t ts value hk ih =>
    rw [kindsFrom_mark (by simp [hk]) (by simp [hk]), ← ih h (some t.kind)]
    simp [Spot.next, Spot.among, hk]
  | case7 => cases h
  | case8 t ts q hk parts rest' hq _ ih =>
    rw [kindsFrom_mark (by simp [hk]) (by simp [hk]), ← ih h (some (.quote q))]
    have hnext : (Spot.tag none).next t = .quoted false := by simp [Spot.next, Spot.among, hk]
    rw [hnext]
    exact kindsFrom_readQuoted hq false _
  | case9 t i pos rest' hk ih =>
    obtain ⟨attrs', hrest, rfl⟩ := eq_of_more h
    have hnext : (Spot.tag none).next t = .spreading := by simp [Spot.next, Spot.among, hk]
    rw [kindsFrom_mark (by simp [hk]) (by simp [hk]), hnext, kindsFrom_hole rfl, holeKinds_cons,
      List.append_assoc, ← ih hrest (some (.hole i))]
    rfl
  | case10 => cases h
  | case11 => cases h
  | case12 t ts name hk hname heq a rest' hvalue _ _ ih =>
    obtain ⟨attrs', hrest, rfl⟩ := eq_of_more h
    have hnext : (Spot.tag none).next t = .tag (some true) := by
      simp [Spot.next, Spot.among, hk, hname]
    obtain ⟨before', hkinds⟩ := kindsFrom_value heq hvalue true (some t.kind)
    rw [kindsFrom_mark (by simp [hk]) (by simp [hk]), hnext, hkinds, holeKinds_cons,
      List.append_assoc, ih hrest before']
    rfl
  | case13 t ts name hk hname heq ih =>
    obtain ⟨attrs', hrest, rfl⟩ := eq_of_more h
    have hnext : (Spot.tag none).next t = .tag (some true) := by
      simp [Spot.next, Spot.among, hk, hname]
    rw [kindsFrom_mark (by simp [hk]) (by simp [hk]), hnext,
      kindsFrom_pending (Bool.eq_false_iff.2 heq), ih hrest]
    rfl
  | case14 => cases h
  | case15 t ts i hk heq a rest' hvalue _ _ ih =>
    obtain ⟨attrs', hrest, rfl⟩ := eq_of_more h
    have hnext : (Spot.tag none).next t = .tag (some false) := by simp [Spot.next, Spot.among, hk]
    obtain ⟨before', hkinds⟩ := kindsFrom_value heq hvalue false (some (.hole i))
    rw [kindsFrom_hole hk, hnext, hkinds, holeKinds_cons, List.append_assoc, ih hrest before']
    rfl
  | case16 t ts i hk heq ih =>
    obtain ⟨attrs', hrest, rfl⟩ := eq_of_more h
    have hnext : (Spot.tag none).next t = .tag (some false) := by simp [Spot.next, Spot.among, hk]
    rw [kindsFrom_hole hk, hnext, kindsFrom_pending (Bool.eq_false_iff.2 heq), ih hrest,
      holeKinds_cons, List.append_assoc]
    rfl
  | case17 => cases h
  | case18 => cases h
  | case19 => cases h

/-! ### Lexemes -/

/-- What a lexeme brings into the tree. -/
def Lexeme.kinds : Lexeme → List TokenKind
  | text value kept => if kept then [.text value] else []
  | hole i => [.hole i]
  | start _ attrs _ _ => holeKinds (attrs.flatMap Attr.holes)
  | _ => []

/-- Cutting tokens into lexemes neither loses nor moves anything that they bring. -/
theorem Lexed.kindsFrom_eq {stop : Position} {before : Option TokenKind} {ts : List Token}
    {ls : List Lexeme} (h : Lexed stop before ts ls) :
    kindsFrom .content before ts = ls.flatMap Lexeme.kinds := by
  induction h with
  | nil => rfl
  | text _ ih =>
    rw [kindsFrom_cons, List.flatMap_cons, ← ih, Lexeme.kinds, keepsText_eq]
    rfl
  | hole _ ih =>
    rw [kindsFrom_hole rfl, List.flatMap_cons, ← ih]
    rfl
  | commentHole _ ih =>
    rw [kindsFrom_mark (by simp) (by simp), List.flatMap_cons, ← ih]
    rfl
  | start scan _ ih =>
    rw [kindsFrom_mark (by simp) (by simp), kindsFrom_mark (by simp) (by simp),
      List.flatMap_cons, ← ih]
    exact kindsFrom_readAttrs scan _
  | close _ ih =>
    rw [kindsFrom_mark (by simp) (by simp), kindsFrom_mark (by simp) (by simp),
      kindsFrom_mark (by simp) (by simp), kindsFrom_mark (by simp) (by simp),
      List.flatMap_cons, ← ih]
    rfl
  | closeAny _ ih =>
    rw [kindsFrom_mark (by simp) (by simp), kindsFrom_mark (by simp) (by simp),
      kindsFrom_mark (by simp) (by simp), kindsFrom_mark (by simp) (by simp),
      List.flatMap_cons, ← ih]
    rfl

end Stencil.Markup
