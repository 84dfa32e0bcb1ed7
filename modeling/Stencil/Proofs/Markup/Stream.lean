/-
  Stencil/Proofs/Markup/Stream.lean
  =================================
  **The language of token streams.**

  The scanner knows nothing of the readers of tags, and yet it hands them only what they
  can read.  `Stream` says which tokens may follow each other: content, tags that begin with
  a name or a `/`, and in a tag values in quotes.  The tokens of every literal are such a
  stream (`stream_tokenize`).

  A reader that is given a stream either ends where the next one can begin, or the stream
  ends too early, or a `...` has no hole: it meets no token that it does not expect.  Only a
  close tag can hold more than its reader expects.  So an unexpected token that is reported
  stands in a close tag: `parse_unexpected`.
-/
import Stencil.Proofs.Markup.WellNested
import Stencil.Proofs.Markup.Layout

namespace Stencil.Markup

/-! ### Streams -/

/-- Where a token stands in a stream: in content, behind a `<`, in a tag, in a value in
    quotes. -/
inductive Scope where
  | content
  | tagStart
  | tag
  | quoted (q : Quote)
deriving DecidableEq, Repr

/-- The scope behind a token, if the token may stand here. -/
def Scope.next : Scope → TokenKind → Option Scope
  | content, .text _ => some content
  | content, .hole _ => some content
  | content, .commentHole _ => some content
  | content, .openAngle => some tagStart
  | tagStart, .ident _ => some tag
  | tagStart, .slash => some tag
  | tag, .ident _ => some tag
  | tag, .slash => some tag
  | tag, .equals => some tag
  | tag, .fragment _ => some tag
  | tag, .hole _ => some tag
  | tag, .quote q => some (quoted q)
  | tag, .closeAngle => some content
  | quoted q, .fragment _ => some (quoted q)
  | quoted q, .hole _ => some (quoted q)
  | quoted q, .quote q' => if q' = q then some tag else none
  | _, _ => none

/-- `Stream s ts`: the tokens `ts` are a stream, or what is left of one from the scope `s` on.
    It may end anywhere but between a `<` and the token behind it. -/
inductive Stream : Scope → List Token → Prop where
  | stop {s : Scope} (hs : s ≠ .tagStart) : Stream s []
  | token {s s' : Scope} {t : Token} {ts : List Token} (hs : s.next t.kind = some s')
      (rest : Stream s' ts) : Stream s (t :: ts)

/-! ### Tokens that lie over a source -/

/-- The scope of a region.  Comments are not seen in a stream. -/
def Region.scope : Region → Scope
  | content => .content
  | name => .tagStart
  | tag _ => .tag
  | quoted q => .quoted q
  | comment => .content

theorem Region.scope_after {r r' : Region} {k : TokenKind} (h : r.after k = some r') :
    r.scope.next k = some r'.scope := by
  unfold Region.after at h
  split at h
  case h_13 q q' =>
    split at h
    · next hq =>
      cases h
      exact if_pos hq
    · cases h
  all_goals (cases h <;> rfl)

theorem Region.scope_behindHole {r : Region} (hr : r ≠ .name) (i : Nat) :
    r.scope.next (r.holeKind i) = some r.behindHole.scope := by
  cases r with
  | name => exact absurd rfl hr
  | tag v => cases v <;> rfl
  | _ => rfl

theorem Passes.scope_eq {r r' : Region} {src cs : List Char} (h : Passes r src cs r') :
    r.scope = r'.scope := by
  cases h <;> rfl

theorem Laid.stream {seg o : Nat} {r : Region} {cs : List Char} {more : List (List Char)}
    {ts : List Token} (h : Laid seg r o cs more ts) : Stream r.scope ts := by
  induction h with
  | @stop _ r _ hr => exact .stop (by cases r <;> simp_all [Region.scope])
  | hole hr _ ih => exact .token (Region.scope_behindHole hr _) ih
  | mark _ _ hr _ ih => exact .token (Region.scope_after hr) ih
  | text _ _ _ ih => exact .token rfl ih
  | pass passes _ ih => rwa [passes.scope_eq]

theorem stream_tokenize (raw : NameSet) (segments : List String) :
    Stream .content (tokenize raw segments) := by
  have hlaid := laidOver_tokenize raw segments
  cases hsegments : segments.map String.toList with
  | nil =>
    rw [hsegments] at hlaid
    have hnone : tokenize raw segments = [] := hlaid
    rw [hnone]
    exact .stop (by simp)
  | cons s more =>
    rw [hsegments] at hlaid
    exact Laid.stream hlaid

namespace Stream

variable {s : Scope} {t : Token} {ts : List Token}

theorem cons_iff : Stream s (t :: ts) ↔ ∃ s', s.next t.kind = some s' ∧ Stream s' ts := by
  constructor
  · intro h
    cases h with
    | token hs rest => exact ⟨_, hs, rest⟩
  · rintro ⟨s', hs, rest⟩
    exact .token hs rest

/-- What follows a token, by the kind of the token. -/
theorem of_kind {s' : Scope} {k : TokenKind} (h : Stream s (t :: ts)) (hk : t.kind = k)
    (hs : s.next k = some s') : Stream s' ts := by
  obtain ⟨s'', hs'', rest⟩ := cons_iff.mp h
  rw [hk, hs] at hs''
  cases hs''
  exact rest

theorem not_of_kind {k : TokenKind} (h : Stream s (t :: ts)) (hk : t.kind = k)
    (hs : s.next k = none) : False := by
  obtain ⟨s', hs', -⟩ := cons_iff.mp h
  rw [hk, hs] at hs'
  cases hs'

theorem not_tagStart_nil : ¬ Stream .tagStart [] := by
  intro h
  cases h with
  | stop hs => exact hs rfl

/-- A `<` stands in content, wherever in a stream it stands. -/
theorem behind_openAngle {front : List Token} {p : Position}
    (h : Stream s (front ++ ⟨.openAngle, p⟩ :: ts)) : Stream .tagStart ts := by
  induction front generalizing s with
  | nil =>
    obtain ⟨s', hs, rest⟩ := cons_iff.mp h
    cases s with
    | content => cases hs; exact rest
    | _ => cases hs
  | cons t front ih =>
    obtain ⟨s', -, rest⟩ := cons_iff.mp h
    exact ih rest

end Stream

/-! ### Readers -/

/-- A fault that is no unexpected token. -/
def ParseFault.Tame (f : ParseFault) : Prop := ∀ k, f ≠ .unexpected k

/-- What a reader makes of a stream: a fault that is no unexpected token, or the rest of the
    stream from the scope `s` on. -/
def Leaves {α : Type} (s : Scope) : Except ParseError (α × List Token) → Prop
  | .error e => e.fault.Tame
  | .ok (_, rest) => Stream s rest

theorem leaves_readQuoted (stop : Position) {q : Quote} {ts : List Token}
    (h : Stream (.quoted q) ts) : Leaves .tag (readQuoted stop q ts) := by
  fun_induction readQuoted stop q ts with
  | case1 => exact nofun
  | case2 t ts hk => exact h.of_kind hk (if_pos rfl)
  | case3 t ts q' hk hq => exact (h.not_of_kind hk (if_neg hq)).elim
  | case4 t ts value hk parts rest hread ih =>
    have hrest := ih (h.of_kind hk rfl)
    rwa [hread] at hrest
  | case5 t ts value hk e hread ih =>
    have hrest := ih (h.of_kind hk rfl)
    rwa [hread] at hrest
  | case6 t ts i hk parts rest hread ih =>
    have hrest := ih (h.of_kind hk rfl)
    rwa [hread] at hrest
  | case7 t ts i hk e hread ih =>
    have hrest := ih (h.of_kind hk rfl)
    rwa [hread] at hrest
  | case8 t ts hquote hfragment hhole =>
    obtain ⟨s', hs, -⟩ := Stream.cons_iff.mp h
    cases hk : t.kind <;> simp_all [Scope.next]

theorem stream_readTouching {ts : List Token} (h : Stream .tag ts) (ends : Option Position) :
    Stream .tag (readTouching ends ts).2 := by
  fun_induction readTouching ends ts with
  | case1 => exact h
  | case2 => exact h
  | case3 ends t ts _ value hk next parts rest hread ih =>
    have hrest := ih (h.of_kind hk rfl)
    rwa [hread] at hrest
  | case4 ends t ts _ i hk parts rest hread ih =>
    have hrest := ih (h.of_kind hk rfl)
    rwa [hread] at hrest
  | case5 => exact h

theorem leaves_readValue (stop : Position) (name : String) {ts : List Token}
    (h : Stream .tag ts) : Leaves .tag (readValue stop name ts) := by
  fun_cases readValue stop name ts with
  | case1 => exact nofun
  | case2 t ts q hk parts rest hread =>
    have hquoted := leaves_readQuoted stop (h.of_kind hk rfl : Stream (.quoted q) ts)
    rwa [hread] at hquoted
  | case3 t ts q hk e hread =>
    have hquoted := leaves_readQuoted stop (h.of_kind hk rfl : Stream (.quoted q) ts)
    rwa [hread] at hquoted
  | case4 t ts value hk => exact h.of_kind hk rfl
  | case5 t ts i hk parts rest hread =>
    have hrest := stream_readTouching h none
    rwa [hread] at hrest
  | case6 t ts value hk parts rest hread =>
    have hrest := stream_readTouching h none
    rwa [hread] at hrest
  | case7 => exact h

theorem stream_skipEquals {ts : List Token} (h : Stream .tag ts) : Stream .tag (skipEquals ts) := by
  induction ts with
  | nil => exact h
  | cons t ts ih =>
    rw [skipEquals, List.dropWhile_cons]
    split
    · next hequals =>
      obtain ⟨s', hs, rest⟩ := Stream.cons_iff.mp h
      rw [beq_iff_eq] at hequals
      rw [hequals] at hs
      cases hs
      exact ih rest
    · exact h

/-- What the reader of attributes makes of a stream, the tag being over. -/
def LeavesTag : Except ParseError (List Attr × Bool × List Token) → Prop
  | .error e => e.fault.Tame
  | .ok (_, _, rest) => Stream .content rest

theorem LeavesTag.more {a : Attr} {r : Except ParseError (List Attr × Bool × List Token)}
    (h : LeavesTag r) : LeavesTag (readAttrs.more a r) := by
  cases r <;> exact h

theorem leavesTag_readAttrs (stop : Position) {ts : List Token} (h : Stream .tag ts) :
    LeavesTag (readAttrs stop ts) := by
  fun_induction readAttrs stop ts with
  | case1 =>
    intro k hk
    cases hk
  | case2 t ts hk => exact h.of_kind hk rfl
  | case3 t ts hk hclose =>
    have hts : Stream .tag ts := h.of_kind hk rfl
    cases ts with
    | nil => cases hclose
    | cons t' ts => exact hts.of_kind (by simpa [startsClose] using hclose) rfl
  | case4 t ts hk _ ih | case5 t ts hk ih => exact ih (h.of_kind hk rfl)
  | case6 t ts value hk ih => exact ih (h.of_kind hk rfl)
  | case7 t ts q hk e hread =>
    have hquoted := leaves_readQuoted stop (h.of_kind hk rfl : Stream (.quoted q) ts)
    rw [hread] at hquoted
    exact hquoted
  | case8 t ts q hk parts rest hread _ ih =>
    have hquoted := leaves_readQuoted stop (h.of_kind hk rfl : Stream (.quoted q) ts)
    rw [hread] at hquoted
    exact ih hquoted
  | case9 t i p rest hk ih =>
    have hhole : Stream .tag (⟨.hole i, p⟩ :: rest) := h.of_kind hk rfl
    exact (ih (hhole.of_kind rfl rfl)).more
  | case10 =>
    intro k hk
    cases hk
  | case11 t ts name hk _ _ e hread =>
    have hvalue := leaves_readValue stop name (stream_skipEquals (h.of_kind hk rfl))
    rw [hread] at hvalue
    exact hvalue
  | case12 t ts name hk _ _ a rest hread _ _ ih =>
    have hvalue := leaves_readValue stop name (stream_skipEquals (h.of_kind hk rfl))
    rw [hread] at hvalue
    exact (ih hvalue).more
  | case13 t ts name hk _ _ ih => exact (ih (h.of_kind hk rfl)).more
  | case14 t ts i hk _ e hread =>
    have hvalue := leaves_readValue stop unnamedAttr (stream_skipEquals (h.of_kind hk rfl))
    rw [hread] at hvalue
    exact hvalue
  | case15 t ts i hk _ a rest hread _ _ ih =>
    have hvalue := leaves_readValue stop unnamedAttr (stream_skipEquals (h.of_kind hk rfl))
    rw [hread] at hvalue
    exact (ih hvalue).more
  | case16 t ts i hk _ ih => exact (ih (h.of_kind hk rfl)).more
  | case17 t ts hk => exact (h.not_of_kind hk rfl).elim
  | case18 t ts value hk => exact (h.not_of_kind hk rfl).elim
  | case19 t ts i hk => exact (h.not_of_kind hk rfl).elim

/-! ### What a tag takes -/

/-- Behind the first `>`: whether the token right before it is a `/`, and what follows it.
    `slash` says whether a `/` stands before all the tokens. -/
def behindClose (slash : Bool) : List Token → Option (Bool × List Token)
  | [] => none
  | t :: ts =>
    if t.kind = .closeAngle then some (slash, ts) else behindClose (t.kind == .slash) ts

theorem behindClose_cons {slash : Bool} {t : Token} (ht : t.kind ≠ .closeAngle) (ts : List Token) :
    behindClose slash (t :: ts) = behindClose (t.kind == .slash) ts :=
  if_neg ht

theorem behindClose_plain (slash : Bool) {t : Token}
    (ht : t.kind ≠ .closeAngle ∧ t.kind ≠ .slash) (ts : List Token) :
    behindClose slash (t :: ts) = behindClose false ts := by
  rw [behindClose_cons ht.1, beq_eq_false_iff_ne.mpr ht.2]

/-- Only a `>` in front is told apart by what stands before it. -/
theorem behindClose_slash {ts : List Token} (h : startsClose ts = false) (slash : Bool) :
    behindClose slash ts = behindClose false ts := by
  cases ts with
  | nil => rfl
  | cons t ts =>
    have ht : t.kind ≠ .closeAngle := by simpa [startsClose] using h
    rw [behindClose_cons ht, behindClose_cons ht]

theorem suffix_behindClose {slash slash' : Bool} {ts rest : List Token}
    (h : behindClose slash ts = some (slash', rest)) : ∃ front, ts = front ++ rest := by
  induction ts generalizing slash with
  | nil => cases h
  | cons t ts ih =>
    by_cases ht : t.kind = .closeAngle
    · rw [behindClose, if_pos ht] at h
      cases h
      exact ⟨[t], rfl⟩
    · rw [behindClose_cons ht] at h
      obtain ⟨front, rfl⟩ := ih h
      exact ⟨t :: front, rfl⟩

theorem behindClose_readQuoted {stop : Position} {q : Quote} {ts rest : List Token}
    {parts : List AttrPart} (h : readQuoted stop q ts = .ok (parts, rest)) (slash : Bool) :
    behindClose slash ts = behindClose false rest := by
  fun_induction readQuoted stop q ts generalizing parts slash with
  | case2 t ts hk =>
    cases h
    exact behindClose_plain slash (by simp [hk]) _
  | case4 t ts value hk parts rest hread ih =>
    cases h
    rw [behindClose_plain slash (by simp [hk]), ih hread]
  | case6 t ts i hk parts rest hread ih =>
    cases h
    rw [behindClose_plain slash (by simp [hk]), ih hread]
  | _ => cases h

theorem behindClose_readTouching (ends : Option Position) (ts : List Token) :
    behindClose false (readTouching ends ts).2 = behindClose false ts := by
  fun_induction readTouching ends ts with
  | case3 ends t ts _ value hk next parts rest hread ih =>
    rw [behindClose_plain false (by simp [hk]), ← ih, hread]
  | case4 ends t ts _ i hk parts rest hread ih =>
    rw [behindClose_plain false (by simp [hk]), ← ih, hread]
  | _ => rfl

theorem behindClose_readValue {stop : Position} {name : String} {ts rest : List Token} {a : Attr}
    (h : readValue stop name ts = .ok (a, rest)) :
    behindClose false ts = behindClose false rest := by
  revert h
  fun_cases readValue stop name ts with
  | case2 t ts q hk parts rest hread =>
    intro h
    cases h
    rw [behindClose_plain false (by simp [hk]), behindClose_readQuoted hread]
  | case4 t ts value hk =>
    intro h
    cases h
    exact behindClose_plain false (by simp [hk]) _
  | case5 t ts i hk parts rest hread =>
    intro h
    cases h
    rw [← behindClose_readTouching none, hread]
  | case6 t ts value hk parts rest hread =>
    intro h
    cases h
    rw [← behindClose_readTouching none, hread]
  | case7 =>
    intro h
    cases h
    rfl
  | _ => exact nofun

theorem behindClose_skipEquals (ts : List Token) :
    behindClose false (skipEquals ts) = behindClose false ts := by
  induction ts with
  | nil => rfl
  | cons t ts ih =>
    rw [skipEquals, List.dropWhile_cons]
    split
    · next hequals =>
      have hk : t.kind = .equals := by simpa using hequals
      rw [behindClose_plain false (by simp [hk])]
      exact ih
    · rfl

/-- The reader of attributes stops behind the first `>`, and takes the tag to close itself
    if the token right before that is a `/`. -/
theorem behindClose_readAttrs {stop : Position} {ts rest : List Token} {attrs : List Attr}
    {selfClosing : Bool} (h : readAttrs stop ts = .ok (attrs, selfClosing, rest)) :
    behindClose false ts = some (selfClosing, rest) := by
  fun_induction readAttrs stop ts generalizing attrs with
  | case2 t ts hk =>
    cases h
    exact if_pos hk
  | case3 t ts hk hclose =>
    cases h
    rw [behindClose_cons (by simp [hk]), hk]
    cases ts with
    | nil => cases hclose
    | cons t' ts => exact if_pos (by simpa [startsClose] using hclose)
  | case4 t ts hk hclose ih =>
    rw [behindClose_cons (by simp [hk]), behindClose_slash (by simpa using hclose), ih h]
  | case5 t ts hk ih => rw [behindClose_plain false (by simp [hk]), ih h]
  | case6 t ts value hk ih => rw [behindClose_plain false (by simp [hk]), ih h]
  | case8 t ts q hk parts rest hread _ ih =>
    rw [behindClose_plain false (by simp [hk]), behindClose_readQuoted hread, ih h]
  | case9 t i p rest hk ih =>
    obtain ⟨attrs', hmore⟩ := exists_of_more h
    rw [behindClose_plain false (by simp [hk]), behindClose_plain false (by simp), ih hmore]
  | case12 t ts name hk _ _ a rest hread _ _ ih =>
    obtain ⟨attrs', hmore⟩ := exists_of_more h
    rw [behindClose_plain false (by simp [hk]), ← behindClose_skipEquals,
      behindClose_readValue hread, ih hmore]
  | case13 t ts name hk _ _ ih =>
    obtain ⟨attrs', hmore⟩ := exists_of_more h
    rw [behindClose_plain false (by simp [hk]), ih hmore]
  | case15 t ts i hk _ a rest hread _ _ ih =>
    obtain ⟨attrs', hmore⟩ := exists_of_more h
    rw [behindClose_plain false (by simp [hk]), ← behindClose_skipEquals,
      behindClose_readValue hread, ih hmore]
  | case16 t ts i hk _ ih =>
    obtain ⟨attrs', hmore⟩ := exists_of_more h
    rw [behindClose_plain false (by simp [hk]), ih hmore]
  | _ => cases h

theorem IsTag.suffix {stop pos : Position} {ts rest : List Token} {p : Piece}
    (h : IsTag stop pos ts p rest) : ∃ front, ts = front ++ rest := by
  cases h with
  | start scan =>
    obtain ⟨front, rfl⟩ := suffix_behindClose (behindClose_readAttrs scan)
    exact ⟨_ :: front, rfl⟩
  | close => exact ⟨[_, _, _], rfl⟩
  | closeAny => exact ⟨[_, _, _], rfl⟩

theorem IsTag.stream {stop pos : Position} {ts rest : List Token} {p : Piece}
    (h : IsTag stop pos ts p rest) (hts : Stream .tagStart ts) : Stream .content rest := by
  cases h with
  | start scan =>
    have hrest := leavesTag_readAttrs stop (hts.of_kind rfl rfl)
    rwa [scan] at hrest
  | close | closeAny =>
    have htag : Stream .tag (_ :: _) := hts.of_kind rfl rfl
    have hclose : Stream .tag (_ :: _) := htag.of_kind rfl rfl
    exact hclose.of_kind rfl rfl

/-! ### Close tags -/

/-- `BreaksClose ts k pos`: behind a `</`, the tokens `ts` are no close tag, and the token `k`
    at `pos` shows it.  It stands where a name or a `/` has to stand, or behind that where
    a `>` has to stand. -/
inductive BreaksClose : List Token → TokenKind → Position → Prop where
  | name {k : TokenKind} {pos : Position} {back : List Token} (hslash : k ≠ .slash)
      (hname : ∀ name, k ≠ .ident name) : BreaksClose (⟨k, pos⟩ :: back) k pos
  | close {t : Token} {k : TokenKind} {pos : Position} {back : List Token}
      (ht : t.kind = .slash ∨ ∃ name, t.kind = .ident name) (hk : k ≠ .closeAngle) :
      BreaksClose (t :: ⟨k, pos⟩ :: back) k pos

/-- An unexpected token that `e` reports stands in a close tag of `ts`. -/
def InClose (ts : List Token) (e : ParseError) : Prop :=
  ∀ k, e.fault = .unexpected k → ∃ front p₁ p₂ back,
    ts = front ++ ⟨.openAngle, p₁⟩ :: ⟨.slash, p₂⟩ :: back ∧ BreaksClose back k e.pos

theorem ParseFault.Tame.inClose {e : ParseError} (h : e.fault.Tame) (ts : List Token) :
    InClose ts e := by
  intro k hk
  exact absurd hk (h k)

theorem InClose.append {ts : List Token} {e : ParseError} (h : InClose ts e) (front : List Token) :
    InClose (front ++ ts) e := by
  intro k hk
  obtain ⟨front', p₁, p₂, back, rfl, hbreaks⟩ := h k hk
  exact ⟨front ++ front', p₁, p₂, back, (List.append_assoc ..).symm, hbreaks⟩

theorem breaksClose_readClose {stop pos p : Position} {ts : List Token} {k : TokenKind}
    (h : readClose stop pos ts = .error ⟨.unexpected k, p⟩) : BreaksClose ts k p := by
  rcases ts with _ | ⟨⟨k₁, p₁⟩, ts⟩
  · cases h
  -- behind a name or a `/` only a `>` is read
  have hclose {f : List Token → Piece × List Token}
      (hf : (readCloseAngle stop ts).map f = .error ⟨.unexpected k, p⟩)
      (hk₁ : k₁ = .slash ∨ ∃ name, k₁ = .ident name) : BreaksClose (⟨k₁, p₁⟩ :: ts) k p := by
    rcases ts with _ | ⟨⟨k₂, p₂⟩, ts⟩
    · cases hf
    · cases k₂ <;> cases hf <;> exact .close hk₁ nofun
  cases k₁ with
  | slash => exact hclose h (Or.inl rfl)
  | ident name => exact hclose h (Or.inr ⟨name, rfl⟩)
  | _ =>
    cases h
    exact .name nofun nofun

theorem inClose_readTag {stop pos : Position} {ts : List Token} {e : ParseError}
    (hts : Stream .tagStart ts) (h : readTag stop pos ts = .error e) :
    InClose (⟨.openAngle, pos⟩ :: ts) e := by
  rcases ts with _ | ⟨⟨k, p⟩, ts⟩
  · exact absurd hts Stream.not_tagStart_nil
  obtain ⟨s', hs, rest⟩ := Stream.cons_iff.mp hts
  cases k with
  | slash =>
    intro k hk
    obtain ⟨fault, pos'⟩ := e
    subst hk
    exact ⟨[], pos, p, ts, rfl, breaksClose_readClose h⟩
  | ident name =>
    cases hs
    have htame := leavesTag_readAttrs stop rest
    cases hread : readAttrs stop ts with
    | ok r => simp [readTag, hread, Except.map] at h
    | error e' =>
      rw [hread] at htame
      simp only [readTag, hread, Except.map, Except.error.injEq] at h
      subst h
      exact ParseFault.Tame.inClose htame _
  | _ => cases hs

/-- Reading the pieces of a stream stops at no token in content. -/
theorem inClose_readPieces {stop : Position} {before : Option TokenKind} {ts : List Token}
    {e : ParseError} (hts : Stream .content ts) (h : (readPieces stop before ts).2 = some e) :
    InClose ts e := by
  fun_induction readPieces stop before ts with
  | case1 => cases h
  | case2 before t ts value hk ps e' heq _ ih | case3 before t ts value hk ps e' heq _ ih =>
    rw [heq] at ih
    exact (ih (hts.of_kind hk rfl) h).append [t]
  | case4 before t ts i hk ps e' heq ih =>
    rw [heq] at ih
    exact (ih (hts.of_kind hk rfl) h).append [t]
  | case5 before t ts i hk ih => exact (ih (hts.of_kind hk rfl) h).append [t]
  | case6 before t ts hk e' htag =>
    cases h
    obtain ⟨k, pos⟩ := t
    subst hk
    exact inClose_readTag (hts.of_kind rfl rfl) htag
  | case7 before t ts hk p rest htag _ ps e' heq ih =>
    have hstream : Stream .tagStart ts := hts.of_kind hk rfl
    have his := isTag_of_readTag htag
    obtain ⟨front, rfl⟩ := his.suffix
    rw [heq] at ih
    exact (ih (his.stream hstream) h).append (t :: front)
  | case8 before t ts htext hhole hcomment hopen =>
    obtain ⟨s', hs, -⟩ := Stream.cons_iff.mp hts
    cases hk : t.kind <;> simp_all [Scope.next]

/-! ### Parsing -/

theorem tame_addAll {void : NameSet} {ps : List Piece} {b : Build} {e : ParseError}
    (h : b.addAll void ps = .error e) : e.fault.Tame := by
  induction ps generalizing b with
  | nil => cases h
  | cons p ps ih =>
    rw [Build.addAll] at h
    split at h
    · next hadd =>
      cases h
      cases p with
      | close name? pos =>
        intro k hk
        revert hadd
        show b.closeTag void name? pos = .error _ → _
        fun_cases Build.closeTag void b name? pos <;> intro hadd <;> cases hadd <;> cases hk
      | _ => cases hadd
    · exact ih h

/-- **Only a close tag can hold an unexpected token.**  The tokens of a literal are a stream.
    Behind each `<` stands a `/`, or a name behind which the reader of attributes meets
    nothing unexpected; and if parsing reports an unexpected token, this is a token of a
    close tag that shows that it is none. -/
theorem parse_unexpected (void raw : NameSet) (segments : List String) :
    Stream .content (tokenize raw segments) ∧
    (∀ front p back, tokenize raw segments = front ++ ⟨.openAngle, p⟩ :: back →
      (∃ p' rest, back = ⟨.slash, p'⟩ :: rest) ∨
      ∃ name p' rest, back = ⟨.ident name, p'⟩ :: rest ∧
        ∀ stop k pos, readAttrs stop rest ≠ .error ⟨.unexpected k, pos⟩) ∧
    (∀ k pos, parse void raw segments = .error ⟨.unexpected k, pos⟩ →
      ∃ front p₁ p₂ back,
        tokenize raw segments = front ++ ⟨.openAngle, p₁⟩ :: ⟨.slash, p₂⟩ :: back ∧
          BreaksClose back k pos) := by
  have hstream := stream_tokenize raw segments
  refine ⟨hstream, ?_, ?_⟩
  · intro front p back htokens
    have hback : Stream .tagStart back := Stream.behind_openAngle (htokens ▸ hstream)
    rcases back with _ | ⟨⟨k, p'⟩, rest⟩
    · exact absurd hback Stream.not_tagStart_nil
    obtain ⟨s', hs, hrest⟩ := Stream.cons_iff.mp hback
    cases k with
    | slash => exact Or.inl ⟨p', rest, rfl⟩
    | ident name =>
      cases hs
      refine Or.inr ⟨name, p', rest, rfl, fun stop k pos hread => ?_⟩
      have htame := leavesTag_readAttrs stop hrest
      rw [hread] at htame
      exact htame k rfl
    | _ => cases hs
  · intro k pos h
    have hclose : InClose (tokenize raw segments) ⟨.unexpected k, pos⟩ := by
      simp only [parse, parseTokens] at h
      split at h
      · next hadd =>
        cases h
        exact (tame_addAll hadd).inClose _
      · next hstopped =>
        cases h
        exact inClose_readPieces hstream hstopped
      · next b _ _ =>
        rw [Build.finish] at h
        split at h <;> cases h
    exact hclose k rfl

/-- In `<a></a b>` the second name is not expected. -/
theorem parse_unexpected_second_name :
    parse .empty .empty ["<a></a b>"] = .error ⟨.unexpected (.ident "b"), ⟨0, 7⟩⟩ ∧
    ∃ front p₁ p₂ back,
      tokenize .empty ["<a></a b>"] = front ++ ⟨.openAngle, p₁⟩ :: ⟨.slash, p₂⟩ :: back ∧
        BreaksClose back (.ident "b") ⟨0, 7⟩ := by
  have hparse : parse .empty .empty ["<a></a b>"] =
      .error ⟨.unexpected (.ident "b"), ⟨0, 7⟩⟩ := by decide +kernel
  exact ⟨hparse, (parse_unexpected .empty .empty ["<a></a b>"]).2.2 _ _ hparse⟩

end Stencil.Markup
