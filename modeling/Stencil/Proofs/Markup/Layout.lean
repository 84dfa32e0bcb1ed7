/-
  Stencil/Proofs/Markup/Layout.lean
  =================================
  **Where the tokens of a literal lie.**

  A literal is covered by its tokens, and what they leave uncovered is said here by a
  relation of its own, without the scanner: `Laid` goes over the source from left to right
  and puts down one token after the other, each over the characters it is written with.
  Between tokens it may only leave out comments and, inside a tag but in no value, the
  characters that are passed over.

  `Scan.laid` shows that the scanner puts its tokens down in this way.  From `Laid` follow
  that tokens stand in order and apart from each other (`Laid.spans`) and that every hole
  stands once, at the end of its segment (`Laid.holePlaces`).  All is put together in
  `tokenize_laid`.
-/
import Stencil.Proofs.Markup.Emission

namespace Stencil.Markup

open Text (byteLength)

/-! ### Regions -/

/-- What the source is at a place: content, the name behind a `<`, the inside of a tag, a
    value in quotes, a comment.  Inside a tag a value without quotes may be awaited, or
    there may be one that ends here or goes on. -/
inductive Region where
  | content
  | name
  | tag (v : ValueState)
  | quoted (q : Quote)
  | comment
deriving DecidableEq, Repr

namespace Region

/-- The region behind a token that is written to the letter, if the token may stand here. -/
def after : Region → TokenKind → Option Region
  | content, .openAngle => some name
  | name, .ident _ => some (tag .outside)
  | name, .slash => some (tag .outside)
  | tag .outside, .ident _ => some (tag .outside)
  | tag .outside, .slash => some (tag .outside)
  | tag .outside, .equals => some (tag .awaited)
  | tag .outside, .quote q => some (quoted q)
  | tag .outside, .closeAngle => some content
  | tag .awaited, .fragment _ => some (tag .touching)
  | tag .awaited, .quote q => some (quoted q)
  | tag .awaited, .closeAngle => some content
  | quoted q, .fragment _ => some (quoted q)
  | quoted q, .quote q' => if q' = q then some (tag .outside) else none
  | _, _ => none

/-- The region behind a hole: a value that is awaited has begun, and may go on. -/
def behindHole : Region → Region
  | tag .outside => tag .outside
  | tag _ => tag .touching
  | r => r

/-- The token of a hole. -/
def holeKind (r : Region) (i : Nat) : TokenKind :=
  if r = comment then .commentHole i else .hole i

end Region

/-! ### Written tokens -/

/-- The characters of a token that is written to the letter. -/
def TokenKind.written : TokenKind → Option (List Char)
  | .openAngle => some ['<']
  | .closeAngle => some ['>']
  | .slash => some ['/']
  | .equals => some ['=']
  | .ident name => some name.toList
  | .fragment value => some value.toList
  | .quote q => some [q.char]
  | _ => none

/-- A comment behind its `<!--`: it ends with the first `-->`. -/
inductive CommentTail : List Char → Prop where
  | stop : CommentTail ['-', '-', '>']
  | within {c : Char} {cs : List Char} (hc : endsComment (c :: cs) = false)
      (rest : CommentTail cs) : CommentTail (c :: cs)

/-- A whole comment. -/
def IsComment (cs : List Char) : Prop :=
  ∃ tail, cs = '<' :: '!' :: '-' :: '-' :: tail ∧ CommentTail tail

/-- `CutOut w value`: what is left of the source `w` without the comments cut out of it. -/
inductive CutOut : List Char → List Char → Prop where
  | plain (value : List Char) : CutOut value value
  | comment {front c w value : List Char} (hc : IsComment c) (rest : CutOut w value) :
      CutOut (front ++ (c ++ w)) (front ++ value)

theorem CutOut.append {w value : List Char} (h : CutOut w value) (front : List Char) :
    CutOut (front ++ w) (front ++ value) := by
  cases h with
  | plain => exact .plain _
  | @comment front' c w value hc rest =>
    rw [← List.append_assoc front front', ← List.append_assoc front front']
    exact .comment hc rest

/-- Whether a value without quotes that may go on ends instead: with a blank, a quote, `>`
    or `/>`. -/
def endsValue : List Char → Bool
  | c :: r => Text.isTagBlank c || refusesUnquoted c || (c == '/' && r.head? == some '>')
  | [] => false

/-! ### Laying tokens -/

/-- `Passes r w cs r'`: in the region `r` the source `w`, with `cs` behind it, is left out,
    and behind it the region is `r'`.  Where a value without quotes may go on, it is decided
    whether it does. -/
inductive Passes : Region → List Char → List Char → Region → Prop where
  | passedOver {c : Char} {cs : List Char} (hc : isPassedOver c = true) :
      Passes (.tag .outside) [c] cs (.tag .outside)
  | blank {c : Char} {cs : List Char} (hc : Text.isTagBlank c = true) :
      Passes (.tag .awaited) [c] cs (.tag .awaited)
  | valueEnds {cs : List Char} (hcs : endsValue cs = true) :
      Passes (.tag .touching) [] cs (.tag .outside)
  | valueGoesOn {cs : List Char} (hcs : endsValue cs = false) :
      Passes (.tag .touching) [] cs (.tag .awaited)
  | commentOpens {cs : List Char} : Passes .content ['<', '!', '-', '-'] cs .comment
  | commentGoesOn {c : Char} {cs : List Char} (hc : endsComment (c :: cs) = false) :
      Passes .comment [c] cs .comment
  | commentCloses {cs : List Char} : Passes .comment ['-', '-', '>'] cs .content

/-- `Laid seg r offset cs more ts`: the tokens `ts` lie over the source from byte `offset` of
    segment `seg` on, of which `cs` is left, to the end of the segments `more`, if the source
    is of the region `r` there. -/
inductive Laid : Nat → Region → Nat → List Char → List (List Char) → List Token → Prop where
  | stop {seg : Nat} {r : Region} {o : Nat} (hr : r ≠ .name) : Laid seg r o [] [] []
  | hole {seg : Nat} {r : Region} {o : Nat} {s : List Char} {more : List (List Char)}
      {ts : List Token} (hr : r ≠ .name) (rest : Laid (seg + 1) r.behindHole 0 s more ts) :
      Laid seg r o [] (s :: more) (⟨r.holeKind seg, ⟨seg, o⟩⟩ :: ts)
  | mark {seg : Nat} {r r' : Region} {o : Nat} {k : TokenKind} {w cs : List Char}
      {more : List (List Char)} {ts : List Token} (hk : k.written = some w) (hne : w ≠ [])
      (hr : r.after k = some r') (rest : Laid seg r' (o + byteLength w) cs more ts) :
      Laid seg r o (w ++ cs) more (⟨k, ⟨seg, o⟩⟩ :: ts)
  | text {seg : Nat} {o : Nat} {body w kept cs : List Char} {more : List (List Char)}
      {ts : List Token} (hne : body ≠ []) (hcut : CutOut w kept)
      (rest : Laid seg .content (o + byteLength (body ++ w)) cs more ts) :
      Laid seg .content o (body ++ w ++ cs) more
        (⟨.text (String.ofList (body ++ kept)), ⟨seg, o⟩⟩ :: ts)
  | pass {seg : Nat} {r r' : Region} {o : Nat} {w cs : List Char} {more : List (List Char)}
      {ts : List Token} (passes : Passes r w cs r')
      (rest : Laid seg r' (o + byteLength w) cs more ts) : Laid seg r o (w ++ cs) more ts

/-- The tokens `ts` lie over the segments of a literal, which begins with content. -/
def LaidOver (segments : List (List Char)) (ts : List Token) : Prop :=
  match segments with
  | [] => ts = []
  | s :: more => Laid 0 .content 0 s more ts

/-! ### The scanner lays its tokens -/

theorem endsComment_append {cs : List Char} (h : endsComment cs = true) (r : List Char) :
    endsComment (cs ++ r) = true := by
  obtain ⟨r', rfl⟩ := endsComment_cases h
  rfl

/-- The source under a text in front: what the text is without comments, and the rest. -/
def Absorbs (seg o : Nat) (cs : List Char) (more : List (List Char)) (value : String)
    (ts : List Token) : Prop :=
  ∃ w cs' kept, cs = w ++ cs' ∧ CutOut w kept ∧ value = String.ofList kept ∧
    Laid seg .content (o + byteLength w) cs' more ts

/-- A text comes first only in content, or behind a comment that is over. -/
theorem Laid.text_first {seg o : Nat} {r : Region} {cs : List Char} {more : List (List Char)}
    {ts : List Token} (h : Laid seg r o cs more ts) {value : String} {p : Position}
    {ts' : List Token} (hts : ts = ⟨.text value, p⟩ :: ts') :
    (r = .content ∧ Absorbs seg o cs more value ts') ∨
      (r = .comment ∧ ∃ tail cs', cs = tail ++ cs' ∧ CommentTail tail ∧
        Absorbs seg (o + byteLength tail) cs' more value ts') := by
  induction h with
  | stop => cases hts
  | @hole seg r =>
    obtain ⟨hkind, -⟩ := Token.mk.inj (List.cons.inj hts).1
    unfold Region.holeKind at hkind
    split at hkind <;> cases hkind
  | mark hk =>
    obtain ⟨rfl, -⟩ := Token.mk.inj (List.cons.inj hts).1
    cases hk
  | @text _ _ body w kept cs _ _ _ hcut rest =>
    obtain ⟨heq, rfl⟩ := List.cons.inj hts
    obtain ⟨hkind, -⟩ := Token.mk.inj heq
    injection hkind with hvalue
    exact Or.inl ⟨rfl, body ++ w, cs, body ++ kept, rfl, hcut.append body, hvalue.symm, rest⟩
  | @pass _ _ _ _ _ cs _ _ passes _ ih =>
    rcases ih hts with ⟨rfl, habsorbs⟩ | ⟨rfl, tail, cs', rfl, htail, habsorbs⟩
    · cases passes
      exact Or.inr ⟨rfl, ['-', '-', '>'], cs, rfl, .stop, habsorbs⟩
    · cases passes with
      | commentOpens =>
        obtain ⟨w, cs, kept, rfl, hcut, hvalue, hlaid⟩ := habsorbs
        refine Or.inl ⟨rfl, '<' :: '!' :: '-' :: '-' :: tail ++ w, cs, kept, by simp,
          @CutOut.comment [] _ _ _ ⟨tail, rfl, htail⟩ hcut, hvalue, ?_⟩
        simpa [Nat.add_assoc] using hlaid
      | @commentGoesOn c _ hc =>
        have hnot : endsComment (c :: tail) = false := by
          rw [Bool.eq_false_iff]
          intro hends
          have hlonger := endsComment_append hends cs'
          rw [List.cons_append, hc] at hlonger
          cases hlonger
        refine Or.inr ⟨rfl, c :: tail, cs', rfl, .within hnot htail, ?_⟩
        simpa [Nat.add_assoc] using habsorbs

/-- A text in front of others, with which it may become one. -/
theorem Laid.push_text {seg o : Nat} {body cs : List Char} {more : List (List Char)}
    {ts : List Token} (hne : body ≠ [])
    (h : Laid seg .content (o + byteLength body) cs more ts) :
    Laid seg .content o (body ++ cs) more
      (Token.push ⟨.text (String.ofList body), ⟨seg, o⟩⟩ ts) := by
  unfold Token.push
  split
  · next value p ts' hkind =>
    injection hkind with hbody
    rcases h.text_first rfl with ⟨-, w, cs', kept, rfl, hcut, rfl, hlaid⟩ | ⟨hno, -⟩
    · rw [← hbody, ← String.ofList_append, ← List.append_assoc]
      refine .text hne hcut ?_
      rwa [Text.byteLength_append, ← Nat.add_assoc]
    · cases hno
  · rw [← List.append_nil body] at h
    have htext := Laid.text hne (.plain []) h
    rwa [List.append_nil] at htext

/-- The region in which a mode reads. -/
def Mode.region : Mode → Region
  | .text => .content
  | .tag t => .tag t.value
  | .value q _ => .quoted q
  | .raw _ => .content
  | .comment => .comment

/-- A mode of the run.  Only at the end of a segment it is open whether a value goes on, and
    a value in quotes is followed by none without. -/
def Mode.Settled (m : Mode) (cs : List Char) : Prop :=
  match m with
  | .tag t => t.value = .touching → cs = []
  | .value _ t => t.value = .outside
  | _ => True

theorem Mode.region_ne_name (m : Mode) : m.region ≠ .name := by
  cases m <;> simp [Mode.region]

theorem Mode.holeKind_region (m : Mode) (i : Nat) : m.region.holeKind i = m.holeKind i := by
  cases m <;> simp [Mode.region, Region.holeKind, Mode.holeKind]

/-- Whether a value goes on behind a hole is decided by how the next segment begins. -/
theorem Mode.resume_tag (t : InTag) (c : Char) (r : List Char) :
    (Mode.tag t).resume (c :: r) =
      if t.value = .touching then
        .tag { t with value := if endsValue (c :: r) then .outside else .awaited }
      else .tag t := by
  have hgoesOn : (!Text.isTagBlank c && !refusesUnquoted c && !(c == '/' && r.head? == some '>')) =
      !endsValue (c :: r) := by
    rw [endsValue, Bool.not_or, Bool.not_or]
  rw [Mode.resume]
  simp only [hgoesOn]
  cases endsValue (c :: r) <;> rfl

theorem Mode.settled_resume {m : Mode} {cs : List Char} (hm : m.Settled cs) (s : List Char) :
    (m.afterHole.resume s).Settled s := by
  cases m with
  | tag t =>
    obtain ⟨startName, selfClosing, v⟩ := t
    cases s with
    | nil => exact fun _ => rfl
    | cons c r =>
      rw [Mode.afterHole, Mode.resume_tag]
      cases v <;> cases endsValue (c :: r) <;> exact nofun
  | value q t => cases s <;> exact hm
  | _ => cases s <;> trivial

theorem Laid.of_resume {seg : Nat} (m : Mode) {s : List Char} {more : List (List Char)}
    {ts : List Token} (h : Laid seg (m.afterHole.resume s).region 0 s more ts) :
    Laid seg m.region.behindHole 0 s more ts := by
  cases m with
  | tag t =>
    obtain ⟨startName, selfClosing, v⟩ := t
    cases v with
    | outside => cases s <;> exact h
    | _ =>
      cases s with
      | nil => exact h
      | cons c r =>
        rw [Mode.afterHole, Mode.resume_tag] at h
        cases hends : endsValue (c :: r) with
        | true =>
          rw [hends] at h
          exact .pass (w := []) (.valueEnds hends) h
        | false =>
          rw [hends] at h
          exact .pass (w := []) (.valueGoesOn hends) h
  | _ => cases s <;> exact h

section

variable {seg o : Nat} {cs : List Char} {more : List (List Char)} {ts : List Token}

/-- A `<` and the token behind it. -/
theorem Laid.open_tag {k : TokenKind} {w : List Char} (hk : k.written = some w)
    (hne : w ≠ []) (hr : Region.after .name k = some (.tag .outside))
    (h : Laid seg (.tag .outside) (o + byteLength ('<' :: w)) cs more ts) :
    Laid seg .content o ('<' :: (w ++ cs)) more
      (⟨.openAngle, ⟨seg, o⟩⟩ :: ⟨k, ⟨seg, o + 1⟩⟩ :: ts) := by
  have hbytes : o + byteLength ('<' :: w) = o + 1 + byteLength w := by
    rw [Text.byteLength_cons, Nat.add_assoc]
    rfl
  rw [hbytes] at h
  exact .mark (w := ['<']) rfl (by simp) rfl (.mark hk hne hr h)

/-- A token between the attributes of a tag. -/
theorem Laid.among {t : InTag} {k : TokenKind} {v : ValueState} {w : List Char}
    (hk : k.written = some w) (hne : w ≠ []) (ht : t.value ≠ .awaited)
    (hsettled : (Mode.tag t).Settled (w ++ cs))
    (hr : Region.after (.tag .outside) k = some (.tag v))
    (h : Laid seg (.tag v) (o + byteLength w) cs more ts) :
    Laid seg (Mode.tag t).region o (w ++ cs) more (⟨k, ⟨seg, o⟩⟩ :: ts) := by
  obtain ⟨startName, selfClosing, v'⟩ := t
  cases v' with
  | outside => exact .mark hk hne hr h
  | awaited => exact absurd rfl ht
  | touching => exact absurd (hsettled rfl) (by simp [hne])

/-- A token that ends a tag, or begins a value in quotes, also where a value is awaited. -/
theorem Laid.leave {t : InTag} {k : TokenKind} {r : Region} {c : Char}
    (hk : k.written = some [c]) (hsettled : (Mode.tag t).Settled (c :: cs))
    (hr : Region.after (.tag .outside) k = some r) (hr' : Region.after (.tag .awaited) k = some r)
    (h : Laid seg r (o + byteLength [c]) cs more ts) :
    Laid seg (Mode.tag t).region o (c :: cs) more (⟨k, ⟨seg, o⟩⟩ :: ts) := by
  obtain ⟨startName, selfClosing, v⟩ := t
  cases v with
  | outside => exact .mark (w := [c]) hk (by simp) hr h
  | awaited => exact .mark (w := [c]) hk (by simp) hr' h
  | touching => cases hsettled rfl

end

theorem laid_comment {seg o : Nat} {body r : List Char} {more : List (List Char)}
    {ts : List Token} (hplain : PassesNowhere endsComment body r)
    (h : Laid seg .comment (o + byteLength body) r more ts) :
    Laid seg .comment o (body ++ r) more ts := by
  induction body generalizing o with
  | nil => exact h
  | cons c body ih =>
    refine .pass (w := [c]) (.commentGoesOn (hplain (c :: body) (by simp) (List.suffix_refl _)))
      (ih ?_ ?_)
    · intro w hne hw
      exact hplain w hne (hw.trans (List.suffix_cons c body))
    · rwa [Text.byteLength_cons, Text.byteLength_nil, Nat.add_zero, Nat.add_assoc]

/-- The scanner lays its tokens over the source. -/
theorem Scan.laid {raw : NameSet} {seg : Nat} {m : Mode} {o : Nat} {cs : List Char}
    {more : List (List Char)} {es : List Emission} (h : Scan raw seg m o cs more es)
    (hm : m.Settled cs) : Laid seg m.region o cs more (joined es) := by
  induction h with
  | @stop _ m => exact .stop m.region_ne_name
  | @hole seg m _ s _ _ _ ih =>
    rw [joined_cons, push_eq (m.holeKind_ne_text seg), ← m.holeKind_region]
    exact .hole m.region_ne_name (.of_resume m (ih (Mode.settled_resume hm s)))
  | move moves _ ih =>
    rw [joined_emissions]
    cases moves with
    | openComment => exact .pass (w := ['<', '!', '-', '-']) .commentOpens (ih trivial)
    | openClose => exact .open_tag (w := ['/']) rfl (by simp) rfl (ih nofun)
    | openStart hne =>
      exact .open_tag (by rw [TokenKind.written, String.toList_ofList]) hne rfl (ih nofun)
    | text hne => exact .push_text hne (ih trivial)
    | @blank t c r hc =>
      have hrest := ih fun hv => by cases hm hv
      obtain ⟨startName, selfClosing, v⟩ := t
      cases v with
      | outside => exact .pass (w := [c]) (.passedOver (isPassedOver_of_isTagBlank hc)) hrest
      | awaited => exact .pass (w := [c]) (.blank hc) hrest
      | touching => cases hm rfl
    | @unquoted t value r ht hne hends =>
      obtain ⟨startName, selfClosing, v⟩ := t
      obtain rfl : v = .awaited := ht
      refine .mark (by rw [TokenKind.written, String.toList_ofList]) hne rfl ?_
      cases r with
      | nil => exact ih fun _ => rfl
      | cons d r =>
        have hd : endsValue (d :: r) = true := by
          have hd := hends d rfl
          rw [endsUnquoted, Bool.or_eq_true, beq_iff_eq] at hd
          rcases hd with hd | rfl
          · simp [endsValue, hd]
          · rfl
        exact .pass (w := []) (.valueEnds hd) (ih nofun)
    | @closeTag t r =>
      refine .leave rfl hm rfl rfl ?_
      have hclose : (t.close raw).region = .content ∧ (t.close raw).Settled r := by
        unfold InTag.close
        split
        · split <;> exact ⟨rfl, trivial⟩
        · exact ⟨rfl, trivial⟩
      rw [hclose.1] at ih
      exact ih hclose.2
    | openQuote => exact .leave rfl hm rfl rfl (ih rfl)
    | equals ht => exact .among (w := ['=']) rfl (by simp) ht hm rfl (ih nofun)
    | slash ht => exact .among (w := ['/']) rfl (by simp) ht hm rfl (ih nofun)
    | ident ht hne _ _ =>
      exact .among (by rw [TokenKind.written, String.toList_ofList]) hne ht hm rfl (ih nofun)
    | @passOver t c r ht hc =>
      obtain ⟨startName, selfClosing, v⟩ := t
      cases v with
      | outside => exact .pass (w := [c]) (.passedOver hc) (ih nofun)
      | awaited => exact absurd rfl ht
      | touching => cases hm rfl
    | @closeQuote q t r =>
      have htag : (Mode.tag t).region = .tag .outside := congrArg Region.tag hm
      have hrest := ih fun hv => by rw [hm] at hv; cases hv
      rw [htag] at hrest
      exact .mark (w := [q.char]) rfl (by simp) (if_pos rfl) hrest
    | quoted hne =>
      exact .mark (by rw [TokenKind.written, String.toList_ofList]) hne rfl (ih hm)
    | closeRaw => exact .open_tag (w := ['/']) rfl (by simp) rfl (ih nofun)
    | rawText hne => exact .push_text hne (ih trivial)
    | closeComment => exact .pass (w := ['-', '-', '>']) .commentCloses (ih trivial)
    | comment _ hplain => exact laid_comment hplain (ih trivial)

/-! ### Spans -/

/-- `k.Covers w back`: a token of the kind `k` covers `w`, with `back` behind it in its
    segment.  A text is what it covers without comments, and begins with the first character
    of it; a hole covers nothing and stands at the end. -/
def TokenKind.Covers (k : TokenKind) (w back : List Char) : Prop :=
  match k with
  | .text value =>
    ∃ body rest kept, w = body ++ rest ∧ body ≠ [] ∧ CutOut rest kept ∧
      value = String.ofList (body ++ kept)
  | .hole _ => w = [] ∧ back = []
  | .commentHole _ => w = [] ∧ back = []
  | k => k.written = some w ∧ w ≠ []

/-- A token and the characters that it covers. -/
structure Span where
  token : Token
  source : List Char

/-- The token of a span stands in a segment, in front of what it covers and behind as many
    bytes as its place says. -/
def Span.Located (segments : List (List Char)) (s : Span) : Prop :=
  ∃ front back, segments[s.token.pos.segment]? = some (front ++ (s.source ++ back)) ∧
    byteLength front = s.token.pos.offset ∧ s.token.kind.Covers s.source back

/-- `a` comes before `b`, and is over where `b` begins. -/
def Span.Apart (a b : Span) : Prop :=
  a.token.pos.Before b.token.pos ∧
    (a.token.pos.segment = b.token.pos.segment →
      a.token.pos.offset + byteLength a.source ≤ b.token.pos.offset)

/-- `Spans segments seg o ts spans`: the spans are those of the tokens `ts`, which stand from
    byte `o` of segment `seg` on. -/
structure Spans (segments : List (List Char)) (seg o : Nat) (ts : List Token)
    (spans : List Span) : Prop where
  tokens : spans.map Span.token = ts
  located : ∀ s ∈ spans, s.Located segments
  behind : ∀ s ∈ spans, seg < s.token.pos.segment ∨
    seg = s.token.pos.segment ∧ o ≤ s.token.pos.offset
  apart : spans.Pairwise Span.Apart

namespace Spans

variable {segments : List (List Char)} {seg o o' : Nat} {ts : List Token} {spans : List Span}

theorem nil : Spans segments seg o [] [] := ⟨rfl, by simp, by simp, .nil⟩

/-- Characters that no token covers make no difference. -/
theorem earlier (h : Spans segments seg o' ts spans) (hle : o ≤ o') :
    Spans segments seg o ts spans := by
  refine ⟨h.tokens, h.located, ?_, h.apart⟩
  intro s hs
  rcases h.behind s hs with hseg | ⟨hseg, ho⟩
  · exact Or.inl hseg
  · exact Or.inr ⟨hseg, Nat.le_trans hle ho⟩

/-- One more token in front, over the characters `w`. -/
theorem cons {k : TokenKind} {w : List Char}
    (h : Spans segments seg (o + byteLength w) ts spans) (hne : w ≠ [])
    (hlocated : Span.Located segments ⟨⟨k, ⟨seg, o⟩⟩, w⟩) :
    Spans segments seg o (⟨k, ⟨seg, o⟩⟩ :: ts) (⟨⟨k, ⟨seg, o⟩⟩, w⟩ :: spans) := by
  have hpos : 0 < byteLength w := by
    obtain ⟨c, cs, rfl⟩ := List.exists_cons_of_ne_nil hne
    have := c.utf8Size_pos
    rw [Text.byteLength_cons]
    omega
  have hearlier := h.earlier (Nat.le_add_right o (byteLength w))
  constructor
  · rw [List.map_cons, h.tokens]
  · exact List.forall_mem_cons.mpr ⟨hlocated, h.located⟩
  · exact List.forall_mem_cons.mpr ⟨Or.inr ⟨rfl, Nat.le_refl o⟩, hearlier.behind⟩
  · refine List.pairwise_cons.mpr ⟨?_, h.apart⟩
    intro s hs
    rcases h.behind s hs with hseg | ⟨hseg, ho⟩
    · exact ⟨Or.inl hseg, fun heq => absurd heq (Nat.ne_of_lt hseg)⟩
    · exact ⟨Or.inr ⟨hseg, by show o < _; omega⟩, fun _ => ho⟩

/-- A hole in front, at the end of its segment. -/
theorem hole {k : TokenKind} (h : Spans segments (seg + 1) 0 ts spans)
    (hlocated : Span.Located segments ⟨⟨k, ⟨seg, o⟩⟩, []⟩) :
    Spans segments seg o (⟨k, ⟨seg, o⟩⟩ :: ts) (⟨⟨k, ⟨seg, o⟩⟩, []⟩ :: spans) := by
  have hlater (s : Span) (hs : s ∈ spans) : seg < s.token.pos.segment := by
    rcases h.behind s hs with hseg | ⟨hseg, -⟩ <;> omega
  constructor
  · rw [List.map_cons, h.tokens]
  · exact List.forall_mem_cons.mpr ⟨hlocated, h.located⟩
  · refine List.forall_mem_cons.mpr ⟨Or.inr ⟨rfl, Nat.le_refl o⟩, ?_⟩
    intro s hs
    exact Or.inl (hlater s hs)
  · refine List.pairwise_cons.mpr ⟨?_, h.apart⟩
    intro s hs
    exact ⟨Or.inl (hlater s hs), fun heq => absurd heq (Nat.ne_of_lt (hlater s hs))⟩

end Spans

/-- What is written to the letter covers what it is written with. -/
theorem covers_written {k : TokenKind} {w : List Char} (hk : k.written = some w)
    (hne : w ≠ []) (back : List Char) : k.Covers w back := by
  cases k with
  | text value => cases hk
  | hole i => cases hk
  | commentHole i => cases hk
  | _ => exact ⟨hk, hne⟩

theorem covers_hole (r : Region) (i : Nat) : (r.holeKind i).Covers [] [] := by
  unfold Region.holeKind
  split <;> exact ⟨rfl, rfl⟩

/-- Tokens that lie over the source have spans. -/
theorem Laid.spans {segments : List (List Char)} {seg o : Nat} {r : Region} {cs : List Char}
    {more : List (List Char)} {ts : List Token} (h : Laid seg r o cs more ts)
    {front : List Char} (hseg : segments[seg]? = some (front ++ cs))
    (hfront : byteLength front = o) (hmore : segments.drop (seg + 1) = more) :
    ∃ spans, Spans segments seg o ts spans := by
  -- the front grows by what is passed, and begins anew in the next segment
  induction h generalizing front with
  | stop => exact ⟨[], .nil⟩
  | @hole seg r o s more ts _ _ ih =>
    have hnext : segments[seg + 1]? = some s := by
      rw [← List.head?_drop, hmore, List.head?_cons]
    have hrest : segments.drop (seg + 1 + 1) = more := by
      rw [← List.drop_drop, hmore, List.drop_one, List.tail_cons]
    obtain ⟨spans, hspans⟩ := ih (show _ = some ([] ++ s) from hnext) rfl hrest
    refine ⟨_, hspans.hole ⟨front, [], hseg, hfront, covers_hole r seg⟩⟩
  | @mark seg r r' o k w cs more ts hk hne _ _ ih =>
    rw [← List.append_assoc] at hseg
    obtain ⟨spans, hspans⟩ := ih hseg (by rw [Text.byteLength_append, hfront]) hmore
    rw [List.append_assoc] at hseg
    exact ⟨_, hspans.cons hne ⟨front, cs, hseg, hfront, covers_written hk hne cs⟩⟩
  | @text seg o body w kept cs more ts hne hcut _ ih =>
    rw [← List.append_assoc] at hseg
    obtain ⟨spans, hspans⟩ := ih hseg (by rw [Text.byteLength_append, hfront]) hmore
    rw [List.append_assoc] at hseg
    exact ⟨_, hspans.cons (by simp [hne])
      ⟨front, cs, hseg, hfront, body, w, kept, rfl, hne, hcut, rfl⟩⟩
  | pass _ _ ih =>
    rw [← List.append_assoc] at hseg
    obtain ⟨spans, hspans⟩ := ih hseg (by rw [Text.byteLength_append, hfront]) hmore
    exact ⟨spans, hspans.earlier (Nat.le_add_right _ _)⟩

/-! ### Holes -/

/-- The number of a hole and its place, also of a hole in a comment. -/
def Token.holePlace? (t : Token) : Option (Nat × Position) :=
  match t.kind with
  | .hole i => some (i, t.pos)
  | .commentHole i => some (i, t.pos)
  | _ => none

/-- The holes of segments from number `seg` on: one at the end of each but the last. -/
def holePlaces (seg : Nat) : List (List Char) → List (Nat × Position)
  | [] => []
  | [_] => []
  | s :: s' :: more => (seg, ⟨seg, byteLength s⟩) :: holePlaces (seg + 1) (s' :: more)

theorem holePlaces_cons (seg : Nat) (s s' : List Char) (more : List (List Char)) :
    holePlaces seg (s :: s' :: more) =
      (seg, ⟨seg, byteLength s⟩) :: holePlaces (seg + 1) (s' :: more) := rfl

theorem Laid.holePlaces {seg o : Nat} {r : Region} {cs : List Char} {more : List (List Char)}
    {ts : List Token} (h : Laid seg r o cs more ts) {front : List Char}
    (hfront : byteLength front = o) :
    ts.filterMap Token.holePlace? = Markup.holePlaces seg ((front ++ cs) :: more) := by
  induction h generalizing front with
  | stop => rfl
  | @hole seg r o s more ts _ _ ih =>
    have hplace : Token.holePlace? ⟨r.holeKind seg, ⟨seg, o⟩⟩ = some (seg, ⟨seg, o⟩) := by
      unfold Region.holeKind
      split <;> rfl
    rw [List.filterMap_cons, hplace, List.append_nil, holePlaces_cons, hfront,
      ih (rfl : byteLength [] = 0)]
    rfl
  | @mark seg r r' o k w cs more ts hk _ _ _ ih =>
    have hplace : Token.holePlace? ⟨k, ⟨seg, o⟩⟩ = none := by
      cases k <;> first | rfl | cases hk
    rw [List.filterMap_cons, hplace, ← List.append_assoc]
    exact ih (by rw [Text.byteLength_append, hfront])
  | @text seg o body w kept cs more ts _ _ _ ih =>
    rw [List.filterMap_cons, ← List.append_assoc]
    exact ih (by rw [Text.byteLength_append, hfront])
  | pass _ _ ih =>
    rw [← List.append_assoc]
    exact ih (by rw [Text.byteLength_append, hfront])

/-! ### The tokens of a literal -/

theorem laidOver_tokenize (raw : NameSet) (segments : List String) :
    LaidOver (segments.map String.toList) (tokenize raw segments) := by
  rw [tokenize_eq_joined, emissions]
  cases segments.map String.toList with
  | nil => rfl
  | cons s more => exact (scan_emissionsFrom raw 0 .text 0 s more).laid trivial

theorem LaidOver.spans {segments : List (List Char)} {ts : List Token} (h : LaidOver segments ts) :
    ∃ spans, Spans segments 0 0 ts spans := by
  cases segments with
  | nil => exact ⟨[], h ▸ .nil⟩
  | cons s more => exact Laid.spans h (show (s :: more)[0]? = some ([] ++ s) from rfl) rfl rfl

theorem LaidOver.holePlaces {segments : List (List Char)} {ts : List Token}
    (h : LaidOver segments ts) :
    ts.filterMap Token.holePlace? = Markup.holePlaces 0 segments := by
  cases segments with
  | nil =>
    obtain rfl : ts = [] := h
    rfl
  | cons s more => exact Laid.holePlaces h (rfl : byteLength [] = 0)

/-- **Nothing of a literal is lost.**  The tokens of a literal lie over its source, and what
    they leave out between them are comments and, inside a tag but in no value, blanks and
    characters without a meaning there.  They stand in the order of their places.  Each covers
    the source that it is written with, from its place on, and ends before the next one
    begins; a text may go on behind comments that are cut out of it.  Every hole has one
    token, at the end of the segment before it. -/
theorem tokenize_laid (raw : NameSet) (segments : List String) :
    LaidOver (segments.map String.toList) (tokenize raw segments) ∧
    (tokenize raw segments).Pairwise (fun a b => a.pos.Before b.pos) ∧
    (∃ spans : List Span, spans.map Span.token = tokenize raw segments ∧
      (∀ s ∈ spans, s.Located (segments.map String.toList)) ∧ spans.Pairwise Span.Apart) ∧
    (tokenize raw segments).filterMap Token.holePlace? =
      holePlaces 0 (segments.map String.toList) := by
  have hlaid := laidOver_tokenize raw segments
  obtain ⟨spans, hspans⟩ := hlaid.spans
  refine ⟨hlaid, ?_, ⟨spans, hspans.tokens, hspans.located, hspans.apart⟩, hlaid.holePlaces⟩
  rw [← hspans.tokens, List.pairwise_map]
  exact hspans.apart.imp And.left

/-- A comment is cut out of the text around it, and a value goes on behind a hole. -/
example : tokenize .empty ["a<!-- é -->b<p c=", "d é>"] =
    [⟨.text "ab", ⟨0, 0⟩⟩, ⟨.openAngle, ⟨0, 13⟩⟩, ⟨.ident "p", ⟨0, 14⟩⟩, ⟨.ident "c", ⟨0, 16⟩⟩,
      ⟨.equals, ⟨0, 17⟩⟩, ⟨.hole 0, ⟨0, 18⟩⟩, ⟨.fragment "d", ⟨1, 0⟩⟩, ⟨.closeAngle, ⟨1, 4⟩⟩] := by
  decide +kernel

end Stencil.Markup
