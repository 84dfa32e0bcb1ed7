/-
  Stencil/Proofs/Markup/Emission.lean
  ===================================
  **The scan of a literal as one run.**

  The scanner goes over a literal segment by segment and joins texts on its way back.
  What is to be shown of all tokens of a literal follows a run that goes forward:
  `emissionsFrom` passes from a segment to the next one and lists every token as a move
  emits it, together with the mode of that move.  Texts that only a comment keeps apart
  are still apart there; `tokenize_eq_joinTexts` says that joining them gives the tokens
  of the literal.

  `Moves` says once what a move can do, and `Scan` is the run as a relation, by which the
  proofs go by induction.
-/
import Stencil.Markup.Token.Scan

namespace Stencil.Markup

open Text (byteLength cutAt)

/-! ### What a move does -/

/-- The characters that the inside of a tag passes over: they neither belong to a name
    nor mean anything by themselves. -/
def isPassedOver (c : Char) : Bool :=
  !isNameChar c && !(c == '>' || c == '=' || c == '/' || c == '"' || c == '\'')

/-- Whether a test passes nowhere in a text, with `r` behind it. -/
def PassesNowhere (test : List Char → Bool) (body r : List Char) : Prop :=
  ∀ w, w ≠ [] → w <:+ body → test (w ++ r) = false

/-- `Moves raw m cs move`: in the mode `m` the scanner makes the move `move` on the rest
    `cs` of a segment. -/
inductive Moves (raw : NameSet) : Mode → List Char → Move → Prop where
  | openComment {r : List Char} :
      Moves raw .text ('<' :: '!' :: '-' :: '-' :: r) ⟨[], .comment, ['<', '!', '-', '-'], r⟩
  | openClose {r : List Char} :
      Moves raw .text ('<' :: '/' :: r)
        ⟨[(0, .openAngle), (1, .slash)], .tag ⟨none, false, .outside⟩, ['<', '/'], r⟩
  | openStart {name r : List Char} (hne : name ≠ []) (hname : ∀ d ∈ name, isNameChar d = true)
      (hfirst : ∀ d ∈ name.head?, d.isAlpha = true) :
      Moves raw .text ('<' :: (name ++ r))
        ⟨[(0, .openAngle), (1, .ident (String.ofList name))],
          .tag ⟨some (String.ofList name), false, .outside⟩, '<' :: name, r⟩
  | text {body r : List Char} (hne : body ≠ []) (hplain : PassesNowhere opensMarkup body r) :
      Moves raw .text (body ++ r) ⟨[(0, .text (String.ofList body))], .text, body, r⟩
  | blank {t : InTag} {c : Char} {r : List Char} (hc : Text.isTagBlank c = true) :
      Moves raw (.tag t) (c :: r) ⟨[], .tag t, [c], r⟩
  | unquoted {t : InTag} {value r : List Char} (ht : t.value = .awaited) (hne : value ≠ [])
      (hends : ∀ d ∈ r.head?, endsUnquoted d = true) :
      Moves raw (.tag t) (value ++ r)
        ⟨[(0, .fragment (String.ofList value))],
          .tag { t with value := if r.isEmpty then .touching else .outside }, value, r⟩
  | closeTag {t : InTag} {r : List Char} :
      Moves raw (.tag t) ('>' :: r) ⟨[(0, .closeAngle)], t.close raw, ['>'], r⟩
  | openQuote {t : InTag} {q : Quote} {r : List Char} :
      Moves raw (.tag t) (q.char :: r)
        ⟨[(0, .quote q)], .value q ⟨t.startName, false, .outside⟩, [q.char], r⟩
  | equals {t : InTag} {r : List Char} (ht : t.value ≠ .awaited) :
      Moves raw (.tag t) ('=' :: r)
        ⟨[(0, .equals)], .tag ⟨t.startName, false, .awaited⟩, ['='], r⟩
  | slash {t : InTag} {r : List Char} (ht : t.value ≠ .awaited) :
      Moves raw (.tag t) ('/' :: r) ⟨[(0, .slash)], .tag ⟨t.startName, true, .outside⟩, ['/'], r⟩
  | ident {t : InTag} {name r : List Char} (ht : t.value ≠ .awaited) (hne : name ≠ [])
      (hname : ∀ d ∈ name, isNameChar d = true) (hends : ∀ d ∈ r.head?, isNameChar d = false) :
      Moves raw (.tag t) (name ++ r)
        ⟨[(0, .ident (String.ofList name))], .tag ⟨t.startName, false, .outside⟩, name, r⟩
  | passOver {t : InTag} {c : Char} {r : List Char} (ht : t.value ≠ .awaited)
      (hc : isPassedOver c = true) :
      Moves raw (.tag t) (c :: r) ⟨[], .tag ⟨t.startName, false, .outside⟩, [c], r⟩
  | closeQuote {q : Quote} {t : InTag} {r : List Char} :
      Moves raw (.value q t) (q.char :: r) ⟨[(0, .quote q)], .tag t, [q.char], r⟩
  | quoted {q : Quote} {t : InTag} {body r : List Char} (hne : body ≠ []) :
      Moves raw (.value q t) (body ++ r)
        ⟨[(0, .fragment (String.ofList body))], .value q t, body, r⟩
  | closeRaw {name : String} {r : List Char} (hclose : closesRaw name ('<' :: '/' :: r) = true) :
      Moves raw (.raw name) ('<' :: '/' :: r)
        ⟨[(0, .openAngle), (1, .slash)], .tag ⟨none, false, .outside⟩, ['<', '/'], r⟩
  | rawText {name : String} {body r : List Char} (hne : body ≠ [])
      (hplain : PassesNowhere (closesRaw name) body r) :
      Moves raw (.raw name) (body ++ r) ⟨[(0, .text (String.ofList body))], .raw name, body, r⟩
  | closeComment {r : List Char} :
      Moves raw .comment ('-' :: '-' :: '>' :: r) ⟨[], .text, ['-', '-', '>'], r⟩
  | comment {body r : List Char} (hne : body ≠ []) (hplain : PassesNowhere endsComment body r) :
      Moves raw .comment (body ++ r) ⟨[], .comment, body, r⟩

theorem passesNowhere_cutAt (test : List Char → Bool) (cs : List Char) :
    PassesNowhere test (cutAt test cs).1 (cutAt test cs).2 := by
  induction cs with
  | nil =>
    intro w hne hw
    exact absurd (List.suffix_nil.mp hw) hne
  | cons c cs ih =>
    intro w hne hw
    by_cases hc : test (c :: cs) = true
    · rw [cutAt, if_pos hc] at hw
      exact absurd (List.suffix_nil.mp hw) hne
    · rw [cutAt, if_neg hc] at hw ⊢
      rcases List.suffix_cons_iff.mp hw with rfl | hw
      · simpa using hc
      · exact ih w hne hw

/-- A text begins where the test fails, so the cut behind its first character is one from
    there on. -/
theorem passesNowhere_cons {test : List Char → Bool} {c : Char} {cs : List Char}
    (hc : test (c :: cs) = false) :
    PassesNowhere test (c :: (cutAt test cs).1) (cutAt test cs).2 := by
  have h := passesNowhere_cutAt test (c :: cs)
  rwa [cutAt, if_neg (by simp [hc])] at h

theorem opensMarkup_cases {cs : List Char} (h : opensMarkup cs = true) :
    (∃ r, cs = '<' :: '!' :: '-' :: '-' :: r) ∨
      ∃ d r, cs = '<' :: d :: r ∧ (d.isAlpha = true ∨ d = '/') := by
  unfold opensMarkup at h
  split at h
  · exact Or.inl ⟨_, rfl⟩
  · exact Or.inr ⟨_, _, rfl, by simpa using h⟩
  · cases h

theorem endsComment_cases {cs : List Char} (h : endsComment cs = true) :
    ∃ r, cs = '-' :: '-' :: '>' :: r := by
  unfold endsComment at h
  split at h
  · exact ⟨_, rfl⟩
  · cases h

variable {raw : NameSet}

theorem moves_text (c : Char) (cs : List Char) : Moves raw .text (c :: cs) (moveText c cs) := by
  unfold moveText
  split
  · exact .openComment
  · exact .openClose
  · rename_i hno hno' hopens
    rcases opensMarkup_cases hopens with ⟨r, hr⟩ | ⟨d, r, hr, hd⟩
    · exact absurd (List.cons.inj hr).2 (hno r (List.cons.inj hr).1)
    · obtain ⟨rfl, rfl⟩ := List.cons.inj hr
      have halpha : d.isAlpha = true := by
        rcases hd with hd | rfl
        · exact hd
        · exact absurd rfl (hno' r rfl)
      have hname : isNameChar d = true := by simp [isNameChar, Char.isAlphanum, halpha]
      have hmoves (rest : List Char) :
          Moves raw .text ('<' :: ((d :: r).takeWhile isNameChar ++ rest)) _ :=
        .openStart (by simp [hname]) (fun e he => List.all_eq_true.mp List.all_takeWhile e he)
          (by simp [hname, halpha])
      have hmove := hmoves ((d :: r).dropWhile isNameChar)
      rwa [List.takeWhile_append_dropWhile] at hmove
  · next hshut =>
    have hmoves : Moves raw .text _ _ := .text (by simp) (passesNowhere_cons hshut)
    rwa [List.cons_append, Text.cutAt_append] at hmoves

theorem moves_unquoted {t : InTag} (ht : t.value = .awaited) (c : Char) (cs : List Char) :
    Moves raw (.tag t) (c :: cs) (moveUnquoted t c cs) := by
  have hends : ∀ d ∈ (cs.dropWhile fun d => !endsUnquoted d).head?, endsUnquoted d = true := by
    intro d hd
    have hstop := List.head?_dropWhile_not (fun d => !endsUnquoted d) cs
    rw [Option.mem_def.mp hd] at hstop
    simpa using hstop
  have hmoves : Moves raw (.tag t) (c :: cs.takeWhile (fun d => !endsUnquoted d) ++ _) _ :=
    .unquoted ht (by simp) hends
  rwa [List.cons_append, List.takeWhile_append_dropWhile] at hmoves

theorem moves_tag (t : InTag) (c : Char) (cs : List Char) :
    Moves raw (.tag t) (c :: cs) (moveTag raw t c cs) := by
  unfold moveTag
  split
  · next hblank => exact .blank hblank
  · next hblank =>
    split
    · next hvalue => exact moves_unquoted (by simp_all) c cs
    · next hvalue =>
      have hawaited (hc : refusesUnquoted c = false) : t.value ≠ .awaited := by
        intro ht
        simp [ht, hc] at hvalue
      split
      · exact .closeTag
      · exact .equals (hawaited rfl)
      · exact .slash (hawaited rfl)
      · exact .openQuote (q := .double)
      · exact .openQuote (q := .single)
      · next hclose hequals hslash hdouble hsingle =>
        have hmarks : c ≠ '>' ∧ c ≠ '=' ∧ c ≠ '/' ∧ c ≠ '"' ∧ c ≠ '\'' :=
          ⟨hclose, hequals, hslash, hdouble, hsingle⟩
        have ht := hawaited (by simp [refusesUnquoted, hmarks])
        split
        · next hname =>
          have hword : ∀ d ∈ c :: cs.takeWhile isNameChar, isNameChar d = true := by
            rw [List.forall_mem_cons]
            exact ⟨hname, fun d hd => List.all_eq_true.mp List.all_takeWhile d hd⟩
          have hends : ∀ d ∈ (cs.dropWhile isNameChar).head?, isNameChar d = false := by
            intro d hd
            have hstop := List.head?_dropWhile_not isNameChar cs
            rw [Option.mem_def.mp hd] at hstop
            simpa using hstop
          have hmoves : Moves raw (.tag t) _ _ := .ident ht (List.cons_ne_nil c _) hword hends
          rwa [List.cons_append, List.takeWhile_append_dropWhile] at hmoves
        · next hname =>
          exact .passOver ht (by simp [isPassedOver, hname, hmarks])

theorem moves_value (q : Quote) (t : InTag) (c : Char) (cs : List Char) :
    Moves raw (.value q t) (c :: cs) (moveValue q t c cs) := by
  unfold moveValue
  split
  · next hc =>
    subst hc
    exact .closeQuote
  · have hmoves : Moves raw (.value q t) (_ ++ cs.dropWhile (· != q.char)) _ :=
      .quoted (List.cons_ne_nil c (cs.takeWhile (· != q.char)))
    rwa [List.cons_append, List.takeWhile_append_dropWhile] at hmoves

theorem moves_raw (name : String) (c : Char) (cs : List Char) :
    Moves raw (.raw name) (c :: cs) (moveRaw name c cs) := by
  unfold moveRaw
  split
  · next hclose =>
    obtain ⟨u, hu⟩ : ('<' :: '/' :: name.toList) <+: c :: cs := by
      rw [closesRaw, Bool.and_eq_true] at hclose
      exact List.isPrefixOf_iff_prefix.mp hclose.1
    obtain ⟨rfl, rfl⟩ := List.cons.inj hu
    exact .closeRaw hclose
  · next hopen =>
    have hmoves : Moves raw (.raw name) _ _ :=
      .rawText (by simp) (passesNowhere_cons (Bool.eq_false_iff.mpr hopen))
    rwa [List.cons_append, Text.cutAt_append] at hmoves

theorem moves_comment (c : Char) (cs : List Char) :
    Moves raw .comment (c :: cs) (moveComment c cs) := by
  unfold moveComment
  split
  · rename_i hends
    obtain ⟨r, hr⟩ := endsComment_cases hends
    obtain ⟨rfl, rfl, rfl, rfl⟩ := by simpa using hr
    exact .closeComment
  · rename_i hno hends
    obtain ⟨r, hr⟩ := endsComment_cases hends
    exact absurd (List.cons.inj hr).2 (hno _ _ r)
  · next hends =>
    have hmoves : Moves raw .comment _ _ := .comment (by simp) (passesNowhere_cons hends)
    rwa [List.cons_append, Text.cutAt_append] at hmoves

/-- The scanner makes no other moves. -/
theorem moves_move (m : Mode) (c : Char) (cs : List Char) :
    Moves raw m (c :: cs) (m.move raw c cs) := by
  cases m with
  | text => exact moves_text c cs
  | tag t => exact moves_tag t c cs
  | value q t => exact moves_value q t c cs
  | raw name => exact moves_raw name c cs
  | comment => exact moves_comment c cs

/-- A stretch of characters with a property, up to the first without it. -/
theorem span_append {p : Char → Bool} {front r : List Char} (hfront : ∀ d ∈ front, p d = true)
    (hr : ∀ d ∈ r.head?, p d = false) :
    (front ++ r).takeWhile p = front ∧ (front ++ r).dropWhile p = r := by
  rw [List.takeWhile_append_of_pos hfront, List.dropWhile_append_of_pos hfront]
  cases r with
  | nil => exact ⟨List.append_nil _, rfl⟩
  | cons d r => simp [hr d rfl]

theorem isPassedOver_of_isTagBlank {c : Char} (h : Text.isTagBlank c = true) :
    isPassedOver c = true := by
  simp only [Text.isTagBlank, Bool.or_eq_true, beq_iff_eq] at h
  rcases h with (((rfl | rfl) | rfl) | rfl) | rfl <;> decide

/-- Inside a tag and outside its values, a name is one token. -/
theorem Moves.eq_ident {t : InTag} {name r : List Char} {move : Move}
    (h : Moves raw (.tag t) (name ++ r) move) (ht : t.value ≠ .awaited) (hne : name ≠ [])
    (hname : ∀ d ∈ name, isNameChar d = true) (hr : ∀ d ∈ r.head?, isNameChar d = false) :
    move = ⟨[(0, .ident (String.ofList name))], .tag ⟨t.startName, false, .outside⟩, name, r⟩ := by
  obtain ⟨c, cs, rfl⟩ := List.exists_cons_of_ne_nil hne
  have hc : isNameChar c = true := hname c List.mem_cons_self
  generalize hall : c :: cs ++ r = all at h
  cases h with
  | ident _ _ hname' hends =>
    have hword := (span_append hname hr).1
    rw [hall, (span_append hname' hends).1] at hword
    subst hword
    rw [List.append_cancel_left hall]
  | unquoted ht' => exact absurd ht' ht
  | passOver _ hpassed =>
    obtain ⟨rfl, rfl⟩ := List.cons.inj hall
    simp [isPassedOver, hc] at hpassed
  | blank hblank =>
    obtain ⟨rfl, rfl⟩ := List.cons.inj hall
    have hpassed := isPassedOver_of_isTagBlank hblank
    simp [isPassedOver, hc] at hpassed
  | @openQuote _ q =>
    obtain ⟨rfl, rfl⟩ := List.cons.inj hall
    cases q <;> exact absurd hc (by decide)
  | closeTag | equals | slash =>
    obtain ⟨rfl, rfl⟩ := List.cons.inj hall
    exact absurd hc (by decide)

/-! ### The run -/

/-- A token as a move emits it, and the mode of that move.  A hole has the mode in which
    its segment ends. -/
structure Emission where
  token : Token
  mode : Mode
deriving DecidableEq, Repr

/-- The emissions of a move in the mode `m` that begins at byte `offset` of segment `seg`. -/
def Move.emissions (seg offset : Nat) (m : Mode) (move : Move) : List Emission :=
  move.emitted.map fun e => ⟨⟨e.2, ⟨seg, offset + e.1⟩⟩, m⟩

/-- The emissions from byte `offset` of segment `seg` on, of which `cs` is left, to the end
    of the segments `more` behind it. -/
def emissionsFrom (raw : NameSet) (seg : Nat) (m : Mode) (offset : Nat) :
    List Char → List (List Char) → List Emission
  | [], [] => []
  | [], s :: more =>
    ⟨⟨m.holeKind seg, ⟨seg, offset⟩⟩, m⟩ ::
      emissionsFrom raw (seg + 1) (m.afterHole.resume s) 0 s more
  | c :: cs, more =>
    let move := m.move raw c cs
    move.emissions seg offset m ++
      emissionsFrom raw seg move.mode (offset + byteLength move.taken) move.rest more
termination_by cs more => cs.length + more.flatten.length + more.length
decreasing_by
  · simp only [List.flatten_cons, List.length_append, List.length_cons, List.length_nil]
    omega
  · have hrest := Move.length_rest_lt raw m c cs
    omega

/-- The emissions of a literal. -/
def emissions (raw : NameSet) (segments : List String) : List Emission :=
  match segments.map String.toList with
  | [] => []
  | s :: more => emissionsFrom raw 0 .text 0 s more

/-- `Scan raw seg m offset cs more es`: the scanner, in the mode `m` at byte `offset` of
    segment `seg`, of which `cs` is left, emits `es` up to the end of the segments `more`. -/
inductive Scan (raw : NameSet) :
    Nat → Mode → Nat → List Char → List (List Char) → List Emission → Prop where
  | stop {seg : Nat} {m : Mode} {offset : Nat} : Scan raw seg m offset [] [] []
  | hole {seg : Nat} {m : Mode} {offset : Nat} {s : List Char} {more : List (List Char)}
      {es : List Emission} (rest : Scan raw (seg + 1) (m.afterHole.resume s) 0 s more es) :
      Scan raw seg m offset [] (s :: more) (⟨⟨m.holeKind seg, ⟨seg, offset⟩⟩, m⟩ :: es)
  | move {seg : Nat} {m : Mode} {offset : Nat} {cs : List Char} {more : List (List Char)}
      {move : Move} {es : List Emission} (moves : Moves raw m cs move)
      (rest : Scan raw seg move.mode (offset + byteLength move.taken) move.rest more es) :
      Scan raw seg m offset cs more (move.emissions seg offset m ++ es)

theorem scan_emissionsFrom (raw : NameSet) (seg : Nat) (m : Mode) (offset : Nat) (cs : List Char)
    (more : List (List Char)) :
    Scan raw seg m offset cs more (emissionsFrom raw seg m offset cs more) := by
  fun_induction emissionsFrom raw seg m offset cs more with
  | case1 => exact .stop
  | case2 _ _ _ _ _ ih => exact .hole ih
  | case3 => exact .move (moves_move _ _ _) (by assumption)

/-! ### Joining texts -/

/-- Tokens in which two texts in a row have become one. -/
def joinTexts (ts : List Token) : List Token := ts.foldr Token.push []

/-- The tokens of emissions, with texts joined. -/
def joined (es : List Emission) : List Token := joinTexts (es.map Emission.token)

theorem push_eq {t : Token} (h : ∀ value, t.kind ≠ .text value) (ts : List Token) :
    t.push ts = t :: ts := by
  unfold Token.push
  split
  · rename_i hkind
    exact absurd hkind (h _)
  · rfl

@[simp] theorem joined_nil : joined [] = [] := rfl

theorem joined_cons (e : Emission) (es : List Emission) :
    joined (e :: es) = e.token.push (joined es) := rfl

theorem joined_append (es es' : List Emission) :
    joined (es ++ es') = (es.map Emission.token).foldr Token.push (joined es') := by
  rw [joined, joinTexts, List.map_append, List.foldr_append]
  rfl

theorem joined_emissions (seg offset : Nat) (m : Mode) (move : Move) (es : List Emission) :
    joined (move.emissions seg offset m ++ es) =
      move.emitted.foldr (fun e ts => Token.push ⟨e.2, ⟨seg, offset + e.1⟩⟩ ts) (joined es) := by
  rw [joined_append, Move.emissions, List.map_map, List.foldr_map]
  rfl

/-- Joining goes as far as a token that is no text. -/
theorem push_append {k : TokenKind} {p : Position} (h : ∀ value, k ≠ .text value) (t : Token)
    (ts ts' : List Token) : t.push (ts ++ ⟨k, p⟩ :: ts') = t.push ts ++ ⟨k, p⟩ :: ts' := by
  cases ts with
  | nil =>
    unfold Token.push
    cases t.kind <;> cases k <;> simp_all
  | cons u us =>
    obtain ⟨k', p'⟩ := u
    unfold Token.push
    cases t.kind <;> cases k' <;> rfl

theorem foldr_push_append {k : TokenKind} {p : Position} (h : ∀ value, k ≠ .text value)
    (ts ts' : List Token) (us : List Token) :
    us.foldr Token.push (ts ++ ⟨k, p⟩ :: ts') = us.foldr Token.push ts ++ ⟨k, p⟩ :: ts' := by
  induction us with
  | nil => rfl
  | cons u us ih => rw [List.foldr_cons, ih, push_append h, List.foldr_cons]

theorem Mode.holeKind_ne_text (m : Mode) (i : Nat) (value : String) :
    m.holeKind i ≠ .text value := by
  cases m <;> simp [Mode.holeKind]

/-- The emissions of the last segment. -/
theorem joined_emissionsFrom_nil (raw : NameSet) (seg : Nat) (m : Mode) (offset : Nat)
    (cs : List Char) :
    joined (emissionsFrom raw seg m offset cs []) = (scanRest raw seg m offset cs).1 := by
  fun_induction scanRest raw seg m offset cs with
  | case1 => rw [emissionsFrom, joined_nil]
  | case2 m offset c cs move ts m' hscan ih =>
    rw [emissionsFrom, joined_emissions, ih, hscan]

/-- The emissions of a segment that is not the last. -/
theorem joined_emissionsFrom_cons (raw : NameSet) (seg : Nat) (m : Mode) (offset : Nat)
    (cs s : List Char) (more : List (List Char)) :
    joined (emissionsFrom raw seg m offset cs (s :: more)) =
      (scanRest raw seg m offset cs).1 ++
        ⟨(scanRest raw seg m offset cs).2.holeKind seg, ⟨seg, offset + byteLength cs⟩⟩ ::
          joined (emissionsFrom raw (seg + 1)
            ((scanRest raw seg m offset cs).2.afterHole.resume s) 0 s more) := by
  fun_induction scanRest raw seg m offset cs with
  | case1 m offset =>
    rw [emissionsFrom, joined_cons, push_eq (m.holeKind_ne_text seg)]
    rfl
  | case2 m offset c cs move ts m' hscan ih =>
    have hbytes : offset + byteLength move.taken + byteLength move.rest =
        offset + byteLength (c :: cs) := by
      rw [← Move.taken_append_rest raw m c cs, Text.byteLength_append, Nat.add_assoc]
    have hfold (ts' us : List Token) :
        move.emitted.foldr (fun e ts => Token.push ⟨e.2, ⟨seg, offset + e.1⟩⟩ ts)
          (ts' ++ ⟨m'.holeKind seg, ⟨seg, offset + byteLength (c :: cs)⟩⟩ :: us) =
        move.emitted.foldr (fun e ts => Token.push ⟨e.2, ⟨seg, offset + e.1⟩⟩ ts) ts' ++
          ⟨m'.holeKind seg, ⟨seg, offset + byteLength (c :: cs)⟩⟩ :: us := by
      have h := foldr_push_append (p := ⟨seg, offset + byteLength (c :: cs)⟩)
        (m'.holeKind_ne_text seg) ts' us
        (move.emitted.map fun e => ⟨e.2, ⟨seg, offset + e.1⟩⟩)
      rwa [List.foldr_map, List.foldr_map] at h
    rw [emissionsFrom, joined_emissions, ih, hscan, hbytes, hfold]

/-- The tokens of segments are what a run over them emits. -/
theorem scanSegments_eq (raw : NameSet) (seg : Nat) (m : Mode) (s : List Char)
    (more : List (List Char)) :
    scanSegments raw seg m (s :: more) = joined (emissionsFrom raw seg (m.resume s) 0 s more) := by
  induction more generalizing seg m s with
  | nil => rw [scanSegments, scanSegment, joined_emissionsFrom_nil]
  | cons s' more ih =>
    rw [joined_emissionsFrom_cons, ← ih, Nat.zero_add]
    rfl

/-- The tokens of a literal are what its scan emits, with texts joined. -/
theorem tokenize_eq_joined (raw : NameSet) (segments : List String) :
    tokenize raw segments = joined (emissions raw segments) := by
  rw [tokenize, emissions]
  cases segments.map String.toList with
  | nil => rfl
  | cons s more =>
    have hresume : Mode.text.resume s = .text := by cases s <;> rfl
    rw [scanSegments_eq, hresume]

end Stencil.Markup
