/-
  Stencil/Proofs/Markup/RawText.lean
  ==================================
  **Where raw text begins and ends.**

  Whether a start tag begins raw text is decided twice: by the scanner at the `>`, from the
  characters of the tag, and by the parser, from its tokens.  `Reached` says where the
  parser can stand between two tags and with which elements open, and `Synced` what the
  scanner is reading there.

  The two agree but for one case.  A `/` closes a tag itself if it stands right before the
  `>`; characters that the scanner passes over leave no token, so the parser does not see
  them between the two, but the scanner no longer counts the `/` behind them.  Such a tag of
  a raw-text element has no content for the parser, and is followed by raw text for the
  scanner: it is `Overlooked`.  Everywhere else the scanner reads raw text if and only if
  the innermost open element is one of raw text: `rawText_synced`.
-/
import Stencil.Proofs.Markup.Stream
import Stencil.Proofs.Markup.Written

namespace Stencil.Markup

open Text (byteLength)

/-! ### The parser between two tags -/

/-- Where the parser stands: the tree that it has, the kind of the token before it, and the
    tokens that are left. -/
structure ParserState where
  tree : Build
  before : Option TokenKind
  rest : List Token

/-- `Advance void stop r r'`: the parser goes from `r` to `r'` over a text, a hole or a whole
    tag. -/
inductive Advance (void : NameSet) (stop : Position) : ParserState → ParserState → Prop where
  | text {b b' : Build} {before : Option TokenKind} {value : String} {pos : Position}
      {rest : List Token} (hkeep : keepsText before (rest.head?.map (·.kind)) value = true)
      (hadd : b.add void (.text value) = .ok b') :
      Advance void stop ⟨b, before, ⟨.text value, pos⟩ :: rest⟩ ⟨b', some (.text value), rest⟩
  | layout {b : Build} {before : Option TokenKind} {value : String} {pos : Position}
      {rest : List Token} (hkeep : keepsText before (rest.head?.map (·.kind)) value = false) :
      Advance void stop ⟨b, before, ⟨.text value, pos⟩ :: rest⟩ ⟨b, some (.text value), rest⟩
  | hole {b b' : Build} {before : Option TokenKind} {i : Nat} {pos : Position}
      {rest : List Token} (hadd : b.add void (.hole i) = .ok b') :
      Advance void stop ⟨b, before, ⟨.hole i, pos⟩ :: rest⟩ ⟨b', some (.hole i), rest⟩
  | commentHole {b : Build} {before : Option TokenKind} {i : Nat} {pos : Position}
      {rest : List Token} :
      Advance void stop ⟨b, before, ⟨.commentHole i, pos⟩ :: rest⟩ ⟨b, some (.commentHole i), rest⟩
  | tag {b b' : Build} {before : Option TokenKind} {pos : Position} {rest rest' : List Token}
      {p : Piece} (hread : readTag stop pos rest = .ok (p, rest')) (hadd : b.add void p = .ok b') :
      Advance void stop ⟨b, before, ⟨.openAngle, pos⟩ :: rest⟩ ⟨b', some .closeAngle, rest'⟩

/-- What the parser comes to when it reads the tokens `ts`. -/
inductive Reached (void : NameSet) (stop : Position) (ts : List Token) : ParserState → Prop where
  | start : Reached void stop ts ⟨.start, none, ts⟩
  | step {r r' : ParserState} (h : Reached void stop ts r) (hstep : Advance void stop r r') :
      Reached void stop ts r'

/-- What parsing makes of the tokens that are left. -/
def ParserState.parse (void : NameSet) (stop : Position) (r : ParserState) :
    Except ParseError Template :=
  match r.tree.addAll void (readPieces stop r.before r.rest).1,
    (readPieces stop r.before r.rest).2 with
  | .error e, _ => .error e
  | .ok _, some e => .error e
  | .ok b, none => b.finish

section
variable {void : NameSet} {stop : Position}

theorem Advance.parse_eq {r r' : ParserState} (h : Advance void stop r r') :
    r.parse void stop = r'.parse void stop := by
  cases h with
  | text hkeep hadd =>
    rw [ParserState.parse, readPieces]
    simp only [hkeep, if_true, Build.addAll, hadd]
    rfl
  | layout hkeep =>
    rw [ParserState.parse, readPieces]
    simp only [hkeep, Bool.false_eq_true, if_false]
    rfl
  | hole hadd =>
    rw [ParserState.parse, readPieces]
    simp only [Build.addAll, hadd]
    rfl
  | commentHole =>
    rw [ParserState.parse, readPieces]
    rfl
  | tag hread hadd =>
    rw [ParserState.parse]
    simp only [readPieces_tag hread, Build.addAll, hadd]
    rfl

/-- Unless nothing is left, parsing goes on or fails. -/
theorem exists_advance {b : Build} {before : Option TokenKind} {t : Token} {rest : List Token}
    {tree : Template} (h : ParserState.parse void stop ⟨b, before, t :: rest⟩ = .ok tree) :
    ∃ r', Advance void stop ⟨b, before, t :: rest⟩ r' ∧ r'.rest.length ≤ rest.length := by
  obtain ⟨k, pos⟩ := t
  cases k with
  | text value =>
    cases hkeep : keepsText before (rest.head?.map (·.kind)) value with
    | true => exact ⟨_, .text hkeep rfl, Nat.le_refl _⟩
    | false => exact ⟨_, .layout hkeep, Nat.le_refl _⟩
  | hole i => exact ⟨_, .hole rfl, Nat.le_refl _⟩
  | commentHole i => exact ⟨_, .commentHole, Nat.le_refl _⟩
  | openAngle =>
    cases hread : readTag stop pos rest with
    | error e =>
      have hstop : readPieces stop before (⟨.openAngle, pos⟩ :: rest) = ([], some e) := by
        rw [readPieces]
        simp only
        split <;> simp_all
      rw [ParserState.parse] at h
      simp only [hstop, Build.addAll] at h
      cases h
    | ok r =>
      obtain ⟨p, rest'⟩ := r
      cases hadd : b.add void p with
      | error e =>
        rw [ParserState.parse] at h
        simp only [readPieces_tag hread, Build.addAll, hadd] at h
        cases h
      | ok b' => exact ⟨_, .tag hread hadd, Nat.le_of_lt (length_of_readTag hread)⟩
  | _ =>
    rw [ParserState.parse, readPieces] at h
    cases h

variable {ts : List Token}

theorem Reached.parse_eq {r : ParserState} (h : Reached void (lastPosition ts) ts r) :
    parseTokens void ts = r.parse void (lastPosition ts) := by
  induction h with
  | start => rfl
  | step _ hstep ih => rw [ih, hstep.parse_eq]

theorem exists_end (n : Nat) {r : ParserState} {tree : Template} (hn : r.rest.length ≤ n)
    (h : Reached void stop ts r) (hparse : r.parse void stop = .ok tree) :
    ∃ b before, Reached void stop ts ⟨b, before, []⟩ ∧ b.finish = .ok tree := by
  induction n generalizing r with
  | zero =>
    obtain ⟨b, before, rest⟩ := r
    obtain rfl := List.eq_nil_of_length_eq_zero (Nat.le_zero.mp hn)
    rw [ParserState.parse, readPieces] at hparse
    exact ⟨b, before, h, hparse⟩
  | succ n ih =>
    obtain ⟨b, before, rest⟩ := r
    cases rest with
    | nil =>
      rw [ParserState.parse, readPieces] at hparse
      exact ⟨b, before, h, hparse⟩
    | cons t rest =>
      obtain ⟨r', hstep, hlength⟩ := exists_advance hparse
      rw [hstep.parse_eq] at hparse
      exact ih (Nat.le_trans hlength (Nat.le_of_succ_le_succ hn)) (.step h hstep) hparse

/-- Parsing succeeds where the parser gets to the end with nothing open. -/
theorem parseTokens_eq_ok_iff {tree : Template} :
    parseTokens void ts = .ok tree ↔
      ∃ b before, Reached void (lastPosition ts) ts ⟨b, before, []⟩ ∧ b.finish = .ok tree := by
  constructor
  · intro h
    exact exists_end _ (Nat.le_refl _) .start h
  · rintro ⟨b, before, h, hfinish⟩
    rw [h.parse_eq, ParserState.parse, readPieces]
    exact hfinish

end

/-! ### The scanner between two tags -/

/-- What a mode reads between two tags: raw text with the name of its element, or anything
    else.  Inside a tag it reads neither. -/
def Mode.body? : Mode → Option (Option String)
  | text => some none
  | comment => some none
  | raw name => some (some name)
  | tag _ => none
  | value _ _ => none

theorem Mode.eq_raw_of_body {m : Mode} {name : String} (h : m.body? = some (some name)) :
    m = .raw name := by
  cases m <;> simp_all [body?]

theorem Mode.afterHole_of_body {m : Mode} {body : Option String} (h : m.body? = some body)
    (s : List Char) : m.afterHole.resume s = m := by
  cases m with
  | tag t => cases h
  | value q t => cases h
  | _ => cases s <;> rfl

/-- In the mode `m` the scanner emits `es` up to the end of the literal. -/
def Emits (raw : NameSet) (m : Mode) (es : List Emission) : Prop :=
  ∃ seg offset cs more, Scan raw seg m offset cs more es

theorem Scan.emits {raw : NameSet} {seg : Nat} {m : Mode} {o : Nat} {cs : List Char}
    {more : List (List Char)} {es : List Emission} (h : Scan raw seg m o cs more es) :
    Emits raw m es := ⟨_, _, _, _, h⟩

theorem emits_emissions (raw : NameSet) (segments : List String) :
    ∃ m, m.body? = some none ∧ Emits raw m (emissions raw segments) := by
  unfold emissions
  split
  · exact ⟨.text, rfl, 0, 0, [], [], .stop⟩
  · exact ⟨.text, rfl, (scan_emissionsFrom raw 0 .text 0 _ _).emits⟩

/-- A text in front of others is joined to a text behind it, and to nothing else. -/
theorem cases_of_push {a : String} {p : Position} {ts rest : List Token} {t : Token}
    (h : (⟨.text a, p⟩ : Token).push ts = t :: rest) :
    (t = ⟨.text a, p⟩ ∧ rest = ts) ∨
      ∃ b p', t = ⟨.text (a ++ b), p⟩ ∧ ts = ⟨.text b, p'⟩ :: rest := by
  unfold Token.push at h
  split at h
  · next heq =>
    cases heq
    cases h
    exact Or.inr ⟨_, _, rfl, rfl⟩
  · cases h
    exact Or.inl ⟨rfl, rfl⟩

theorem rest_of_push {a : String} {p : Position} {ts rest : List Token} {t : Token}
    (h : (⟨.text a, p⟩ : Token).push ts = t :: rest) :
    t.kind ≠ .openAngle ∧ (rest = ts ∨ ∃ b p', ts = ⟨.text b, p'⟩ :: rest) := by
  rcases cases_of_push h with ⟨rfl, rfl⟩ | ⟨b, p', rfl, rfl⟩
  · exact ⟨nofun, Or.inl rfl⟩
  · exact ⟨nofun, Or.inr ⟨b, p', rfl⟩⟩

section
variable {raw : NameSet} {m : Mode} {es : List Emission} {body : Option String}

/-- The first token between two tags is emitted by a mode that reads the same. -/
theorem Emits.first {e : Emission} (h : Emits raw m (e :: es)) (hm : m.body? = some body) :
    e.mode.body? = some body := by
  obtain ⟨seg, o, cs, more, h⟩ := h
  generalize hall : e :: es = all at h
  induction h with
  | stop => cases hall
  | hole =>
    cases hall
    exact hm
  | move moves _ ih =>
    cases moves with
    | openComment | closeComment =>
      cases hm
      exact ih rfl hall
    | comment => exact ih hm hall
    | blank | unquoted | closeTag | openQuote | equals | slash | ident | passOver | closeQuote
    | quoted => cases hm
    | openClose | openStart | text | closeRaw | rawText =>
      cases hall
      exact hm

/-- `ReadsOn raw body es rest`: the scanner emits `es`, and up to the tokens `rest`, which are
    those of the end of `es`, it reads `body`. -/
inductive ReadsOn (raw : NameSet) (body : Option String) : List Emission → List Token → Prop where
  | intro {front es : List Emission} {m : Mode} (scan : Emits raw m es)
      (hm : m.body? = some body) (hfront : ∀ e ∈ front, e.mode.body? = some body) :
      ReadsOn raw body (front ++ es) (joined es)

theorem ReadsOn.cons {e : Emission} {rest : List Token} (he : e.mode.body? = some body)
    (h : ReadsOn raw body es rest) : ReadsOn raw body (e :: es) rest := by
  cases h with
  | intro scan hm hfront =>
    rw [← List.cons_append]
    exact .intro scan hm (List.forall_mem_cons.mpr ⟨he, hfront⟩)

theorem readsOn_single {e : Emission} {m' : Mode} (he : e.mode.body? = some body)
    (scan : Emits raw m' es) (hm : m'.body? = some body) : ReadsOn raw body (e :: es) (joined es) :=
  .intro scan hm (List.forall_mem_singleton.mpr he)

/-- Over a text, which may have been joined from several, or a hole the scanner goes on reading
    the same. -/
theorem Emits.readsOn {t : Token} {rest : List Token} (h : Emits raw m es)
    (hm : m.body? = some body) (hes : joined es = t :: rest) (ht : t.kind ≠ .openAngle) :
    ReadsOn raw body es rest := by
  obtain ⟨seg, o, cs, more, h⟩ := h
  induction h generalizing t rest with
  | stop => cases hes
  | @hole seg m _ _ _ _ hscan =>
    rw [joined_cons, push_eq (m.holeKind_ne_text seg)] at hes
    cases hes
    rw [Mode.afterHole_of_body hm] at hscan
    exact readsOn_single hm hscan.emits hm
  | move moves hscan ih =>
    cases moves with
    | openComment | closeComment =>
      cases hm
      exact ih rfl hes ht
    | comment => exact ih hm hes ht
    | blank | unquoted | closeTag | openQuote | equals | slash | ident | passOver | closeQuote
    | quoted => cases hm
    | openClose | openStart | closeRaw =>
      rw [joined_emissions] at hes
      cases hes
      exact absurd rfl ht
    | text | rawText =>
      rw [joined_emissions] at hes
      rcases (rest_of_push hes).2 with rfl | ⟨b, p, hjoined⟩
      · exact readsOn_single hm hscan.emits hm
      · exact (ih hm hjoined nofun).cons hm

/-- `OpensTag raw body es rest`: the scanner emits the `<` of a tag and what follows it, and the
    tokens `rest` are those behind the `<`.  Raw text it leaves only for its close tag. -/
inductive OpensTag (raw : NameSet) : Option String → List Emission → List Token → Prop where
  | start {e e' : Emission} {name : String} {pos : Position} {es : List Emission}
      (hname : IsTagName name) (he : e'.token = ⟨.ident name, pos⟩)
      (scan : Emits raw (.tag ⟨some name, false, .outside⟩) es) :
      OpensTag raw none (e :: e' :: es) (⟨.ident name, pos⟩ :: joined es)
  | close {body : Option String} {e e' : Emission} {pos : Position} {es : List Emission}
      (he : e'.token = ⟨.slash, pos⟩) (scan : Emits raw (.tag ⟨none, false, .outside⟩) es)
      (hbody : ∀ name ∈ body, IsWord name → ∃ pos' ts, joined es = ⟨.ident name, pos'⟩ :: ts) :
      OpensTag raw body (e :: e' :: es) (⟨.slash, pos⟩ :: joined es)

/-- Behind the `</` that closes raw text stands the name. -/
theorem joined_closeRaw {seg o : Nat} {name : String} {r : List Char} {more : List (List Char)}
    (hclose : closesRaw name ('<' :: '/' :: r) = true) (hword : IsWord name)
    (h : Scan raw seg (.tag ⟨none, false, .outside⟩) o r more es) :
    ∃ pos ts, joined es = ⟨.ident name, pos⟩ :: ts := by
  rw [closesRaw, Bool.and_eq_true] at hclose
  obtain ⟨r', hr'⟩ := List.isPrefixOf_iff_prefix.mp hclose.1
  obtain rfl : name.toList ++ r' = r := by simpa using hr'
  have hend : ∀ d ∈ r'.head?, isNameChar d = false := by
    intro d hd
    have hany := hclose.2
    simpa [Option.mem_def.mp hd] using hany
  generalize hall : name.toList ++ r' = all at h
  cases h with
  | stop => exact absurd (List.append_eq_nil_iff.mp hall).1 hword.1
  | hole => exact absurd (List.append_eq_nil_iff.mp hall).1 hword.1
  | move moves _ =>
    subst hall
    rw [moves.eq_ident (by simp) hword.1 hword.2 hend, joined_emissions, String.ofList_toList]
    exact ⟨_, _, rfl⟩

theorem Emits.opensTag {pos : Position} {rest : List Token} (h : Emits raw m es)
    (hm : m.body? = some body) (hes : joined es = ⟨.openAngle, pos⟩ :: rest) :
    OpensTag raw body es rest := by
  obtain ⟨seg, o, cs, more, h⟩ := h
  induction h generalizing rest with
  | stop => cases hes
  | @hole seg m _ _ _ _ hscan =>
    rw [joined_cons, push_eq (m.holeKind_ne_text seg)] at hes
    cases m <;> cases hes
  | move moves hscan ih =>
    cases moves with
    | openComment | closeComment =>
      cases hm
      exact ih rfl hes
    | comment => exact ih hm hes
    | blank | unquoted | closeTag | openQuote | equals | slash | ident | passOver | closeQuote
    | quoted => cases hm
    | openStart hne hname hfirst =>
      rw [joined_emissions] at hes
      cases hes
      cases hm
      refine .start ⟨⟨by simpa using hne, by simpa using hname⟩, ?_⟩ rfl hscan.emits
      rwa [String.toList_ofList]
    | openClose =>
      rw [joined_emissions] at hes
      cases hes
      cases hm
      exact .close rfl hscan.emits nofun
    | closeRaw hclose =>
      rw [joined_emissions] at hes
      cases hes
      cases hm
      refine .close rfl hscan.emits fun name hname hword => ?_
      cases hname
      exact joined_closeRaw hclose hword hscan
    | text | rawText =>
      rw [joined_emissions] at hes
      exact absurd rfl (rest_of_push hes).1

/-! ### The end of a tag -/

/-- The last of some emissions is a `/`, or there are none and `slash` says that one stands
    before them. -/
def EndsInSlash (slash : Bool) (es : List Emission) : Prop :=
  (es = [] ∧ slash = true) ∨ ∃ run p m, es = run ++ [⟨⟨.slash, p⟩, m⟩]

theorem EndsInSlash.cons {slash : Bool} {e : Emission}
    (h : EndsInSlash (e.token.kind == .slash) es) : EndsInSlash slash (e :: es) := by
  obtain ⟨⟨k, p⟩, m⟩ := e
  rcases h with ⟨rfl, hslash⟩ | ⟨run, p', m', rfl⟩
  · obtain rfl : k = .slash := by simpa using hslash
    exact Or.inr ⟨[], p, m, rfl⟩
  · exact Or.inr ⟨⟨⟨k, p⟩, m⟩ :: run, p', m', rfl⟩

/-- `ClosesTag raw startName slash es selfClosing rest`: the scanner emits `es`, in which a tag
    ends, and the tokens behind its `>` are `rest`.  Where the scanner counts a `/` before the
    `>`, the tag closes itself for the parser; where it does so for the parser, the token
    before the `>` is a `/`. -/
inductive ClosesTag (raw : NameSet) (startName : Option String) (slash : Bool) :
    List Emission → Bool → List Token → Prop where
  | intro {front es : List Emission} {p : Position} {t : InTag} {selfClosing : Bool}
      (scan : Emits raw (t.close raw) es) (hname : t.startName = startName)
      (hcounted : t.selfClosing = true → selfClosing = true)
      (hslash : selfClosing = true → EndsInSlash slash front) :
      ClosesTag raw startName slash (front ++ ⟨⟨.closeAngle, p⟩, .tag t⟩ :: es) selfClosing
        (joined es)

theorem closesTag_nil {p : Position} {t : InTag} {startName : Option String} {slash : Bool}
    (scan : Emits raw (t.close raw) es) (hname : t.startName = startName)
    (hcounted : t.selfClosing = true → slash = true) :
    ClosesTag raw startName slash (⟨⟨.closeAngle, p⟩, .tag t⟩ :: es) slash (joined es) := by
  rw [← List.nil_append (_ :: es)]
  exact .intro scan hname hcounted fun h => Or.inl ⟨rfl, h⟩

theorem ClosesTag.cons {startName : Option String} {slash selfClosing : Bool} {e : Emission}
    {rest : List Token} (h : ClosesTag raw startName (e.token.kind == .slash) es selfClosing rest) :
    ClosesTag raw startName slash (e :: es) selfClosing rest := by
  cases h with
  | intro scan hname hcounted hslash =>
    rw [← List.cons_append]
    exact .intro scan hname hcounted fun h => (hslash h).cons

/-- What the scanner knows inside a tag with the name `startName`.  It counts a `/` only if that
    is the last token, and it stands in no value then. -/
inductive Counts (startName : Option String) (slash : Bool) : Mode → Prop where
  | not {t : InTag} (hname : t.startName = startName) (ht : t.selfClosing = false) :
      Counts startName slash (.tag t)
  | slash (hslash : slash = true) : Counts startName slash (.tag ⟨startName, true, .outside⟩)
  | value {q : Quote} {t : InTag} (hname : t.startName = startName) (ht : t.selfClosing = false) :
      Counts startName slash (.value q t)

theorem Counts.startName_eq {startName : Option String} {slash : Bool} {t : InTag}
    (h : Counts startName slash (.tag t)) : t.startName = startName := by
  cases h with
  | not hname => exact hname
  | slash => rfl

theorem Counts.afterHole {startName : Option String} {slash slash' : Bool}
    (h : Counts startName slash m) (s : List Char) :
    Counts startName slash' (m.afterHole.resume s) := by
  have htag (t : InTag) (ht : t.startName = startName) (hclosing : t.selfClosing = false) :
      Counts startName slash' ((Mode.tag t).resume s) := by
    unfold Mode.resume
    split
    · next heq =>
      cases heq
      split
      · exact .not ht hclosing
      · exact .not ht hclosing
    · exact .not ht hclosing
  cases h with
  | not hname ht => exact htag _ hname rfl
  | slash => exact htag _ rfl rfl
  | value hname ht => cases s <;> exact .value hname ht

/-- A move that emits one token, which is not the end of the tag. -/
theorem ClosesTag.of_move {seg o : Nat} {move : Move} {k : TokenKind} {startName : Option String}
    {slash selfClosing : Bool} {rest : List Token} (hmove : move.emitted = [(0, k)])
    (hclose : k ≠ .closeAngle) (htext : ∀ value, k ≠ .text value)
    (hes : behindClose slash (joined (move.emissions seg o m ++ es)) = some (selfClosing, rest))
    (ih : behindClose (k == .slash) (joined es) = some (selfClosing, rest) →
      ClosesTag raw startName (k == .slash) es selfClosing rest) :
    ClosesTag raw startName slash (move.emissions seg o m ++ es) selfClosing rest := by
  rw [joined_emissions, hmove, List.foldr_cons, List.foldr_nil, push_eq htext,
    behindClose_cons hclose] at hes
  rw [Move.emissions, hmove]
  exact (ih hes).cons

/-- Where the tokens of the inside of a tag have a `>`, the scanner closes the tag there. -/
theorem Emits.closesTag {startName : Option String} {slash selfClosing : Bool} {rest : List Token}
    (h : Emits raw m es) (hm : Counts startName slash m)
    (hes : behindClose slash (joined es) = some (selfClosing, rest)) :
    ClosesTag raw startName slash es selfClosing rest := by
  obtain ⟨seg, o, cs, more, h⟩ := h
  induction h generalizing slash with
  | stop => cases hes
  | @hole seg m _ _ _ _ _ ih =>
    have hne : m.holeKind seg ≠ .closeAngle := by cases m <;> nofun
    rw [joined_cons, push_eq (m.holeKind_ne_text seg), behindClose_cons hne] at hes
    exact (ih (hm.afterHole _) hes).cons
  | move moves hscan ih =>
    cases moves with
    | blank =>
      cases hm with
      | not hname ht => exact ih (.not hname ht) hes
      | slash hslash => exact ih (.slash hslash) hes
    | closeTag =>
      rw [joined_emissions] at hes
      cases hes
      cases hm with
      | not hname ht =>
        exact closesTag_nil hscan.emits hname (by simp [ht])
      | slash hslash =>
        exact closesTag_nil hscan.emits rfl fun _ => hslash
    | unquoted ht =>
      cases hm with
      | not hname hclosing =>
        exact .of_move rfl nofun (fun _ => nofun) hes fun hes => ih (.not hname hclosing) hes
      | slash => cases ht
    | openQuote =>
      have hname := hm.startName_eq
      exact .of_move rfl nofun (fun _ => nofun) hes fun hes => ih (.value hname rfl) hes
    | equals | ident =>
      have hname := hm.startName_eq
      exact .of_move rfl nofun (fun _ => nofun) hes fun hes => ih (.not hname rfl) hes
    | @slash t =>
      obtain rfl : t.startName = startName := hm.startName_eq
      exact .of_move rfl nofun (fun _ => nofun) hes fun hes => ih (.slash rfl) hes
    | passOver => exact ih (.not hm.startName_eq rfl) hes
    | closeQuote =>
      cases hm with
      | value hname hclosing =>
        exact .of_move rfl nofun (fun _ => nofun) hes fun hes => ih (.not hname hclosing) hes
    | quoted =>
      cases hm with
      | value hname hclosing =>
        exact .of_move rfl nofun (fun _ => nofun) hes fun hes => ih (.value hname hclosing) hes
    | _ => cases hm

end

/-! ### The two together -/

/-- `Overlooked raw name es`: the emissions `es` end in raw text of `name` that the scanner has
    begun behind a tag whose last token is a `/`.  The scanner does not count that `/` any
    more at the `>`. -/
def Overlooked (raw : NameSet) (name : String) (es : List Emission) : Prop :=
  ∃ run p m p' t body,
    es = run ++ ⟨⟨.slash, p⟩, m⟩ :: ⟨⟨.closeAngle, p'⟩, .tag t⟩ :: body ∧
      t.selfClosing = false ∧ t.close raw = .raw name ∧ ∀ e ∈ body, e.mode = .raw name

/-- `Synced raw front body names`: behind the emissions `front` the scanner reads `body`, while
    the elements `names` are open, the innermost first. -/
inductive Synced (raw : NameSet) (front : List Emission) : Option String → List String → Prop where
  | outside {names : List String} (hnames : ∀ n ∈ names, raw.contains n = false) :
      Synced raw front none names
  | inside {name : String} {names : List String} (hraw : raw.contains name = true)
      (hword : IsWord name) (hnames : ∀ n ∈ names, raw.contains n = false) :
      Synced raw front (some name) (name :: names)
  | overlooked {name : String} {names : List String} (hraw : raw.contains name = true)
      (hword : IsWord name) (hnames : ∀ n ∈ names, raw.contains n = false)
      (h : Overlooked raw name front) : Synced raw front (some name) names

/-- No table says of one element that it has no content and that its content is raw text. -/
def TablesApart (void raw : NameSet) : Prop :=
  ∀ name, raw.contains name = true → void.contains name = false

theorem TablesApart.isVoid {void raw : NameSet} (h : TablesApart void raw) {name : String}
    (hname : raw.contains name = true) : isVoid void name = false := by
  rw [Stencil.Markup.isVoid, h name hname, Bool.and_false]

theorem Synced.append {raw : NameSet} {front more : List Emission} {body : Option String}
    {names : List String} (h : Synced raw front body names)
    (hmore : ∀ e ∈ more, e.mode.body? = some body) : Synced raw (front ++ more) body names := by
  cases h with
  | outside hnames => exact .outside hnames
  | inside hraw hword hnames => exact .inside hraw hword hnames
  | @overlooked name names hraw hword hnames h =>
    obtain ⟨run, p, m, p', t, body, rfl, hcount, hclose, hbody⟩ := h
    refine .overlooked hraw hword hnames ⟨run, p, m, p', t, body ++ more, ?_, hcount, hclose, ?_⟩
    · simp
    · intro e he
      rcases List.mem_append.mp he with he | he
      · exact hbody e he
      · exact Mode.eq_raw_of_body (hmore e he)

theorem Synced.isWord {raw : NameSet} {front : List Emission} {body : Option String}
    {names : List String} (h : Synced raw front body names) : ∀ name ∈ body, IsWord name := by
  intro name hname
  cases h with
  | outside => cases hname
  | inside _ hword | overlooked _ hword =>
    cases hname
    exact hword

/-- The names of the open elements. -/
def Build.names (b : Build) : List String := b.stack.map (·.tag.name)

@[simp] theorem Build.names_addChild (b : Build) (n : Node) : (b.addChild n).names = b.names := by
  obtain ⟨root, stack, slot⟩ := b
  cases stack <;> rfl

theorem Build.names_openTag {void : NameSet} (b : Build) (name : String) (attrs : List Attr)
    (selfClosing : Bool) (pos : Position) :
    (b.openTag void name attrs selfClosing pos).names =
      if selfClosing || isVoid void name then b.names else name :: b.names := by
  split
  · next hleaf =>
    rw [openTag_leaf hleaf]
    exact map_stack_grow b _ fun tag _ => tag.name
  · next hpush =>
    obtain ⟨rfl, hname⟩ : selfClosing = false ∧ isVoid void name = false := by simpa using hpush
    rw [openTag_push hname]
    rfl

theorem Build.names_closeTop {b : Build} {o : OpenElement} {rest : List OpenElement}
    (h : b.stack = o :: rest) : b.closeTop.names = rest.map (·.tag.name) := by
  rw [closeTop, h]
  exact names_addChild _ _

/-- A close tag that is accepted says nothing, or closes the innermost open element. -/
theorem Build.closeTag_cases {void : NameSet} {b b' : Build} {name? : Option String}
    {pos : Position} (h : b.closeTag void name? pos = .ok b') :
    (b' = b ∧ ∃ name, name? = some name ∧ isVoid void name = true) ∨
      ∃ o rest, b.stack = o :: rest ∧ b' = b.closeTop ∧ ∀ name ∈ name?, o.tag.name = name := by
  cases name? with
  | none =>
    cases hstack : b.stack with
    | nil => simp [closeTag, hstack] at h
    | cons o rest =>
      simp only [closeTag, hstack] at h
      cases h
      exact Or.inr ⟨o, rest, rfl, rfl, nofun⟩
  | some name =>
    cases hvoid : isVoid void name with
    | true =>
      simp only [closeTag, hvoid, if_true] at h
      cases h
      exact Or.inl ⟨rfl, name, rfl, hvoid⟩
    | false =>
      cases hstack : b.stack with
      | nil => simp [closeTag, hvoid, hstack] at h
      | cons o rest =>
        simp only [closeTag, hvoid, hstack, Bool.false_eq_true, if_false] at h
        split at h
        · next hname =>
          cases h
          exact Or.inr ⟨o, rest, rfl, rfl, by simpa using hname⟩
        · cases h

/-- Behind the start tag of an element. -/
theorem Synced.open_tag {void raw : NameSet} (hapart : TablesApart void raw)
    (front : List Emission) {run : List Emission} (p : Position) {name : String}
    {names : List String} (hword : IsWord name) (hnames : ∀ n ∈ names, raw.contains n = false)
    {t : InTag} {selfClosing : Bool}
    (hname : t.startName = some name) (hcounted : t.selfClosing = true → selfClosing = true)
    (hslash : selfClosing = true → EndsInSlash false run) :
    ∃ body, (t.close raw).body? = some body ∧
      Synced raw (front ++ (run ++ [⟨⟨.closeAngle, p⟩, .tag t⟩])) body
        (if selfClosing || isVoid void name then names else name :: names) := by
  have hclose : t.close raw = if raw.contains name && !t.selfClosing then .raw name else .text := by
    rw [InTag.close, hname]
  cases hraw : raw.contains name with
  | false =>
    rw [hraw, Bool.false_and] at hclose
    refine ⟨none, by rw [hclose]; rfl, .outside ?_⟩
    split
    · exact hnames
    · exact List.forall_mem_cons.mpr ⟨hraw, hnames⟩
  | true =>
    rw [hraw, Bool.true_and] at hclose
    rw [hapart.isVoid hraw, Bool.or_false]
    cases hcount : t.selfClosing with
    | true =>
      rw [hcount] at hclose
      rw [hcounted hcount]
      exact ⟨none, by rw [hclose]; rfl, .outside hnames⟩
    | false =>
      rw [hcount] at hclose
      refine ⟨some name, by rw [hclose]; rfl, ?_⟩
      cases hself : selfClosing with
      | false => exact .inside hraw hword hnames
      | true =>
        rcases hslash hself with ⟨-, hno⟩ | ⟨run', p', m, rfl⟩
        · cases hno
        · refine .overlooked hraw hword hnames
            ⟨front ++ run', p', m, p, t, [], ?_, hcount, hclose, ?_⟩
          · simp
          · intro e he
            cases he

/-- Behind a close tag no open element is one of raw text: raw text is left by the close tag of
    its element only, and where none is open the parser refuses that. -/
theorem Synced.close_tag {void raw : NameSet} (hapart : TablesApart void raw)
    {front : List Emission} {body name? : Option String} {b b' : Build} {pos : Position}
    (h : Synced raw front body b.names) (hbody : ∀ name ∈ body, name? = some name)
    (hadd : b.closeTag void name? pos = .ok b') : ∀ n ∈ b'.names, raw.contains n = false := by
  generalize hall : b.names = names at h
  cases h with
  | outside hnames =>
    rcases Build.closeTag_cases hadd with ⟨rfl, -⟩ | ⟨o, rest, hstack, rfl, -⟩
    · rwa [hall]
    · rw [Build.names_closeTop hstack]
      rw [Build.names, hstack] at hall
      subst hall
      exact (List.forall_mem_cons.mp hnames).2
  | @inside name names hraw _ hnames =>
    obtain rfl := hbody name rfl
    rcases Build.closeTag_cases hadd with ⟨-, _, heq, hvoid⟩ | ⟨o, rest, hstack, rfl, -⟩
    · cases heq
      rw [hapart.isVoid hraw] at hvoid
      cases hvoid
    · rw [Build.names_closeTop hstack]
      rw [Build.names, hstack] at hall
      cases hall
      exact hnames
  | @overlooked name names hraw _ hnames =>
    obtain rfl := hbody name rfl
    rcases Build.closeTag_cases hadd with ⟨-, _, heq, hvoid⟩ | ⟨o, rest, hstack, rfl, hname⟩
    · cases heq
      rw [hapart.isVoid hraw] at hvoid
      cases hvoid
    · rw [Build.names, hstack] at hall
      subst hall
      have hother := hnames o.tag.name List.mem_cons_self
      rw [hname name rfl, hraw] at hother
      cases hother

/-- `Standing raw all r`: the emissions `all` have come to the point where the parser stands,
    and the scanner reads there what the open elements ask for, unless it has overlooked
    that a tag closes itself. -/
def Standing (raw : NameSet) (all : List Emission) (r : ParserState) : Prop :=
  ∃ front es m body, all = front ++ es ∧ r.rest = joined es ∧ Emits raw m es ∧
    m.body? = some body ∧ Synced raw front body r.tree.names

theorem Standing.over {raw : NameSet} {all : List Emission} {b b' : Build}
    {before before' : Option TokenKind} {t : Token} {rest : List Token}
    (h : Standing raw all ⟨b, before, t :: rest⟩) (ht : t.kind ≠ .openAngle)
    (hb : b'.names = b.names) : Standing raw all ⟨b', before', rest⟩ := by
  obtain ⟨front, es, m, body, rfl, hrest, hscan, hm, hsynced⟩ := h
  cases hscan.readsOn hm hrest.symm ht with
  | @intro more es m' hscan' hm' hmore =>
    refine ⟨front ++ more, es, m', body, (List.append_assoc ..).symm, rfl, hscan', hm', ?_⟩
    rw [hb]
    exact hsynced.append hmore

theorem Standing.tag {void raw : NameSet} (hapart : TablesApart void raw) {all : List Emission}
    {stop pos : Position} {b b' : Build} {before before' : Option TokenKind}
    {rest rest' : List Token} {p : Piece}
    (h : Standing raw all ⟨b, before, ⟨.openAngle, pos⟩ :: rest⟩)
    (htag : IsTag stop pos rest p rest') (hadd : b.add void p = .ok b') :
    Standing raw all ⟨b', before', rest'⟩ := by
  obtain ⟨front, es, m, body, rfl, hrest, hscan, hm, hsynced⟩ := h
  cases hscan.opensTag hm hrest.symm with
  | @start e e' name pos' es hname he hscan' =>
    cases hsynced with
    | outside hnames =>
    cases htag with
    | @start _ _ _ _ attrs selfClosing scan =>
      cases hscan'.closesTag (.not rfl rfl) (behindClose_readAttrs scan) with
      | @intro run es p t _ hscan'' hstart hcounted hslash =>
        obtain ⟨body, hbody, hsynced'⟩ := Synced.open_tag hapart (front ++ [e, e']) p hname.1
          hnames hstart hcounted hslash
        rw [← Build.names_openTag b name attrs selfClosing pos] at hsynced'
        cases hadd
        refine ⟨_, es, _, body, ?_, rfl, hscan'', hbody, hsynced'⟩
        simp
  | @close _ e e' pos' es he hscan' hbody =>
    have hleave (name? : Option String) (selfClosing : Bool)
        (hname : ∀ name ∈ body, name? = some name)
        (hclosed : b.closeTag void name? pos = .ok b')
        (hclose : behindClose false (joined es) = some (selfClosing, rest')) :
        Standing raw (front ++ e :: e' :: es) ⟨b', before', rest'⟩ := by
      cases hscan'.closesTag (.not rfl rfl) hclose with
      | @intro run es p t _ hscan'' hstart =>
        have hbody' : (t.close raw).body? = some none := by rw [InTag.close, hstart]; rfl
        refine ⟨front ++ (e :: e' :: (run ++ [⟨⟨.closeAngle, p⟩, .tag t⟩])), es, _, none, ?_, rfl,
          hscan'', hbody', .outside (hsynced.close_tag hapart hname hclosed)⟩
        simp
    generalize htokens : joined es = ts at htag
    cases htag with
    | @close name' p₁ p₂ p₃ =>
      refine hleave (some name') false (fun name hname => ?_) hadd ?_
      · obtain ⟨pos'', ts, heq⟩ := hbody name hname (hsynced.isWord name hname)
        rw [htokens] at heq
        cases heq
        rfl
      · rw [htokens]
        rfl
    | closeAny =>
      refine hleave none true (fun name hname => ?_) hadd ?_
      · obtain ⟨pos'', ts, heq⟩ := hbody name hname (hsynced.isWord name hname)
        rw [htokens] at heq
        cases heq
      · rw [htokens]
        rfl

theorem Standing.step {void raw : NameSet} (hapart : TablesApart void raw) {all : List Emission}
    {stop : Position} {r r' : ParserState} (h : Standing raw all r)
    (hstep : Advance void stop r r') :
    Standing raw all r' := by
  cases hstep with
  | text hkeep hadd =>
    cases hadd
    exact h.over nofun (Build.names_addChild _ _)
  | layout => exact h.over nofun rfl
  | hole hadd =>
    cases hadd
    exact h.over nofun (Build.names_addChild _ _)
  | commentHole => exact h.over nofun rfl
  | tag hread hadd => exact h.tag hapart (isTag_of_readTag hread) hadd

theorem Reached.standing {void raw : NameSet} (hapart : TablesApart void raw) {stop : Position}
    {segments : List String} {r : ParserState} (h : Reached void stop (tokenize raw segments) r) :
    Standing raw (emissions raw segments) r := by
  induction h with
  | start =>
    obtain ⟨m, hm, hscan⟩ := emits_emissions raw segments
    exact ⟨[], _, m, none, rfl, tokenize_eq_joined raw segments, hscan, hm, .outside nofun⟩
  | step _ hstep ih => exact ih.step hapart hstep

/-- A start tag is read only where no open element is one of raw text. -/
theorem Standing.outside {raw : NameSet} {all : List Emission} {b : Build}
    {before : Option TokenKind} {pos p : Position} {name : String} {rest : List Token}
    (h : Standing raw all ⟨b, before, ⟨.openAngle, pos⟩ :: ⟨.ident name, p⟩ :: rest⟩) :
    ∀ n ∈ b.names, raw.contains n = false := by
  obtain ⟨front, es, m, body, -, hrest, hscan, hm, hsynced⟩ := h
  generalize htokens : (⟨.ident name, p⟩ :: rest : List Token) = tokens at hrest
  cases hscan.opensTag hm hrest.symm with
  | start =>
    cases hsynced with
    | outside hnames => exact hnames
  | close => cases htokens

/-- Around the innermost open element none is one of raw text. -/
theorem Standing.around {raw : NameSet} {all : List Emission} {r : ParserState}
    (h : Standing raw all r) : ∀ n ∈ r.tree.names.tail, raw.contains n = false := by
  obtain ⟨front, es, m, body, -, -, -, -, hsynced⟩ := h
  generalize r.tree.names = names at hsynced
  cases hsynced with
  | outside hnames | overlooked _ _ hnames => exact fun n hn => hnames n (List.mem_of_mem_tail hn)
  | inside _ _ hnames => exact hnames

/-! ### The tree -/

/-- Whether a node is an element. -/
def Node.isElement : Node → Bool
  | element _ _ => true
  | _ => false

/-- The children of an element `name` are no elements, if it is one of raw text. -/
def PlainIn (raw : NameSet) (name : String) (children : List Node) : Prop :=
  raw.contains name = true → ∀ n ∈ children, n.isElement = false

mutual

/-- The elements of raw text in a tree have only texts and holes as children. -/
def Node.KeepsRaw (raw : NameSet) : Node → Prop
  | .text _ => True
  | .hole _ => True
  | .element tag children => PlainIn raw tag.name children ∧ KeepsRawAll raw children

/-- The same for several trees. -/
def KeepsRawAll (raw : NameSet) : List Node → Prop
  | [] => True
  | n :: ns => n.KeepsRaw raw ∧ KeepsRawAll raw ns

end

theorem keepsRawAll_iff {raw : NameSet} {ns : List Node} :
    KeepsRawAll raw ns ↔ ∀ n ∈ ns, n.KeepsRaw raw := by
  induction ns with
  | nil => exact ⟨fun _ => nofun, fun _ => trivial⟩
  | cons n ns ih => rw [KeepsRawAll, ih, List.forall_mem_cons]

/-- The elements of raw text in a tree under construction, those that are open among them, have
    only texts and holes as children. -/
structure Build.KeepsRaw (raw : NameSet) (b : Build) : Prop where
  root : KeepsRawAll raw b.root
  opened : ∀ o ∈ b.stack, PlainIn raw o.tag.name o.children ∧ KeepsRawAll raw o.children

namespace Build.KeepsRaw

variable {raw : NameSet} {b : Build}

/-- A node may be put at the end of the innermost open element, unless it is an element and the
    open one is of raw text. -/
theorem grow (h : b.KeepsRaw raw) {n : Node} (hn : n.KeepsRaw raw)
    (hplain : n.isElement = true → ∀ name ∈ b.names.head?, raw.contains name = false)
    (slot : Nat) : (b.grow ([n], slot)).KeepsRaw raw := by
  have hall {ns : List Node} (hns : KeepsRawAll raw ns) : KeepsRawAll raw (ns ++ [n]) := by
    rw [keepsRawAll_iff] at hns ⊢
    rw [List.forall_mem_append]
    exact ⟨hns, List.forall_mem_singleton.mpr hn⟩
  obtain ⟨root, stack, slot⟩ := b
  cases stack with
  | nil => exact ⟨hall h.root, nofun⟩
  | cons o rest =>
    obtain ⟨ho, hrest⟩ := List.forall_mem_cons.mp h.opened
    refine ⟨h.root, List.forall_mem_cons.mpr ⟨⟨?_, hall ho.2⟩, hrest⟩⟩
    intro hraw
    rw [List.forall_mem_append]
    refine ⟨ho.1 hraw, List.forall_mem_singleton.mpr ?_⟩
    rw [Bool.eq_false_iff]
    intro helement
    rw [hplain helement o.tag.name rfl] at hraw
    cases hraw

theorem addChild (h : b.KeepsRaw raw) {n : Node} (hn : n.KeepsRaw raw)
    (hplain : n.isElement = true → ∀ name ∈ b.names.head?, raw.contains name = false) :
    (b.addChild n).KeepsRaw raw := by
  rw [addChild_eq]
  exact h.grow hn hplain _

theorem closeTop (h : b.KeepsRaw raw) (haround : ∀ n ∈ b.names.tail, raw.contains n = false) :
    b.closeTop.KeepsRaw raw := by
  obtain ⟨root, stack, slot⟩ := b
  cases stack with
  | nil => exact h
  | cons o rest =>
    obtain ⟨ho, hrest⟩ := List.forall_mem_cons.mp h.opened
    have hbelow : Build.KeepsRaw raw ⟨root, rest, slot⟩ := ⟨h.root, hrest⟩
    exact hbelow.addChild ho fun _ name hname => haround name (List.mem_of_mem_head? hname)

theorem openTag (h : b.KeepsRaw raw) (hnames : ∀ n ∈ b.names, raw.contains n = false)
    (void : NameSet) (name : String) (attrs : List Attr) (selfClosing : Bool) (pos : Position) :
    (b.openTag void name attrs selfClosing pos).KeepsRaw raw := by
  by_cases hleaf : (selfClosing || isVoid void name) = true
  · have hempty (tag : Tag) : (Node.element tag []).KeepsRaw raw := ⟨fun _ => nofun, trivial⟩
    rw [openTag_leaf hleaf]
    exact h.grow (hempty _) (fun _ n hn => hnames n (List.mem_of_mem_head? hn)) _
  · obtain ⟨rfl, hname⟩ : selfClosing = false ∧ isVoid void name = false := by simpa using hleaf
    rw [openTag_push hname]
    exact ⟨h.root, List.forall_mem_cons.mpr ⟨⟨fun _ => nofun, trivial⟩, h.opened⟩⟩

theorem step {void : NameSet} {all : List Emission} {stop : Position} {r r' : ParserState}
    (h : r.tree.KeepsRaw raw) (hstanding : Standing raw all r) (hstep : Advance void stop r r') :
    r'.tree.KeepsRaw raw := by
  cases hstep with
  | text _ hadd | hole hadd =>
    cases hadd
    exact h.addChild trivial nofun
  | layout | commentHole => exact h
  | tag hread hadd =>
    cases isTag_of_readTag hread with
    | start =>
      cases hadd
      exact h.openTag hstanding.outside _ _ _ _ _
    | close | closeAny =>
      rw [Build.add] at hadd
      rcases Build.closeTag_cases hadd with ⟨rfl, -⟩ | ⟨o, rest, -, rfl, -⟩
      · exact h
      · exact h.closeTop hstanding.around

end Build.KeepsRaw

theorem Reached.keepsRaw {void raw : NameSet} (hapart : TablesApart void raw) {stop : Position}
    {segments : List String} {r : ParserState} (h : Reached void stop (tokenize raw segments) r) :
    r.tree.KeepsRaw raw := by
  induction h with
  | start => exact ⟨trivial, nofun⟩
  | step h hstep ih => exact ih.step (h.standing hapart) hstep

/-! ### Texts outside of raw text -/

theorem Moves.taken_append_rest {raw : NameSet} {m : Mode} {cs : List Char} {move : Move}
    (h : Moves raw m cs move) : move.taken ++ move.rest = cs := by
  cases h <;> simp

/-- `PlainText segments t value`: the text `value` is written in the segments at the place of
    the token `t`, and in no place of it a tag or a comment begins there. -/
def PlainText (segments : List (List Char)) (t : Token) (value : String) : Prop :=
  ∃ front back, segments[t.pos.segment]? = some (front ++ (value.toList ++ back)) ∧
    byteLength front = t.pos.offset ∧ PassesNowhere opensMarkup value.toList back

theorem Scan.plainText {raw : NameSet} {segments : List (List Char)} {seg o : Nat} {m : Mode}
    {cs : List Char} {more : List (List Char)} {es : List Emission}
    (h : Scan raw seg m o cs more es) {front : List Char}
    (hseg : segments[seg]? = some (front ++ cs)) (hfront : byteLength front = o)
    (hmore : segments.drop (seg + 1) = more) {e : Emission} (he : e ∈ es) {value : String}
    (hvalue : e.token.kind = .text value) (hmode : ∀ name, e.mode ≠ .raw name) :
    PlainText segments e.token value := by
  -- the front grows by what is taken, and begins anew in the next segment
  induction h generalizing front with
  | stop => cases he
  | @hole seg m _ s more _ _ ih =>
    rcases List.mem_cons.mp he with rfl | he
    · exact absurd hvalue (m.holeKind_ne_text seg value)
    · have hnext : segments[seg + 1]? = some s := by
        rw [← List.head?_drop, hmore, List.head?_cons]
      have hrest : segments.drop (seg + 1 + 1) = more := by
        rw [← List.drop_drop, hmore, List.drop_one, List.tail_cons]
      exact ih (show _ = some ([] ++ s) from hnext) rfl hrest he
  | @move seg m o cs more move es moves _ ih =>
    rcases List.mem_append.mp he with he | he
    · cases moves with
      | @text body r _ hplain =>
        obtain rfl := List.mem_singleton.mp he
        cases hvalue
        refine ⟨front, r, ?_, hfront, ?_⟩
        · rw [String.toList_ofList]
          exact hseg
        · rwa [String.toList_ofList]
      | rawText =>
        obtain rfl := List.mem_singleton.mp he
        exact absurd rfl (hmode _)
      | openComment | closeComment | comment | blank | passOver => cases he
      | openStart | openClose | closeRaw =>
        rcases List.mem_cons.mp he with rfl | he
        · cases hvalue
        · obtain rfl := List.mem_singleton.mp he
          cases hvalue
      | _ =>
        obtain rfl := List.mem_singleton.mp he
        cases hvalue
    · rw [← moves.taken_append_rest, ← List.append_assoc] at hseg
      exact ih hseg (by rw [Text.byteLength_append, hfront]) hmore he

theorem plainText_of_mem {raw : NameSet} {segments : List String} {e : Emission}
    (he : e ∈ emissions raw segments) {value : String} (hvalue : e.token.kind = .text value)
    (hmode : ∀ name, e.mode ≠ .raw name) :
    PlainText (segments.map String.toList) e.token value := by
  rw [emissions] at he
  split at he
  · cases he
  · next s more hsegments =>
    rw [hsegments]
    exact (scan_emissionsFrom raw 0 .text 0 s more).plainText
      (show (s :: more)[0]? = some ([] ++ s) from rfl) rfl rfl he hvalue hmode

/-! ### Agreement -/

section
variable {raw : NameSet} {front : List Emission} {body : Option String} {names : List String}
  {m : Mode}

/-- In an element of raw text the scanner reads its raw text. -/
theorem Synced.reads (h : Synced raw front body names) (hm : m.body? = some body) :
    ∀ name ∈ names.head?, raw.contains name = true → m = .raw name := by
  intro name hname hraw
  have hnot (hnames : ∀ n ∈ names, raw.contains n = false) : m = .raw name := by
    rw [hnames name (List.mem_of_mem_head? hname)] at hraw
    cases hraw
  cases h with
  | outside hnames => exact hnot hnames
  | inside =>
    cases hname
    exact Mode.eq_raw_of_body hm
  | overlooked _ _ hnames => exact hnot hnames

theorem Synced.reads_iff (h : Synced raw front body names) (hm : m.body? = some body) :
    (∃ name, m = .raw name) ↔
      (∃ name ∈ names.head?, raw.contains name = true) ∨
        ∃ name, m = .raw name ∧ Overlooked raw name front := by
  constructor
  · rintro ⟨name, rfl⟩
    cases hm
    cases h with
    | inside hraw => exact Or.inl ⟨name, rfl, hraw⟩
    | overlooked _ _ _ hover => exact Or.inr ⟨name, rfl, hover⟩
  · rintro (⟨name, hname, hraw⟩ | ⟨name, hmode, -⟩)
    · exact ⟨name, h.reads hm name hname hraw⟩
    · exact ⟨name, hmode⟩

end

/-- **Raw text is what the parser takes for it, but for tags that are overlooked.**  Take tables
    that have no element in common.

    Parsing succeeds where the parser gets to the end.  Wherever it stands between two tags,
    the next token is emitted while the scanner reads raw text if and only if the innermost
    open element is one of raw text, or the scanner has overlooked that the tag before that
    text closes itself; in the first case it reads the raw text of that very element.  So in
    each tree the elements of raw text have only texts and holes as children.  And a text that
    the scanner reads anywhere else has no tag or comment in it, as it is written. -/
theorem rawText_synced (void raw : NameSet) (hapart : TablesApart void raw)
    (segments : List String) :
    (∀ tree, parse void raw segments = .ok tree ↔
      ∃ b before, Reached void (lastPosition (tokenize raw segments)) (tokenize raw segments)
        ⟨b, before, []⟩ ∧ b.finish = .ok tree) ∧
    (∀ stop b before t rest, Reached void stop (tokenize raw segments) ⟨b, before, t :: rest⟩ →
      ∃ front e back, emissions raw segments = front ++ e :: back ∧
        t :: rest = joined (e :: back) ∧
        ((∃ name, e.mode = .raw name) ↔
          (∃ name ∈ b.names.head?, raw.contains name = true) ∨
            ∃ name, e.mode = .raw name ∧ Overlooked raw name front) ∧
        ∀ name ∈ b.names.head?, raw.contains name = true → e.mode = .raw name) ∧
    (∀ tree, parse void raw segments = .ok tree → KeepsRawAll raw tree.children) ∧
    (∀ e ∈ emissions raw segments, ∀ value, e.token.kind = .text value →
      (∃ name, e.mode = .raw name) ∨ PlainText (segments.map String.toList) e.token value) := by
  refine ⟨fun tree => parseTokens_eq_ok_iff, ?_, ?_, ?_⟩
  · intro stop b before t rest hreached
    obtain ⟨front, es, m, body, hes, hrest, hscan, hm, hsynced⟩ := hreached.standing hapart
    cases es with
    | nil => cases hrest
    | cons e back =>
      have he : e.mode.body? = some body := hscan.first hm
      exact ⟨front, e, back, hes, hrest, hsynced.reads_iff he, hsynced.reads he⟩
  · intro tree hparse
    obtain ⟨b, before, hreached, hfinish⟩ := parseTokens_eq_ok_iff.mp hparse
    have hkeeps := hreached.keepsRaw hapart
    unfold Build.finish at hfinish
    split at hfinish
    · cases hfinish
      exact hkeeps.root
    · cases hfinish
  · intro e he value hvalue
    by_cases hmode : ∃ name, e.mode = .raw name
    · exact Or.inl hmode
    · exact Or.inr (plainText_of_mem he hvalue (not_exists.mp hmode))

theorem tablesApart_usual : TablesApart .voidElements .rawTextElements := by
  intro name hraw
  rw [Bool.eq_false_iff]
  intro hvoid
  rw [not_raw_of_void hvoid] at hraw
  cases hraw

/-- In `<title><b></title>` the scanner reads raw text before `<b>`, and the tree has a text
    there. -/
theorem rawText_synced_title :
    TablesApart .voidElements .rawTextElements ∧
    ∃ tree, parse .voidElements .rawTextElements ["<title><b></title>"] = .ok tree ∧
      KeepsRawAll .rawTextElements tree.children ∧
      ∀ e ∈ emissions .rawTextElements ["<title><b></title>"], ∀ value,
        e.token.kind = .text value → (∃ name, e.mode = .raw name) ∨
          PlainText (["<title><b></title>"].map String.toList) e.token value := by
  have hparse : parse .voidElements .rawTextElements ["<title><b></title>"] =
      .ok ⟨[.element ⟨"title", [], false, none⟩ [.text "<b>"]], 1⟩ := by decide +kernel
  have hall := rawText_synced .voidElements .rawTextElements tablesApart_usual
    ["<title><b></title>"]
  exact ⟨tablesApart_usual, _, hparse, hall.2.2.1 _ hparse, hall.2.2.2⟩

/-- The `!` is passed over, and leaves no token. -/
def overlookedSegments : List String := ["<script/!><b></b>"]

/-- Behind `<script/!>` no element is open, for the tag closes itself, and yet the scanner reads
    raw text: `<b></b>` becomes a text of the literal. -/
theorem slash_overlooked :
    TablesApart .voidElements .rawTextElements ∧
    parse .voidElements .rawTextElements overlookedSegments =
      .ok ⟨[.element ⟨"script", [], false, none⟩ [], .text "<b></b>"], 1⟩ ∧
    ∃ b before rest front e,
      Reached .voidElements (lastPosition (tokenize .rawTextElements overlookedSegments))
        (tokenize .rawTextElements overlookedSegments) ⟨b, before, rest⟩ ∧
      b.names = [] ∧ emissions .rawTextElements overlookedSegments = front ++ [e] ∧
      rest = joined [e] ∧ e.mode = .raw "script" := by
  have htokens : tokenize .rawTextElements overlookedSegments =
      [⟨.openAngle, ⟨0, 0⟩⟩, ⟨.ident "script", ⟨0, 1⟩⟩, ⟨.slash, ⟨0, 7⟩⟩, ⟨.closeAngle, ⟨0, 9⟩⟩,
        ⟨.text "<b></b>", ⟨0, 10⟩⟩] := by decide +kernel
  have hemissions : emissions .rawTextElements overlookedSegments =
      [⟨⟨.openAngle, ⟨0, 0⟩⟩, .text⟩, ⟨⟨.ident "script", ⟨0, 1⟩⟩, .text⟩,
        ⟨⟨.slash, ⟨0, 7⟩⟩, .tag ⟨some "script", false, .outside⟩⟩,
        ⟨⟨.closeAngle, ⟨0, 9⟩⟩, .tag ⟨some "script", false, .outside⟩⟩] ++
        [⟨⟨.text "<b></b>", ⟨0, 10⟩⟩, .raw "script"⟩] := by decide +kernel
  have htag : readTag ⟨0, 10⟩ ⟨0, 0⟩
      [⟨.ident "script", ⟨0, 1⟩⟩, ⟨.slash, ⟨0, 7⟩⟩, ⟨.closeAngle, ⟨0, 9⟩⟩,
        ⟨.text "<b></b>", ⟨0, 10⟩⟩] =
      .ok (.start "script" [] true ⟨0, 0⟩, [⟨.text "<b></b>", ⟨0, 10⟩⟩]) := by decide +kernel
  have hreached : Reached .voidElements _ _ _ := .step .start (.tag htag rfl)
  rw [htokens]
  exact ⟨tablesApart_usual, by decide +kernel, _, _, _, _, _, hreached, rfl, hemissions, rfl, rfl⟩

end Stencil.Markup
