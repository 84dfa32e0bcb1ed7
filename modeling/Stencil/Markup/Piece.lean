/-
  Stencil/Markup/Piece.lean
  =========================
  **Whole tags.**

  Between the tokens and the tree stand the *pieces*: texts, holes, start tags with
  their attributes, and close tags.  Reading them looks at one tag at a time and
  knows nothing of nesting.  Reading stops at the first tag that is not complete or
  at a token that begins nothing, so a list of tokens has a list of pieces and
  perhaps an error that ends it.

  A blank text between two tags only lays out the source, so a text of blanks that
  touches the edge of a tag, or an end of the literal, is no piece.
-/
import Stencil.Markup.Error
import Stencil.Markup.Reference
import Stencil.Markup.Tree
import Stencil.Text.Blank
import Stencil.Text.Cut

namespace Stencil.Markup

/-- A piece of a literal.  A close tag without a name closes whatever is open; a
    text is as written, its references not yet replaced. -/
inductive Piece where
  | text (value : String)
  | hole (index : Nat)
  | start (name : String) (attrs : List Attr) (selfClosing : Bool) (pos : Position)
  | close (name : Option String) (pos : Position)
deriving DecidableEq, Repr

/-! ### Attribute values -/

/-- An attribute whose value has the given pieces. -/
def Attr.ofParts (name : String) (parts : List AttrPart) (quote : Option Quote) : Attr :=
  match parts with
  | [] => .fixed name "" quote
  | [.text value] => .fixed name (decodeReferences value) quote
  | [.hole i] => .dynamic name i quote
  | parts =>
    .mixed name
      (parts.map fun
        | .text value => .text (decodeReferences value)
        | .hole i => .hole i)
      quote

/-- The pieces of a value in quotes, up to the closing quote, and what follows it.
    `stop` is the place that is reported when the input ends. -/
def readQuoted (stop : Position) (q : Quote) :
    List Token → Except ParseError (List AttrPart × List Token)
  | [] => .error ⟨.unexpectedEnd, stop⟩
  | t :: ts =>
    match t.kind with
    | .quote q' =>
      if q' = q then .ok ([], ts) else .error ⟨.unexpected t.kind, t.pos⟩
    | .fragment value =>
      match readQuoted stop q ts with
      | .ok (parts, rest) => .ok (.text value :: parts, rest)
      | .error e => .error e
    | .hole i =>
      match readQuoted stop q ts with
      | .ok (parts, rest) => .ok (.hole i :: parts, rest)
      | .error e => .error e
    | k => .error ⟨.unexpected k, t.pos⟩

/-- The pieces of an unquoted value: as long as each begins where the one before it
    ends.  A hole at the end of a segment ends where the next segment begins. -/
def readTouching (ends : Option Position) : List Token → List AttrPart × List Token
  | [] => ([], [])
  | t :: ts =>
    if ends.any (· != t.pos) then ([], t :: ts)
    else
      match t.kind with
      | .fragment value =>
        let next := ⟨t.pos.segment, t.pos.offset + Text.byteLength value.toList⟩
        let (parts, rest) := readTouching (some next) ts
        (.text value :: parts, rest)
      | .hole i =>
        let (parts, rest) := readTouching (some ⟨i + 1, 0⟩) ts
        (.hole i :: parts, rest)
      | _ => ([], t :: ts)

/-- The attribute `name` with the value that follows its `=`. -/
def readValue (stop : Position) (name : String) :
    List Token → Except ParseError (Attr × List Token)
  | [] => .error ⟨.unexpectedEnd, stop⟩
  | t :: ts =>
    match t.kind with
    | .quote q =>
      match readQuoted stop q ts with
      | .ok (parts, rest) => .ok (.ofParts name parts (some q), rest)
      | .error e => .error e
    | .ident value => .ok (.fixed name (decodeReferences value) none, ts)
    | .hole _ | .fragment _ =>
      let (parts, rest) := readTouching none (t :: ts)
      .ok (.ofParts name parts none, rest)
    | _ => .ok (.fixed name "" none, t :: ts)

theorem length_of_readQuoted {stop : Position} {q : Quote} {ts rest : List Token}
    {parts : List AttrPart} (h : readQuoted stop q ts = .ok (parts, rest)) :
    rest.length < ts.length := by
  induction ts generalizing parts with
  | nil => simp [readQuoted] at h
  | cons t ts ih =>
    simp only [readQuoted] at h
    split at h
    · split at h <;> simp_all
    · split at h
      · next heq => injection h with h; cases h; exact Nat.lt_succ_of_lt (ih heq)
      · simp at h
    · split at h
      · next heq => injection h with h; cases h; exact Nat.lt_succ_of_lt (ih heq)
      · simp at h
    · simp at h

theorem length_readTouching (ends : Option Position) (ts : List Token) :
    (readTouching ends ts).2.length ≤ ts.length := by
  induction ts generalizing ends with
  | nil => simp [readTouching]
  | cons t ts ih =>
    simp only [readTouching]
    split
    · simp
    · split
      · exact Nat.le_succ_of_le (ih _)
      · exact Nat.le_succ_of_le (ih _)
      · simp

theorem length_of_readValue {stop : Position} {name : String} {ts rest : List Token} {a : Attr}
    (h : readValue stop name ts = .ok (a, rest)) : rest.length ≤ ts.length := by
  cases ts with
  | nil => simp [readValue] at h
  | cons t ts =>
    simp only [readValue] at h
    split at h
    · split at h
      · next heq => injection h with h; cases h; have := length_of_readQuoted heq; simp; omega
      · simp at h
    · injection h with h; cases h; simp
    · injection h with h; cases h; exact length_readTouching none (t :: ts)
    · injection h with h; cases h; exact length_readTouching none (t :: ts)
    · injection h with h; cases h; simp

/-! ### Tags -/

/-- The mark that makes the hole behind it a spread. -/
def spreadMark : String := "..."

/-- The name that a hole gets which stands where an attribute name is expected. -/
def unnamedAttr : String := "ref"

def skipEquals (ts : List Token) : List Token :=
  ts.dropWhile fun t => t.kind == .equals

theorem length_skipEquals (ts : List Token) : (skipEquals ts).length ≤ ts.length :=
  (List.dropWhile_suffix _).length_le

def startsEquals : List Token → Bool
  | t :: _ => t.kind == .equals
  | [] => false

def startsClose : List Token → Bool
  | t :: _ => t.kind == .closeAngle
  | [] => false

/-- The attributes of a start tag up to its `>`, whether a `/` stood right before
    it, and what follows.  A value without a name is dropped, and so is whatever
    follows a hole and an `=`: that hole is bound under the name `ref`. -/
def readAttrs (stop : Position) :
    List Token → Except ParseError (List Attr × Bool × List Token)
  | [] => .error ⟨.unexpectedEnd, stop⟩
  | t :: ts =>
    match t.kind with
    | .closeAngle => .ok ([], false, ts)
    | .slash =>
      if startsClose ts then .ok ([], true, ts.tail) else readAttrs stop ts
    | .equals => readAttrs stop ts
    | .fragment _ => readAttrs stop ts
    | .quote q =>
      match h : readQuoted stop q ts with
      | .error e => .error e
      | .ok (_, rest) =>
        have := length_of_readQuoted h
        readAttrs stop rest
    | .ident name =>
      if name = spreadMark then
        match ts with
        | ⟨.hole i, _⟩ :: rest => more (.spread i) (readAttrs stop rest)
        | _ => .error ⟨.spreadWithoutHole, t.pos⟩
      else if startsEquals ts then
        match h : readValue stop name (skipEquals ts) with
        | .error e => .error e
        | .ok (a, rest) =>
          have := length_of_readValue h
          have := length_skipEquals ts
          more a (readAttrs stop rest)
      else more (.flag name) (readAttrs stop ts)
    | .hole i =>
      if startsEquals ts then
        match h : readValue stop unnamedAttr (skipEquals ts) with
        | .error e => .error e
        | .ok (_, rest) =>
          have := length_of_readValue h
          have := length_skipEquals ts
          more (.dynamic unnamedAttr i none) (readAttrs stop rest)
      else more (.spread i) (readAttrs stop ts)
    | .openAngle | .text _ | .commentHole _ => .error ⟨.unexpected t.kind, t.pos⟩
termination_by ts => ts.length
decreasing_by all_goals (simp only [List.length_cons] at *; omega)
where
  /-- One attribute in front of those that follow. -/
  more (a : Attr) :
      Except ParseError (List Attr × Bool × List Token) →
        Except ParseError (List Attr × Bool × List Token)
    | .ok (attrs, selfClosing, rest) => .ok (a :: attrs, selfClosing, rest)
    | .error e => .error e

def readCloseAngle (stop : Position) : List Token → Except ParseError (List Token)
  | [] => .error ⟨.unexpectedEnd, stop⟩
  | t :: ts =>
    match t.kind with
    | .closeAngle => .ok ts
    | k => .error ⟨.unexpected k, t.pos⟩

/-- What follows `</`: a name or a second `/`, and a `>`. -/
def readClose (stop pos : Position) : List Token → Except ParseError (Piece × List Token)
  | [] => .error ⟨.unexpectedEnd, stop⟩
  | t :: ts =>
    match t.kind with
    | .slash => (readCloseAngle stop ts).map (.close none pos, ·)
    | .ident name => (readCloseAngle stop ts).map (.close (some name) pos, ·)
    | k => .error ⟨.unexpected k, t.pos⟩

/-- The tag whose `<` stands at `pos`, from what follows the `<`. -/
def readTag (stop pos : Position) : List Token → Except ParseError (Piece × List Token)
  | [] => .error ⟨.unexpectedEnd, stop⟩
  | t :: ts =>
    match t.kind with
    | .slash => readClose stop pos ts
    | .ident name =>
      (readAttrs stop ts).map fun (attrs, selfClosing, rest) =>
        (.start name attrs selfClosing pos, rest)
    | k => .error ⟨.unexpected k, t.pos⟩

theorem exists_of_more {a : Attr} {r : Except ParseError (List Attr × Bool × List Token)}
    {attrs : List Attr} {b : Bool} {rest : List Token}
    (h : readAttrs.more a r = .ok (attrs, b, rest)) : ∃ attrs', r = .ok (attrs', b, rest) := by
  unfold readAttrs.more at h
  split at h
  · injection h with h; cases h; exact ⟨_, rfl⟩
  · simp at h

theorem length_of_readAttrs {stop : Position} {ts rest : List Token} {attrs : List Attr}
    {b : Bool} (h : readAttrs stop ts = .ok (attrs, b, rest)) : rest.length < ts.length := by
  fun_induction readAttrs stop ts generalizing attrs b <;>
    grind [→ exists_of_more, List.length_cons]

theorem length_of_readTag {stop pos : Position} {ts rest : List Token} {p : Piece}
    (h : readTag stop pos ts = .ok (p, rest)) : rest.length < ts.length := by
  have close {ts r : List Token} (hc : readCloseAngle stop ts = .ok r) : r.length < ts.length := by
    cases ts with
    | nil => simp [readCloseAngle] at hc
    | cons t ts =>
      simp only [readCloseAngle] at hc
      split at hc
      · injection hc with hc; simp [hc]
      · simp at hc
  cases ts with
  | nil => simp [readTag] at h
  | cons t ts =>
    simp only [readTag] at h
    split at h
    · cases ts with
      | nil => simp [readClose] at h
      | cons t' ts =>
        simp only [readClose] at h
        split at h <;> try simp at h
        all_goals
          cases hc : readCloseAngle stop ts with
          | error e => simp [hc, Except.map] at h
          | ok r =>
            simp only [hc, Except.map, Except.ok.injEq, Prod.mk.injEq] at h
            have := close hc
            simp only [List.length_cons, ← h.2]; omega
    · cases ha : readAttrs stop ts with
      | error e => simp [ha, Except.map] at h
      | ok r =>
        obtain ⟨attrs, b, r⟩ := r
        simp only [ha, Except.map, Except.ok.injEq, Prod.mk.injEq] at h
        have := length_of_readAttrs ha
        simp only [List.length_cons, ← h.2]; omega
    · simp at h

/-! ### Pieces of a token list -/

/-- Whether a text stays, given the kinds of the tokens around it: it has more than
    blanks, or it touches no edge. -/
def keepsText (before after : Option TokenKind) (value : String) : Bool :=
  !Text.allBlank value ||
    !((before.all (· == .closeAngle)) || (after.all (· == .openAngle)))

/-- The pieces of tokens that follow a token of the kind `before`, and the error at
    which reading stops, if it does not reach the end.  `stop` is the place that is
    reported when the input ends inside a tag. -/
def readPieces (stop : Position) (before : Option TokenKind) :
    List Token → List Piece × Option ParseError
  | [] => ([], none)
  | t :: ts =>
    match t.kind with
    | .text value =>
      let (ps, e) := readPieces stop (some t.kind) ts
      if keepsText before (ts.head?.map (·.kind)) value then (.text value :: ps, e) else (ps, e)
    | .hole i =>
      let (ps, e) := readPieces stop (some t.kind) ts
      (.hole i :: ps, e)
    | .commentHole _ => readPieces stop (some t.kind) ts
    | .openAngle =>
      match h : readTag stop t.pos ts with
      | .error e => ([], some e)
      | .ok (p, rest) =>
        have := length_of_readTag h
        let (ps, e) := readPieces stop (some .closeAngle) rest
        (p :: ps, e)
    | k => ([], some ⟨.unexpected k, t.pos⟩)
termination_by ts => ts.length
decreasing_by all_goals (simp only [List.length_cons]; omega)

def lastPosition (ts : List Token) : Position :=
  (ts.getLast?.map (·.pos)).getD ⟨0, 0⟩

/-- The pieces of a list of tokens, and the error at which reading stops. -/
def pieces (ts : List Token) : List Piece × Option ParseError :=
  readPieces (lastPosition ts) none ts

end Stencil.Markup
