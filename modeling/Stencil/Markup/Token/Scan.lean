/-
  Stencil/Markup/Token/Scan.lean
  ==============================
  **Cutting a literal into tokens.**

  The scanner goes over the segments in one of five modes: text, the inside of a
  tag, a quoted value, the body of a raw-text element, a comment.  The mode lives
  on across the holes, so a hole inside a quoted value falls between two pieces of
  that value.

  One `Move` takes at least one character off the rest of a segment, emits what it
  has found and says in which mode to go on.  What was taken and what is left
  always add up to what was there (`Move.taken_append_rest`), which is why no
  character is lost and why the scan comes to an end.

  Scanning never fails:

  * a `<` that is followed by neither a letter nor `/` is text;
  * a quoted value without its end takes the whole segment;
  * inside a tag, characters without a meaning are passed over;
  * a comment `<!-- … -->` leaves nothing behind but the holes in it.

  An unquoted value goes on across a hole when nothing stands between them, so
  that `class=btn-`, a hole and `-big` are one value.  It does not go on with a
  blank, a quote, `>` or `/>`.
-/
import Stencil.Markup.NameSet
import Stencil.Markup.Token
import Stencil.Text.Blank
import Stencil.Text.Cut

namespace Stencil.Markup

open Text (byteLength cutAt)

/-! ### Character classes -/

/-- The characters of tag and attribute names: ASCII letters and digits and the
    marks `. : _ - @ ?`. -/
def isNameChar (c : Char) : Bool :=
  c.isAlphanum || c == '.' || c == ':' || c == '_' || c == '-' || c == '@' || c == '?'

/-- The characters that end an unquoted value. -/
def endsUnquoted (c : Char) : Bool := Text.isTagBlank c || c == '>'

/-- The characters that cannot begin an unquoted value. -/
def refusesUnquoted (c : Char) : Bool := c == '"' || c == '\'' || c == '>'

/-- Whether the rest of a text begins a comment, a start tag or a close tag. -/
def opensMarkup : List Char → Bool
  | '<' :: '!' :: '-' :: '-' :: _ => true
  | '<' :: c :: _ => c.isAlpha || c == '/'
  | _ => false

/-- Whether the rest of a raw body closes the element `name`: `</name` to the
    letter, and then the name is over. -/
def closesRaw (name : String) (cs : List Char) : Bool :=
  let close := '<' :: '/' :: name.toList
  close.isPrefixOf cs && !((cs.drop close.length).head?.any isNameChar)

/-- Whether the rest of a comment ends it. -/
def endsComment : List Char → Bool
  | '-' :: '-' :: '>' :: _ => true
  | _ => false

/-! ### Modes -/

/-- Where the inside of a tag stands with regard to an unquoted value: not in one,
    behind an `=` and waiting for one, or at the end of a segment with one that may
    go on behind the hole. -/
inductive ValueState where
  | outside
  | awaited
  | touching
deriving DecidableEq, Repr

/-- What the scanner knows inside a tag: the name if it is a start tag, whether a
    `/` is the last thing it has seen, and where it stands in a value. -/
structure InTag where
  startName : Option String
  selfClosing : Bool
  value : ValueState
deriving DecidableEq, Repr

inductive Mode where
  | text
  | tag (t : InTag)
  | value (q : Quote) (t : InTag)
  | raw (name : String)
  | comment
deriving DecidableEq, Repr

/-- The mode behind the `>` of a tag. -/
def InTag.close (raw : NameSet) (t : InTag) : Mode :=
  match t.startName with
  | some name => if raw.contains name && !t.selfClosing then .raw name else .text
  | none => .text

/-- The mode behind a hole. -/
def Mode.afterHole : Mode → Mode
  | .tag t =>
    .tag { t with
      selfClosing := false
      value := if t.value = .outside then .outside else .touching }
  | m => m

/-- The token that a hole leaves. -/
def Mode.holeKind (m : Mode) (i : Nat) : TokenKind :=
  match m with
  | .comment => .commentHole i
  | _ => .hole i

/-- The mode at the start of a segment: a value that touches the hole before it
    goes on if the segment lets it. -/
def Mode.resume (m : Mode) (cs : List Char) : Mode :=
  match m, cs with
  | .tag t, c :: r =>
    if t.value = .touching then
      let goesOn := !Text.isTagBlank c && !refusesUnquoted c && !(c == '/' && r.head? == some '>')
      .tag { t with value := if goesOn then .awaited else .outside }
    else m
  | _, _ => m

/-! ### Moves -/

/-- One move of the scanner: the tokens it emits, each with the number of bytes
    between the start of the move and the token, the mode to go on in, the
    characters it takes and those it leaves. -/
structure Move where
  emitted : List (Nat × TokenKind)
  mode : Mode
  taken : List Char
  rest : List Char
deriving DecidableEq, Repr

/-- A move in a text, on a rest that begins with `c`. -/
def moveText (c : Char) (cs : List Char) : Move :=
  match opensMarkup (c :: cs), c, cs with
  | true, '<', '!' :: '-' :: '-' :: r => ⟨[], .comment, ['<', '!', '-', '-'], r⟩
  | true, '<', '/' :: r =>
    ⟨[(0, .openAngle), (1, .slash)], .tag ⟨none, false, .outside⟩, ['<', '/'], r⟩
  | true, _, _ =>
    let name := cs.takeWhile isNameChar
    ⟨[(0, .openAngle), (1, .ident (String.ofList name))],
      .tag ⟨some (String.ofList name), false, .outside⟩, c :: name, cs.dropWhile isNameChar⟩
  | false, _, _ =>
    let body := c :: (cutAt opensMarkup cs).1
    ⟨[(0, .text (String.ofList body))], .text, body, (cutAt opensMarkup cs).2⟩

def moveUnquoted (t : InTag) (c : Char) (cs : List Char) : Move :=
  let value := c :: cs.takeWhile fun d => !endsUnquoted d
  let rest := cs.dropWhile fun d => !endsUnquoted d
  ⟨[(0, .fragment (String.ofList value))],
    .tag { t with value := if rest.isEmpty then .touching else .outside }, value, rest⟩

def moveTag (raw : NameSet) (t : InTag) (c : Char) (cs : List Char) : Move :=
  if Text.isTagBlank c then ⟨[], .tag t, [c], cs⟩
  else if t.value = .awaited && !refusesUnquoted c then moveUnquoted t c cs
  else
    let t := { t with value := .outside }
    let t' := { t with selfClosing := false }
    match c with
    | '>' => ⟨[(0, .closeAngle)], t.close raw, [c], cs⟩
    | '=' => ⟨[(0, .equals)], .tag { t' with value := .awaited }, [c], cs⟩
    | '/' => ⟨[(0, .slash)], .tag { t with selfClosing := true }, [c], cs⟩
    | '"' => ⟨[(0, .quote .double)], .value .double t', [c], cs⟩
    | '\'' => ⟨[(0, .quote .single)], .value .single t', [c], cs⟩
    | _ =>
      if isNameChar c then
        let name := c :: cs.takeWhile isNameChar
        ⟨[(0, .ident (String.ofList name))], .tag t', name, cs.dropWhile isNameChar⟩
      else ⟨[], .tag t', [c], cs⟩

def moveValue (q : Quote) (t : InTag) (c : Char) (cs : List Char) : Move :=
  if c = q.char then ⟨[(0, .quote q)], .tag t, [c], cs⟩
  else
    let value := c :: cs.takeWhile (· != q.char)
    ⟨[(0, .fragment (String.ofList value))], .value q t, value, cs.dropWhile (· != q.char)⟩

def moveRaw (name : String) (c : Char) (cs : List Char) : Move :=
  if closesRaw name (c :: cs) then
    match cs with
    | d :: r => ⟨[(0, .openAngle), (1, .slash)], .tag ⟨none, false, .outside⟩, [c, d], r⟩
    | [] => ⟨[], .text, [c], []⟩
  else
    let body := c :: (cutAt (closesRaw name) cs).1
    ⟨[(0, .text (String.ofList body))], .raw name, body, (cutAt (closesRaw name) cs).2⟩

def moveComment (c : Char) (cs : List Char) : Move :=
  match endsComment (c :: cs), cs with
  | true, d :: e :: r => ⟨[], .text, [c, d, e], r⟩
  | true, _ => ⟨[], .text, [c], cs⟩
  | false, _ => ⟨[], .comment, c :: (cutAt endsComment cs).1, (cutAt endsComment cs).2⟩

/-- The move that a mode makes on a rest beginning with `c`. -/
def Mode.move (raw : NameSet) (m : Mode) (c : Char) (cs : List Char) : Move :=
  match m with
  | .text => moveText c cs
  | .tag t => moveTag raw t c cs
  | .value q t => moveValue q t c cs
  | .raw name => moveRaw name c cs
  | .comment => moveComment c cs

/-- A move splits what it stands before. -/
theorem Move.taken_append_rest (raw : NameSet) (m : Mode) (c : Char) (cs : List Char) :
    (m.move raw c cs).taken ++ (m.move raw c cs).rest = c :: cs := by
  cases m with
  | text => simp only [Mode.move, moveText]; split <;> simp_all
  | tag t =>
    simp only [Mode.move, moveTag, moveUnquoted]
    split
    · rfl
    · split
      · simp
      · split <;> (try split) <;> simp
  | value q t => simp only [Mode.move, moveValue]; split <;> simp
  | raw name => simp only [Mode.move, moveRaw]; split <;> (try split) <;> simp
  | comment => simp only [Mode.move, moveComment]; split <;> simp

/-- A move takes something. -/
theorem Move.taken_ne_nil (raw : NameSet) (m : Mode) (c : Char) (cs : List Char) :
    (m.move raw c cs).taken ≠ [] := by
  cases m with
  | text => simp only [Mode.move, moveText]; split <;> simp
  | tag t =>
    simp only [Mode.move, moveTag, moveUnquoted]
    split
    · simp
    · split
      · simp
      · split <;> (try split) <;> simp
  | value q t => simp only [Mode.move, moveValue]; split <;> simp
  | raw name => simp only [Mode.move, moveRaw]; split <;> (try split) <;> simp
  | comment => simp only [Mode.move, moveComment]; split <;> simp

theorem Move.length_rest_lt (raw : NameSet) (m : Mode) (c : Char) (cs : List Char) :
    (m.move raw c cs).rest.length < (c :: cs).length := by
  have h := congrArg List.length (Move.taken_append_rest raw m c cs)
  have h' := List.length_pos_iff.2 (Move.taken_ne_nil raw m c cs)
  rw [List.length_append] at h
  omega

/-! ### Segments and literals -/

/-- A token in front of others.  Two texts in a row, which a comment has kept
    apart, become one. -/
def Token.push (t : Token) (ts : List Token) : List Token :=
  match t.kind, ts with
  | .text a, ⟨.text b, _⟩ :: r => ⟨.text (a ++ b), t.pos⟩ :: r
  | _, _ => t :: ts

/-- The tokens of the rest `cs` of segment `seg`, which begins at byte `offset`, and
    the mode at its end. -/
def scanRest (raw : NameSet) (seg : Nat) (m : Mode) (offset : Nat) :
    List Char → List Token × Mode
  | [] => ([], m)
  | c :: cs =>
    let move := m.move raw c cs
    let (ts, m') := scanRest raw seg move.mode (offset + byteLength move.taken) move.rest
    (move.emitted.foldr (fun e ts => Token.push ⟨e.2, ⟨seg, offset + e.1⟩⟩ ts) ts, m')
termination_by cs => cs.length
decreasing_by exact Move.length_rest_lt raw m c cs

/-- The tokens of segment `seg` and the mode at its end. -/
def scanSegment (raw : NameSet) (seg : Nat) (m : Mode) (s : List Char) : List Token × Mode :=
  scanRest raw seg (m.resume s) 0 s

/-- The tokens of the segments from number `seg` on, with the holes between them. -/
def scanSegments (raw : NameSet) (seg : Nat) (m : Mode) : List (List Char) → List Token
  | [] => []
  | [s] => (scanSegment raw seg m s).1
  | s :: s' :: rest =>
    let (ts, m') := scanSegment raw seg m s
    ts ++ ⟨m'.holeKind seg, ⟨seg, byteLength s⟩⟩ ::
      scanSegments raw (seg + 1) m'.afterHole (s' :: rest)

/-- The tokens of a literal, given by its segments. -/
def tokenize (raw : NameSet) (segments : List String) : List Token :=
  scanSegments raw 0 .text (segments.map String.toList)

end Stencil.Markup
