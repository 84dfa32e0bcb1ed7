/-
  Stencil/Markup/Nesting.lean
  ===========================
  **From pieces to a tree.**

  The elements that are open stand on a stack, the innermost on top, each with the
  children it has so far.  A start tag pushes, unless it closes itself or names an
  element that has no content; a close tag finishes the top and hands it to the
  element below.  So the depth of a literal costs no more than its length.

  The rules for tags:

  * a close tag has the name of the innermost open element, to the letter, or no
    name at all;
  * a close tag of an element that has no content says nothing;
  * an element is part of SVG if it is `svg`, or if the element around it is part of
    SVG and is not `foreignObject`;
  * elements whose name begins with a capital get slots `1`, `2`, … in the order of
    their start tags.

  References in a text are replaced, except directly inside `script` and `style`.
-/
import Stencil.Markup.Piece
import Stencil.Markup.Token.Scan

namespace Stencil.Markup

/-- An element whose close tag has not come yet. -/
structure OpenElement where
  tag : Tag
  pos : Position
  children : List Node
deriving Repr

structure Build where
  root : List Node
  stack : List OpenElement
  nextSlot : Nat
deriving Repr

namespace Build

/-- The tree of which nothing has been read. -/
def start : Build := ⟨[], [], rootSlot + 1⟩

/-- One more child for the innermost open element. -/
def addChild (b : Build) (n : Node) : Build :=
  match b.stack with
  | [] => { b with root := b.root ++ [n] }
  | o :: rest => { b with stack := { o with children := o.children ++ [n] } :: rest }

/-- The innermost open element is finished. -/
def closeTop (b : Build) : Build :=
  match b.stack with
  | [] => b
  | o :: rest => addChild { b with stack := rest } (.element o.tag o.children)

/-- Whether texts stand to the letter at this point. -/
def readsVerbatim (b : Build) : Bool :=
  match b.stack with
  | [] => false
  | o :: _ => Text.sameName o.tag.name "script" || Text.sameName o.tag.name "style"

/-- Whether a start tag `name` would begin an element of SVG at this point. -/
def entersSvg (b : Build) (name : String) : Bool :=
  name == "svg" ||
    match b.stack with
    | [] => false
    | o :: _ => o.tag.svg && o.tag.name != "foreignObject"

end Build

/-- Whether an element has no content.  A capitalized name may be a component, which
    may have some. -/
def isVoid (void : NameSet) (name : String) : Bool :=
  !Text.startsCapital name && void.contains name

namespace Build

def openTag (void : NameSet) (b : Build) (name : String) (attrs : List Attr)
    (selfClosing : Bool) (pos : Position) : Build :=
  let capital := Text.startsCapital name
  let tag : Tag := ⟨name, attrs, b.entersSvg name, if capital then some b.nextSlot else none⟩
  let b := if capital then { b with nextSlot := b.nextSlot + 1 } else b
  if selfClosing || isVoid void name then b.addChild (.element tag [])
  else { b with stack := ⟨tag, pos, []⟩ :: b.stack }

/-- A close tag. -/
def closeTag (void : NameSet) (b : Build) (name? : Option String) (pos : Position) :
    Except ParseError Build :=
  match name?, b.stack with
  | none, [] => .error ⟨.strayClose "/", pos⟩
  | none, _ :: _ => .ok b.closeTop
  | some name, stack =>
    if isVoid void name then .ok b
    else
      match stack with
      | [] => .error ⟨.strayClose name, pos⟩
      | o :: _ =>
        if o.tag.name = name then .ok b.closeTop
        else .error ⟨.mismatched o.tag.name name, pos⟩

def add (void : NameSet) (b : Build) : Piece → Except ParseError Build
  | .text value =>
    .ok (b.addChild (.text (if b.readsVerbatim then value else decodeReferences value)))
  | .hole i => .ok (b.addChild (.hole i))
  | .start name attrs selfClosing pos => .ok (b.openTag void name attrs selfClosing pos)
  | .close name? pos => b.closeTag void name? pos

/-- Several pieces, up to the first that does not fit. -/
def addAll (void : NameSet) (b : Build) : List Piece → Except ParseError Build
  | [] => .ok b
  | p :: ps =>
    match b.add void p with
    | .error e => .error e
    | .ok b' => b'.addAll void ps

/-- The finished tree, if nothing is open. -/
def finish (b : Build) : Except ParseError Template :=
  match b.stack with
  | [] => .ok ⟨b.root, b.nextSlot⟩
  | o :: _ => .error ⟨.unclosed o.tag.name, o.pos⟩

end Build

/-- The tree of a list of tokens.  An error of nesting comes before the error at
    which reading the pieces stopped, and that one before an element left open. -/
def parseTokens (void : NameSet) (ts : List Token) : Except ParseError Template :=
  let (ps, stopped) := pieces ts
  match Build.start.addAll void ps, stopped with
  | .error e, _ => .error e
  | .ok _, some e => .error e
  | .ok b, none => b.finish

/-- The tree of a literal, given by its segments. -/
def parse (void raw : NameSet) (segments : List String) : Except ParseError Template :=
  parseTokens void (tokenize raw segments)

end Stencil.Markup
