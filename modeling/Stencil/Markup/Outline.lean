/-
  Stencil/Markup/Outline.lean
  ===========================
  **A tree as an outline.**

  The first line gives the number of slots.  Then every node has a line, indented
  by two blanks for each level:

  * a text in double quotes, with characters outside ASCII written by number;
  * a hole as `$`, and its number in braces;
  * an element as its start tag, with marks for SVG and for its slot.

  Attribute values that were quoted stand in double quotes, whichever quote the
  source has.
-/
import Stencil.Markup.Walk

namespace Stencil.Markup

def outlineChar (c : Char) : List Char :=
  match c with
  | '\n' => ['\\', 'n']
  | '\r' => ['\\', 'r']
  | '\t' => ['\\', 't']
  | '\\' => ['\\', '\\']
  | '"' => ['\\', '"']
  | c =>
    if c.toNat < 128 then [c] else ['\\', 'u', '\x7b'] ++ (Text.hexUpper c.toNat).toList ++ ['\x7d']

/-- A text as an outline shows it, without quotes. -/
def outlineText (s : String) : String := String.ofList (s.toList.flatMap outlineChar)

/-- An attribute value, in double quotes if it was quoted. -/
def outlineValue (quote : Option Quote) (body : String) : String :=
  if quote.isSome then "\"" ++ body ++ "\"" else body

def AttrPart.outline : AttrPart → String
  | .text value => outlineText value
  | .hole i => holeText i

def Attr.outline : Attr → String
  | .flag name => name
  | .fixed name value quote => name ++ "=" ++ outlineValue quote (outlineText value)
  | .dynamic name i quote => name ++ "=" ++ outlineValue quote (holeText i)
  | .spread i => "..." ++ holeText i
  | .mixed name parts quote =>
    name ++ "=" ++ outlineValue quote (String.join (parts.map AttrPart.outline))

/-- A node, without its children. -/
def Node.outline : Node → String
  | .text value => "\"" ++ outlineText value ++ "\""
  | .hole i => holeText i
  | .element tag _ =>
    "<" ++ tag.name ++ String.join (tag.attrs.map fun a => " " ++ a.outline) ++ ">" ++
      (if tag.svg then " [svg]" else "") ++
      match tag.slot with
      | some slot => " [slot " ++ toString slot ++ "]"
      | none => ""

def Template.outline (t : Template) : List String :=
  ("#root slots=" ++ toString t.slotCount) ::
    t.nodes.map fun (depth, n) =>
      String.ofList (List.replicate (2 * (depth + 1)) ' ') ++ n.outline

end Stencil.Markup
