/-
  Stencil/Attribute/Policy.lean
  =============================
  **Which setter an attribute name selects.**

  A rule has a test on names and a setter.  The first rule whose test a name passes is
  the one that counts; rules of the application stand before the usual ones, and a name
  that passes none is a plain attribute.  A rule on a beginning of names hands the
  setter the rest of the name.

  Two marks go with a rule.  Under a *reactive* rule a reader is read, again and again,
  and the setter gets what it gives; under another rule the setter gets the reader.
  A *cloneable* rule may be applied once to what is copied later, because copies carry
  what it does.
-/
import Stencil.Attribute.Setter

namespace Stencil

/-- A test on attribute names. -/
inductive Matcher where
  | starts (front : String)
  | exact (name : String)
  | satisfies (test : String → Bool)

/-- The name that the setter is to see, if the test is passed. -/
def Matcher.match? (m : Matcher) (name : String) : Option String :=
  match m with
  | .starts front =>
    if front.toList.isPrefixOf name.toList then
      some (String.ofList (name.toList.drop front.toList.length))
    else none
  | .exact n => if name = n then some name else none
  | .satisfies test => if test name then some name else none

structure AttrRule where
  matcher : Matcher
  setter : Setter
  reactive : Bool
  cloneable : Bool

namespace AttrRule

def flagText (b : Bool) : String := if b then "true" else "false"

/-- A rule in a diagnostic; a test by function has none. -/
def diagnostic? (r : AttrRule) : Option String :=
  let shown (m : String) :=
    "AttrRule \x7b matcher: " ++ m ++ ", reactive: " ++ flagText r.reactive ++ ", cloneable: " ++
      flagText r.cloneable ++ " \x7d"
  match r.matcher with
  | .starts front => some (shown ("Prefix(" ++ Text.quoted front ++ ")"))
  | .exact name => some (shown ("Exact(" ++ Text.quoted name ++ ")"))
  | .satisfies _ => none

end AttrRule

/-- The rules in the order in which they are tried. -/
structure Policy where
  rules : List AttrRule

namespace Policy

/-- The rule for names that pass no test. -/
def fallback : AttrRule := ⟨.satisfies fun _ => true, .plain, true, true⟩

def usual : Policy :=
  ⟨[⟨.starts "@", .event, false, false⟩,
    ⟨.starts "on:", .event, false, false⟩,
    ⟨.starts ".", .property, true, false⟩,
    ⟨.starts "prop:", .property, true, false⟩,
    ⟨.starts "?", .presence, true, true⟩,
    ⟨.starts "bool:", .presence, true, true⟩,
    ⟨.starts "attr:", .plain, true, true⟩,
    ⟨.exact "ref", .ref, false, false⟩,
    ⟨.starts "ref:", .ref, false, false⟩,
    ⟨.starts "class:", .className, true, true⟩,
    ⟨.starts "style:", .style, true, true⟩,
    ⟨.starts "xlink:", .xlink, true, true⟩,
    ⟨.starts "xml:", .xml, true, true⟩]⟩

/-- The policy with rules tried before the ones it has. -/
def withRules (rules : List AttrRule) (p : Policy) : Policy := ⟨rules ++ p.rules⟩

/-- The first of some rules that a name passes, and the name for its setter. -/
def firstMatch (name : String) : List AttrRule → Option (AttrRule × String)
  | [] => none
  | r :: rs =>
    match r.matcher.match? name with
    | some stripped => some (r, stripped)
    | none => firstMatch name rs

/-- The rule for a name, and the name for its setter. -/
def resolve (p : Policy) (name : String) : AttrRule × String :=
  (firstMatch name p.rules).getD (fallback, name)

/-- The place of the rule for a name; none for the fallback. -/
def position? (p : Policy) (name : String) : Option Nat :=
  p.rules.findIdx? fun r => (r.matcher.match? name).isSome

end Policy

/-! ### Attributes without holes -/

namespace Markup

def Attr.fixedValue : Attr → Value
  | .flag _ => .bool true
  | .fixed _ value _ => .text value
  | _ => .empty

/-- Whether an attribute is applied to what is copied, rather than to each copy: it has
    no hole, no spread stands before it, and its rule is cloneable. -/
def Attr.isPrebound (p : Policy) (afterSpread : Bool) (a : Attr) : Bool :=
  match a.name? with
  | some name => a.isFixed && !afterSpread && (p.resolve name).1.cloneable
  | none => false

/-- The attributes of a list, each with whether it is prebound. -/
def markPrebound (p : Policy) (afterSpread : Bool) : List Attr → List (Attr × Bool)
  | [] => []
  | a :: as => (a, a.isPrebound p afterSpread) :: markPrebound p (afterSpread || a.isSpread) as

end Markup
end Stencil
