/-
  Stencil/Proofs/Markup/Phrase.lean
  =================================
  **The grammar of content.**

  Two layers lie between a list of tokens and its tree, and both are said here as
  relations, without a stack.

  * `Lexed` cuts the tokens into *lexemes*: texts, holes, and whole tags.  A tag is
    a `<` and what the reader of attributes takes up to its `>`, or one of the two
    forms of a close tag.  A list that cannot be cut has a tag that is not
    complete, or a token that begins nothing.
  * A *phrase* is a node of a derivation: content is a list of texts, holes, close
    tags that say nothing, elements without content, and elements with content
    between a start tag and its close tag.  `Phrase.WellFormed` holds the side
    conditions of the grammar and `Phrase.yield` gives the lexemes that a
    derivation derives.

  `Phrase.nodes` reads the tree off a derivation.  The two things that are not in
  the phrase itself come from its surroundings: the element around it, and the
  number of the next free slot.

  A derivation is determined by what it derives (`Phrase.eq_of_yieldAll_eq`).
-/
import Stencil.Markup.Nesting

namespace Stencil.Markup

/-! ### Lexemes -/

/-- A unit of content: a text with whether it is kept, a hole, a hole in a comment,
    or a whole tag with the place of its `<`. -/
inductive Lexeme where
  | text (value : String) (kept : Bool)
  | hole (index : Nat)
  | commentHole (index : Nat)
  | start (name : String) (attrs : List Attr) (selfClosing : Bool) (pos : Position)
  | close (name : Option String) (pos : Position)

/-- `Lexed stop before ts ls`: the tokens `ts`, which follow a token of the kind
    `before`, are the lexemes `ls`, so every tag in them is complete. -/
inductive Lexed (stop : Position) : Option TokenKind → List Token → List Lexeme → Prop where
  | nil {before : Option TokenKind} : Lexed stop before [] []
  | text {before : Option TokenKind} {value : String} {pos : Position} {ts : List Token}
      {ls : List Lexeme} (rest : Lexed stop (some (.text value)) ts ls) :
      Lexed stop before (⟨.text value, pos⟩ :: ts)
        (.text value (keepsText before (ts.head?.map (·.kind)) value) :: ls)
  | hole {before : Option TokenKind} {i : Nat} {pos : Position} {ts : List Token}
      {ls : List Lexeme} (rest : Lexed stop (some (.hole i)) ts ls) :
      Lexed stop before (⟨.hole i, pos⟩ :: ts) (.hole i :: ls)
  | commentHole {before : Option TokenKind} {i : Nat} {pos : Position} {ts : List Token}
      {ls : List Lexeme} (rest : Lexed stop (some (.commentHole i)) ts ls) :
      Lexed stop before (⟨.commentHole i, pos⟩ :: ts) (.commentHole i :: ls)
  | start {before : Option TokenKind} {name : String} {pos p : Position} {body ts : List Token}
      {attrs : List Attr} {selfClosing : Bool} {ls : List Lexeme}
      (scan : readAttrs stop body = .ok (attrs, selfClosing, ts))
      (rest : Lexed stop (some .closeAngle) ts ls) :
      Lexed stop before (⟨.openAngle, pos⟩ :: ⟨.ident name, p⟩ :: body)
        (.start name attrs selfClosing pos :: ls)
  | close {before : Option TokenKind} {name : String} {pos p₁ p₂ p₃ : Position}
      {ts : List Token} {ls : List Lexeme} (rest : Lexed stop (some .closeAngle) ts ls) :
      Lexed stop before
        (⟨.openAngle, pos⟩ :: ⟨.slash, p₁⟩ :: ⟨.ident name, p₂⟩ :: ⟨.closeAngle, p₃⟩ :: ts)
        (.close (some name) pos :: ls)
  | closeAny {before : Option TokenKind} {pos p₁ p₂ p₃ : Position}
      {ts : List Token} {ls : List Lexeme} (rest : Lexed stop (some .closeAngle) ts ls) :
      Lexed stop before
        (⟨.openAngle, pos⟩ :: ⟨.slash, p₁⟩ :: ⟨.slash, p₂⟩ :: ⟨.closeAngle, p₃⟩ :: ts)
        (.close none pos :: ls)

/-- Tokens are cut into lexemes in one way at most. -/
theorem Lexed.unique {stop : Position} {before : Option TokenKind} {ts : List Token}
    {ls ls' : List Lexeme} (h : Lexed stop before ts ls) (h' : Lexed stop before ts ls') :
    ls = ls' := by
  induction h generalizing ls' with
  | nil => cases h'; rfl
  | text _ ih => cases h' with | text rest => rw [ih rest]
  | hole _ ih => cases h' with | hole rest => rw [ih rest]
  | commentHole _ ih => cases h' with | commentHole rest => rw [ih rest]
  | start scan _ ih =>
    cases h' with
    | start scan' rest =>
      rw [scan] at scan'
      injection scan' with heq
      obtain ⟨rfl, rfl, rfl⟩ := by simpa using heq
      rw [ih rest]
  | close _ ih => cases h' with | close rest => rw [ih rest]
  | closeAny _ ih => cases h' with | closeAny rest => rw [ih rest]

/-! ### Derivations -/

/-- A node of a derivation of content.  A `leaf` is an element that has no content,
    because its tag closes itself or because of its name; an `idle` close tag names
    an element that has no content, and says nothing. -/
inductive Phrase where
  | text (value : String) (kept : Bool)
  | hole (index : Nat)
  | commentHole (index : Nat)
  | idle (name : String) (pos : Position)
  | leaf (name : String) (attrs : List Attr) (selfClosing : Bool) (pos : Position)
  | element (name : String) (attrs : List Attr) (pos : Position) (content : List Phrase)
      (closing : Option String) (closePos : Position)

/-- Whether a close tag closes an element `name`: it bears the name, or none. -/
def closesName (closing : Option String) (name : String) : Bool :=
  closing.all (· == name)

namespace Phrase

mutual

/-- The side conditions of the grammar. -/
def WellFormed (void : NameSet) : Phrase → Prop
  | text _ _ => True
  | hole _ => True
  | commentHole _ => True
  | idle name _ => isVoid void name = true
  | leaf name _ selfClosing _ => (selfClosing || isVoid void name) = true
  | element name _ _ content closing _ =>
    isVoid void name = false ∧ closesName closing name = true ∧ WellFormedAll void content

/-- The side conditions for all phrases of a list. -/
def WellFormedAll (void : NameSet) : List Phrase → Prop
  | [] => True
  | p :: ps => p.WellFormed void ∧ WellFormedAll void ps

end

mutual

/-- The lexemes that a phrase derives. -/
def yield : Phrase → List Lexeme
  | text value kept => [.text value kept]
  | hole i => [.hole i]
  | commentHole i => [.commentHole i]
  | idle name pos => [.close (some name) pos]
  | leaf name attrs selfClosing pos => [.start name attrs selfClosing pos]
  | element name attrs pos content closing closePos =>
    .start name attrs false pos :: (yieldAll content ++ [.close closing closePos])

/-- The lexemes that several phrases derive, in order. -/
def yieldAll : List Phrase → List Lexeme
  | [] => []
  | p :: ps => p.yield ++ yieldAll ps

end

theorem yieldAll_append (ps qs : List Phrase) :
    yieldAll (ps ++ qs) = yieldAll ps ++ yieldAll qs := by
  induction ps with
  | nil => rfl
  | cons p ps ih => simp only [List.cons_append, yieldAll, ih, List.append_assoc]

theorem wellFormedAll_append {void : NameSet} {ps qs : List Phrase}
    (hp : WellFormedAll void ps) (hq : WellFormedAll void qs) :
    WellFormedAll void (ps ++ qs) := by
  induction ps with
  | nil => exact hq
  | cons p ps ih => exact ⟨hp.1, ih hp.2⟩

/-! ### The tree of a derivation -/

/-- The tag of an element that stands in the element `around`, if `slot` is the next
    free slot. -/
def tagIn (around : Option Tag) (slot : Nat) (name : String) (attrs : List Attr) : Tag where
  name := name
  attrs := attrs
  svg := name == "svg" || around.any fun t => t.svg && t.name != "foreignObject"
  slot := if Text.startsCapital name then some slot else none

/-- The next free slot behind the start tag of an element. -/
def slotAfter (name : String) (slot : Nat) : Nat :=
  if Text.startsCapital name then slot + 1 else slot

/-- A text as the tree has it, under the element `around`. -/
def textIn (around : Option Tag) (value : String) : String :=
  if around.any fun t => Text.sameName t.name "script" || Text.sameName t.name "style" then value
  else decodeReferences value

mutual

/-- The nodes of a phrase that stands in the element `around`, and the next free slot
    behind it. -/
def nodes (around : Option Tag) (slot : Nat) : Phrase → List Node × Nat
  | text value kept => (if kept then [.text (textIn around value)] else [], slot)
  | hole i => ([.hole i], slot)
  | commentHole _ => ([], slot)
  | idle _ _ => ([], slot)
  | leaf name attrs _ _ => ([.element (tagIn around slot name attrs) []], slotAfter name slot)
  | element name attrs _ content _ _ =>
    let tag := tagIn around slot name attrs
    let inner := nodesAll (some tag) (slotAfter name slot) content
    ([.element tag inner.1], inner.2)

/-- The nodes of several phrases, in order. -/
def nodesAll (around : Option Tag) (slot : Nat) : List Phrase → List Node × Nat
  | [] => ([], slot)
  | p :: ps =>
    let front := p.nodes around slot
    let back := nodesAll around front.2 ps
    (front.1 ++ back.1, back.2)

end

/-- The tree of a whole derivation.  Slots are counted from the one behind the slot
    of the literal itself. -/
def template (ps : List Phrase) : Template :=
  let all := nodesAll none (rootSlot + 1) ps
  ⟨all.1, all.2⟩

/-! ### One derivation for each list of lexemes -/

/-- What may follow content: nothing, or a close tag that is not idle. -/
def EndsContent (void : NameSet) : List Lexeme → Prop
  | [] => True
  | .close name _ :: _ => name.all (fun n => !isVoid void n) = true
  | _ => False

/-- A close tag that closes an element with content is not idle. -/
theorem endsContent_close {void : NameSet} {name : String} {closing : Option String}
    (hname : isVoid void name = false) (hclose : closesName closing name = true)
    (pos : Position) (ls : List Lexeme) : EndsContent void (.close closing pos :: ls) := by
  cases closing with
  | none => rfl
  | some n =>
    have heq : n = name := by simpa [closesName] using hclose
    simp [EndsContent, heq, hname]

/-- Content that is not empty does not begin with what may follow content. -/
theorem not_endsContent_yield {void : NameSet} {p : Phrase} (hp : p.WellFormed void)
    (ls : List Lexeme) : ¬ EndsContent void (p.yield ++ ls) := by
  cases p <;> simp_all [yield, EndsContent, WellFormed]

mutual

/-- A phrase is determined by any list of lexemes that begins with its own. -/
theorem eq_of_yield_eq (void : NameSet) : ∀ (p q : Phrase) {r r' : List Lexeme},
    p.WellFormed void → q.WellFormed void → p.yield ++ r = q.yield ++ r' → p = q ∧ r = r'
  | .text _ _, q, _, _, _, _, heq => by cases q <;> simp_all [yield]
  | .hole _, q, _, _, _, _, heq => by cases q <;> simp_all [yield]
  | .commentHole _, q, _, _, _, _, heq => by cases q <;> simp_all [yield]
  | .idle _ _, q, _, _, _, _, heq => by cases q <;> simp_all [yield]
  | .leaf _ _ _ _, q, _, _, hp, hq, heq => by cases q <;> simp_all [yield, WellFormed]
  | .element name attrs pos content closing closePos, q, r, r', hp, hq, heq => by
    cases q with
    | element name' attrs' pos' content' closing' closePos' =>
      simp only [yield, List.cons_append, List.append_assoc, List.cons.injEq, Lexeme.start.injEq,
        List.nil_append] at heq
      obtain ⟨⟨rfl, rfl, -, rfl⟩, htail⟩ := heq
      obtain ⟨hvoid, hclose, hcontent⟩ := hp
      obtain ⟨-, hclose', hcontent'⟩ := hq
      obtain ⟨rfl, hrest⟩ := eq_of_yieldAll_eq void content content' hcontent hcontent'
        (endsContent_close hvoid hclose closePos r) (endsContent_close hvoid hclose' closePos' r')
        htail
      simp_all
    | _ => simp_all [yield, WellFormed]

/-- Content is determined by its lexemes, whatever may follow them. -/
theorem eq_of_yieldAll_eq (void : NameSet) : ∀ (ps qs : List Phrase) {r r' : List Lexeme},
    WellFormedAll void ps → WellFormedAll void qs → EndsContent void r → EndsContent void r' →
    yieldAll ps ++ r = yieldAll qs ++ r' → ps = qs ∧ r = r'
  | [], [], _, _, _, _, _, _, heq => ⟨rfl, heq⟩
  | [], q :: qs, r, r', _, hq, hr, _, heq => by
    rw [yieldAll, yieldAll, List.nil_append, List.append_assoc] at heq
    exact absurd (heq ▸ hr) (not_endsContent_yield hq.1 _)
  | p :: ps, [], r, r', hp, _, _, hr', heq => by
    rw [yieldAll, yieldAll, List.nil_append, List.append_assoc] at heq
    exact absurd (heq ▸ hr') (not_endsContent_yield hp.1 _)
  | p :: ps, q :: qs, r, r', hp, hq, hr, hr', heq => by
    simp only [yieldAll, List.append_assoc] at heq
    obtain ⟨rfl, htail⟩ := eq_of_yield_eq void p q hp.1 hq.1 heq
    obtain ⟨rfl, hrest⟩ := eq_of_yieldAll_eq void ps qs hp.2 hq.2 hr hr' htail
    exact ⟨rfl, hrest⟩

end

end Phrase

/-- `Derives void ls ps`: the phrases `ps` are a derivation of the lexemes `ls`. -/
structure Derives (void : NameSet) (ls : List Lexeme) (ps : List Phrase) : Prop where
  wellFormed : Phrase.WellFormedAll void ps
  yield_eq : Phrase.yieldAll ps = ls

namespace Derives

variable {void : NameSet} {ls ls' : List Lexeme} {ps qs : List Phrase}

theorem nil : Derives void [] [] := ⟨trivial, rfl⟩

theorem append (h : Derives void ls ps) (h' : Derives void ls' qs) :
    Derives void (ls ++ ls') (ps ++ qs) :=
  ⟨Phrase.wellFormedAll_append h.wellFormed h'.wellFormed, by
    rw [Phrase.yieldAll_append, h.yield_eq, h'.yield_eq]⟩

theorem single {p : Phrase} (h : p.WellFormed void) : Derives void p.yield [p] :=
  ⟨⟨h, trivial⟩, List.append_nil _⟩

/-- Lexemes have one derivation at most. -/
theorem unique (h : Derives void ls ps) (h' : Derives void ls qs) : ps = qs := by
  have heq : Phrase.yieldAll ps ++ [] = Phrase.yieldAll qs ++ [] := by
    rw [h.yield_eq, h'.yield_eq]
  have hend : Phrase.EndsContent void [] := trivial
  exact (Phrase.eq_of_yieldAll_eq void ps qs h.wellFormed h'.wellFormed hend hend heq).1

end Derives
end Stencil.Markup
