/-
  Stencil/Proofs/Markup/WellNested.lean
  =====================================
  **Parsing accepts exactly the well-nested lists of tokens.**

  The stack of open elements is tied to the grammar of `Phrase` in two steps.

  * `Opens void ls open` says, without a stack, that the lexemes `ls` are the
    beginning of content in which the elements `open` wait for their close tags.
    Any list of lexemes either opens something (perhaps nothing, and then it is
    content) or has a first close tag that does not fit: `opens_or_misfit`.
  * Adding pieces to a tree under construction does what the derivation says:
    `Build.addAll_yieldAll` for content, `Opens.addAll` for the beginning of content.

  Together they give `parseTokens_wellNested`.
-/
import Stencil.Proofs.Markup.Phrase

namespace Stencil.Markup

/-! ### Pieces and lexemes -/

/-- What adding a lexeme to a tree amounts to; some lexemes leave nothing. -/
def Lexeme.piece? : Lexeme → Option Piece
  | text value kept => if kept then some (.text value) else none
  | hole i => some (.hole i)
  | commentHole _ => none
  | start name attrs selfClosing pos => some (.start name attrs selfClosing pos)
  | close name pos => some (.close name pos)

/-- The pieces of several lexemes. -/
def lexemePieces (ls : List Lexeme) : List Piece := ls.filterMap Lexeme.piece?

theorem lexemePieces_append (ls ls' : List Lexeme) :
    lexemePieces (ls ++ ls') = lexemePieces ls ++ lexemePieces ls' :=
  List.filterMap_append

/-- A complete tag gives its piece, and reading goes on behind it. -/
theorem readPieces_tag {stop pos : Position} {before : Option TokenKind} {ts rest : List Token}
    {p : Piece} (h : readTag stop pos ts = .ok (p, rest)) :
    readPieces stop before (⟨.openAngle, pos⟩ :: ts) =
      (p :: (readPieces stop (some .closeAngle) rest).1,
        (readPieces stop (some .closeAngle) rest).2) := by
  rw [readPieces]
  simp only
  split
  · next e heq => rw [h] at heq; cases heq
  · next p' rest' heq =>
    rw [h] at heq
    cases heq
    rfl

/-- Where the tokens can be cut, reading gives the pieces of the lexemes and does not
    stop early. -/
theorem Lexed.readPieces_eq {stop : Position} {before : Option TokenKind} {ts : List Token}
    {ls : List Lexeme} (h : Lexed stop before ts ls) :
    readPieces stop before ts = (lexemePieces ls, none) := by
  induction h with
  | nil => rw [readPieces]; rfl
  | text _ ih =>
    rw [readPieces]
    simp only [ih, lexemePieces, List.filterMap_cons, Lexeme.piece?]
    split <;> simp_all
  | hole _ ih => rw [readPieces]; simp only [ih]; rfl
  | commentHole _ ih => rw [readPieces]; simp only [ih]; rfl
  | @start before name pos p body ts attrs selfClosing ls scan _ ih =>
    have htag : readTag stop pos (⟨.ident name, p⟩ :: body) =
        .ok (.start name attrs selfClosing pos, ts) := by
      simp only [readTag, scan, Except.map]
    rw [readPieces_tag htag, ih]
    rfl
  | @close before name pos p₁ p₂ p₃ ts ls _ ih =>
    have htag : readTag stop pos (⟨.slash, p₁⟩ :: ⟨.ident name, p₂⟩ :: ⟨.closeAngle, p₃⟩ :: ts) =
        .ok (.close (some name) pos, ts) := rfl
    rw [readPieces_tag htag, ih]
    rfl
  | @closeAny before pos p₁ p₂ p₃ ts ls _ ih =>
    have htag : readTag stop pos (⟨.slash, p₁⟩ :: ⟨.slash, p₂⟩ :: ⟨.closeAngle, p₃⟩ :: ts) =
        .ok (.close none pos, ts) := rfl
    rw [readPieces_tag htag, ih]
    rfl

/-- `IsTag stop pos ts p rest`: behind a `<` at `pos`, the tokens `ts` are a whole tag with the
    piece `p`, and `rest` behind it. -/
inductive IsTag (stop pos : Position) : List Token → Piece → List Token → Prop where
  | start {name : String} {p : Position} {body rest : List Token} {attrs : List Attr}
      {selfClosing : Bool} (scan : readAttrs stop body = .ok (attrs, selfClosing, rest)) :
      IsTag stop pos (⟨.ident name, p⟩ :: body) (.start name attrs selfClosing pos) rest
  | close {name : String} {p₁ p₂ p₃ : Position} {rest : List Token} :
      IsTag stop pos (⟨.slash, p₁⟩ :: ⟨.ident name, p₂⟩ :: ⟨.closeAngle, p₃⟩ :: rest)
        (.close (some name) pos) rest
  | closeAny {p₁ p₂ p₃ : Position} {rest : List Token} :
      IsTag stop pos (⟨.slash, p₁⟩ :: ⟨.slash, p₂⟩ :: ⟨.closeAngle, p₃⟩ :: rest)
        (.close none pos) rest

/-- A tag is read only if it is complete. -/
theorem isTag_of_readTag {stop pos : Position} {ts rest : List Token} {p : Piece}
    (h : readTag stop pos ts = .ok (p, rest)) : IsTag stop pos ts p rest := by
  rcases ts with _ | ⟨⟨k, p₁⟩, ts⟩
  · simp [readTag] at h
  cases k with
  | ident name =>
    rcases hscan : readAttrs stop ts with e | ⟨attrs, selfClosing, rest'⟩
    · simp [readTag, hscan, Except.map] at h
    · simp only [readTag, hscan, Except.map, Except.ok.injEq, Prod.mk.injEq] at h
      obtain ⟨rfl, rfl⟩ := h
      exact .start hscan
  | slash =>
    rcases ts with _ | ⟨⟨k₂, p₂⟩, _ | ⟨⟨k₃, p₃⟩, ts⟩⟩
    · simp [readTag, readClose] at h
    · cases k₂ <;> simp [readTag, readClose, readCloseAngle, Except.map] at h
    · cases k₃ <;> cases k₂ <;>
        simp [readTag, readClose, readCloseAngle, Except.map] at h
      · obtain ⟨rfl, rfl⟩ := h
        exact .closeAny
      · obtain ⟨rfl, rfl⟩ := h
        exact .close
  | _ => simp [readTag] at h

theorem exists_lexed_of_readTag {stop pos : Position} {before : Option TokenKind}
    {ts rest : List Token} {p : Piece} (h : readTag stop pos ts = .ok (p, rest))
    {ls : List Lexeme} (hrest : Lexed stop (some .closeAngle) rest ls) :
    ∃ ls', Lexed stop before (⟨.openAngle, pos⟩ :: ts) ls' := by
  cases isTag_of_readTag h with
  | start scan => exact ⟨_, .start scan hrest⟩
  | close => exact ⟨_, .close hrest⟩
  | closeAny => exact ⟨_, .closeAny hrest⟩

/-- Reading that does not stop early has cut all tokens. -/
theorem exists_lexed {stop : Position} (before : Option TokenKind) (ts : List Token)
    (h : (readPieces stop before ts).2 = none) : ∃ ls, Lexed stop before ts ls := by
  fun_induction readPieces stop before ts with
  | case1 => exact ⟨_, .nil⟩
  | case2 before t ts value hk ps e heq _ ih | case3 before t ts value hk ps e heq _ ih =>
    obtain ⟨k, pos⟩ := t
    dsimp only at hk
    subst hk
    obtain ⟨ls, hls⟩ := ih (by rw [heq]; exact h)
    exact ⟨_, .text hls⟩
  | case4 before t ts i hk ps e heq ih =>
    obtain ⟨k, pos⟩ := t
    dsimp only at hk
    subst hk
    obtain ⟨ls, hls⟩ := ih (by rw [heq]; exact h)
    exact ⟨_, .hole hls⟩
  | case5 before t ts i hk ih =>
    obtain ⟨k, pos⟩ := t
    dsimp only at hk
    subst hk
    obtain ⟨ls, hls⟩ := ih h
    exact ⟨_, .commentHole hls⟩
  | case6 => simp at h
  | case7 before t ts hk p rest htag _ ps e heq ih =>
    obtain ⟨k, pos⟩ := t
    dsimp only at hk
    subst hk
    obtain ⟨ls, hls⟩ := ih (by rw [heq]; exact h)
    exact exists_lexed_of_readTag htag hls
  | case8 => simp at h

/-! ### Growing a tree along a derivation -/

namespace Build

open Phrase (nodesAll tagIn slotAfter textIn yieldAll WellFormedAll)

/-- The element around whatever is read next. -/
def around (b : Build) : Option Tag := b.stack.head?.map (·.tag)

/-- Nodes put at the end of the innermost open element, and the next free slot moved
    on. -/
def grow (b : Build) (grown : List Node × Nat) : Build :=
  match b.stack with
  | [] => ⟨b.root ++ grown.1, [], grown.2⟩
  | o :: rest => ⟨b.root, { o with children := o.children ++ grown.1 } :: rest, grown.2⟩

theorem grow_nil (b : Build) : b.grow ([], b.nextSlot) = b := by
  obtain ⟨root, stack, slot⟩ := b
  cases stack <;> simp [grow]

theorem grow_grow (b : Build) (ns ms : List Node) (k k' : Nat) :
    (b.grow (ns, k)).grow (ms, k') = b.grow (ns ++ ms, k') := by
  obtain ⟨root, stack, slot⟩ := b
  cases stack <;> simp [grow]

@[simp] theorem around_grow (b : Build) (g : List Node × Nat) : (b.grow g).around = b.around := by
  obtain ⟨root, stack, slot⟩ := b
  cases stack <;> rfl

@[simp] theorem nextSlot_grow (b : Build) (g : List Node × Nat) :
    (b.grow g).nextSlot = g.2 := by
  obtain ⟨root, stack, slot⟩ := b
  cases stack <;> rfl

/-- Growing leaves open what is open. -/
theorem map_stack_grow {α : Type} (b : Build) (g : List Node × Nat) (f : Tag → Position → α) :
    (b.grow g).stack.map (fun o => f o.tag o.pos) = b.stack.map fun o => f o.tag o.pos := by
  obtain ⟨root, stack, slot⟩ := b
  cases stack <;> rfl

theorem addChild_eq (b : Build) (n : Node) : b.addChild n = b.grow ([n], b.nextSlot) := by
  obtain ⟨root, stack, slot⟩ := b
  cases stack <;> rfl

theorem verbatim_eq (b : Build) (value : String) :
    (if b.readsVerbatim then value else decodeReferences value) = textIn b.around value := by
  obtain ⟨root, stack, slot⟩ := b
  cases stack <;> simp [readsVerbatim, around, textIn]

theorem entersSvg_eq (b : Build) (name : String) :
    b.entersSvg name =
      (name == "svg" || b.around.any fun t => t.svg && t.name != "foreignObject") := by
  obtain ⟨root, stack, slot⟩ := b
  cases stack <;> rfl

/-- A start tag of an element without content adds that element. -/
theorem openTag_leaf {void : NameSet} {name : String} {selfClosing : Bool}
    (h : (selfClosing || isVoid void name) = true) (b : Build) (attrs : List Attr)
    (pos : Position) :
    b.openTag void name attrs selfClosing pos =
      b.grow ([.element (tagIn b.around b.nextSlot name attrs) []],
        slotAfter name b.nextSlot) := by
  simp only [openTag, h, if_true, addChild_eq, entersSvg_eq, tagIn, slotAfter]
  split <;> rfl

/-- The tree inside an element that has just been opened. -/
def inside (b : Build) (tag : Tag) (pos : Position) (slot : Nat) : Build :=
  ⟨b.root, ⟨tag, pos, []⟩ :: b.stack, slot⟩

/-- Another start tag opens an element that has no children yet. -/
theorem openTag_push {void : NameSet} {name : String} (h : isVoid void name = false)
    (b : Build) (attrs : List Attr) (pos : Position) :
    b.openTag void name attrs false pos =
      b.inside (tagIn b.around b.nextSlot name attrs) pos (slotAfter name b.nextSlot) := by
  simp only [openTag, h, Bool.or_self, Bool.false_eq_true, if_false, entersSvg_eq, tagIn,
    slotAfter, inside]
  split <;> rfl

/-- A close tag that fits finishes the innermost open element with the children that it
    has got. -/
theorem closeTag_inside {void : NameSet} {closing : Option String} (tag : Tag)
    (hname : isVoid void tag.name = false) (hclose : closesName closing tag.name = true)
    (b : Build) (openPos pos : Position) (slot k : Nat) (ns : List Node) :
    ((b.inside tag openPos slot).grow (ns, k)).closeTag void closing pos =
      .ok (b.grow ([.element tag ns], k)) := by
  have htop : ((b.inside tag openPos slot).grow (ns, k)).closeTop =
      b.grow ([.element tag ns], k) := by
    obtain ⟨root, stack, slot⟩ := b
    cases stack <;> rfl
  cases closing with
  | none => exact congrArg Except.ok htop
  | some n =>
    have heq : n = tag.name := by simpa [closesName] using hclose
    subst heq
    simp only [closeTag, hname, Bool.false_eq_true, if_false, inside, grow, if_true]
    exact congrArg Except.ok htop

theorem addAll_append (void : NameSet) (b : Build) (ps qs : List Piece) :
    b.addAll void (ps ++ qs) = (b.addAll void ps).bind fun b' => b'.addAll void qs := by
  induction ps generalizing b with
  | nil => rfl
  | cons p ps ih =>
    simp only [List.cons_append, addAll]
    cases b.add void p with
    | error e => rfl
    | ok b' => exact ih b'

theorem addAll_error {void : NameSet} {b : Build} {p : Piece} {e : ParseError}
    (h : b.add void p = .error e) (ps : List Piece) : b.addAll void (p :: ps) = .error e := by
  rw [addAll, h]

theorem addAll_single (void : NameSet) (b : Build) (p : Piece) :
    b.addAll void [p] = b.add void p := by
  simp only [addAll]
  cases b.add void p <;> rfl

mutual

/-- Adding the pieces of a phrase adds its nodes. -/
theorem addAll_yield {void : NameSet} : ∀ (p : Phrase) (b : Build), p.WellFormed void →
    b.addAll void (lexemePieces p.yield) = .ok (b.grow (p.nodes b.around b.nextSlot))
  | .text value kept, b, _ => by
    cases kept with
    | false => exact congrArg Except.ok (grow_nil b).symm
    | true =>
      show Except.ok (b.addChild _) = _
      rw [verbatim_eq, addChild_eq]
      rfl
  | .hole i, b, _ => congrArg Except.ok (addChild_eq b _)
  | .commentHole _, b, _ => congrArg Except.ok (grow_nil b).symm
  | .idle name pos, b, h => by
    have hadd : b.closeTag void (some name) pos = .ok b := by
      simp only [closeTag, show isVoid void name = true from h, if_true]
    simp only [Phrase.yield, lexemePieces, List.filterMap_cons, Lexeme.piece?, List.filterMap_nil,
      addAll, add, hadd, Phrase.nodes, grow_nil]
  | .leaf name attrs selfClosing pos, b, h => congrArg Except.ok (openTag_leaf h b attrs pos)
  | .element name attrs pos content closing closePos, b, ⟨hvoid, hclose, hcontent⟩ => by
    have hopen := openTag_push hvoid b attrs pos
    have hinner := addAll_yieldAll content
      (b.inside (tagIn b.around b.nextSlot name attrs) pos (slotAfter name b.nextSlot)) hcontent
    have hlast (ns : List Node) (k : Nat) :=
      closeTag_inside (tagIn b.around b.nextSlot name attrs) hvoid hclose b pos closePos
        (slotAfter name b.nextSlot) k ns
    show (b.openTag void name attrs false pos).addAll void
      (lexemePieces (yieldAll content ++ [.close closing closePos])) = _
    rw [hopen, lexemePieces_append, addAll_append, hinner]
    exact (addAll_single void _ _).trans (hlast _ _)

/-- Adding the pieces of content adds its nodes. -/
theorem addAll_yieldAll {void : NameSet} : ∀ (ps : List Phrase) (b : Build),
    WellFormedAll void ps →
    b.addAll void (lexemePieces (yieldAll ps)) = .ok (b.grow (nodesAll b.around b.nextSlot ps))
  | [], b, _ => congrArg Except.ok (grow_nil b).symm
  | p :: ps, b, ⟨hp, hps⟩ => by
    rw [yieldAll, lexemePieces_append, addAll_append, addAll_yield p b hp]
    show (b.grow _).addAll void _ = _
    rw [addAll_yieldAll ps _ hps, around_grow, nextSlot_grow, nodesAll]
    exact congrArg Except.ok (grow_grow ..)

end

/-- Adding the pieces of content to an empty tree builds the tree of the derivation. -/
theorem addAll_start {void : NameSet} {ls : List Lexeme} {ps : List Phrase}
    (h : Derives void ls ps) :
    start.addAll void (lexemePieces ls) =
      .ok ⟨(Phrase.template ps).children, [], (Phrase.template ps).slotCount⟩ := by
  rw [← h.yield_eq, addAll_yieldAll ps start h.wellFormed]
  rfl

end Build

/-! ### The beginning of content -/

/-- `Opens void ls open`: the lexemes `ls` are the beginning of content in which the
    elements `open`, the innermost first, wait for their close tags.  Each comes with
    its name and the place of its `<`. -/
inductive Opens (void : NameSet) : List Lexeme → List (String × Position) → Prop where
  | content {ls : List Lexeme} {ps : List Phrase} (h : Derives void ls ps) : Opens void ls []
  | inside {ls ls' : List Lexeme} {waiting : List (String × Position)} {name : String}
      {attrs : List Attr} {pos : Position} {ps : List Phrase} (outer : Opens void ls waiting)
      (hname : isVoid void name = false) (inner : Derives void ls' ps) :
      Opens void (ls ++ .start name attrs false pos :: ls') ((name, pos) :: waiting)

/-- `Misfit void ls e`: the first close tag of `ls` that does not fit is reported by `e`.
    Either nothing is open, or the innermost open element has another name. -/
inductive Misfit (void : NameSet) : List Lexeme → ParseError → Prop where
  | stray {front back : List Lexeme} {closing : Option String} {pos : Position}
      (h : Opens void front []) (hname : closing.all (fun n => !isVoid void n) = true) :
      Misfit void (front ++ .close closing pos :: back) ⟨.strayClose (closing.getD "/"), pos⟩
  | mismatched {front back : List Lexeme} {waiting : List (String × Position)}
      {expected found : String} {openPos pos : Position}
      (h : Opens void front ((expected, openPos) :: waiting))
      (hname : isVoid void found = false) (hne : found ≠ expected) :
      Misfit void (front ++ .close (some found) pos :: back) ⟨.mismatched expected found, pos⟩

/-- `Ill void ls e`: the lexemes `ls` are not well nested, and `e` is the first fault: a
    close tag that does not fit, or, if only the end of the input is wrong, the
    innermost element that is open there. -/
inductive Ill (void : NameSet) : List Lexeme → ParseError → Prop where
  | misfit {ls : List Lexeme} {e : ParseError} (h : Misfit void ls e) : Ill void ls e
  | unclosed {ls : List Lexeme} {name : String} {pos : Position}
      {waiting : List (String × Position)} (h : Opens void ls ((name, pos) :: waiting)) :
      Ill void ls ⟨.unclosed name, pos⟩

namespace Opens

variable {void : NameSet} {ls ls' : List Lexeme} {waiting : List (String × Position)}

theorem append {ps : List Phrase} (h : Opens void ls waiting) (h' : Derives void ls' ps) :
    Opens void (ls ++ ls') waiting := by
  cases h with
  | content hls => exact .content (hls.append h')
  | inside outer hname inner =>
    rw [List.append_assoc, List.cons_append]
    exact .inside outer hname (inner.append h')

/-- One more phrase extends the innermost content. -/
theorem phrase {p : Phrase} (h : Opens void ls waiting) (hp : p.WellFormed void) :
    Opens void (ls ++ p.yield) waiting :=
  h.append (Derives.single hp)

/-- A close tag that fits turns the innermost open element into a phrase. -/
theorem closeInnermost {name : String} {openPos : Position} {closing : Option String}
    (h : Opens void ls ((name, openPos) :: waiting)) (hclose : closesName closing name = true)
    (pos : Position) : Opens void (ls ++ [.close closing pos]) waiting := by
  cases h with
  | @inside front body _ _ attrs _ ps outer hname inner =>
    have hp : (Phrase.element name attrs openPos ps closing pos).WellFormed void :=
      ⟨hname, hclose, inner.wellFormed⟩
    have hopens := outer.phrase hp
    rw [Phrase.yield, inner.yield_eq] at hopens
    rwa [List.append_assoc, List.cons_append]

end Opens

/-- The beginning of content goes on being one with the next lexeme, or the lexeme is a
    close tag that does not fit. -/
theorem opens_step {void : NameSet} {front : List Lexeme} {waiting : List (String × Position)}
    (h : Opens void front waiting) (l : Lexeme) (back : List Lexeme) :
    (∃ waiting', Opens void (front ++ [l]) waiting') ∨ ∃ e, Misfit void (front ++ l :: back) e := by
  cases l with
  | text value kept => exact Or.inl ⟨_, h.phrase (p := .text value kept) trivial⟩
  | hole i => exact Or.inl ⟨_, h.phrase (p := .hole i) trivial⟩
  | commentHole i => exact Or.inl ⟨_, h.phrase (p := .commentHole i) trivial⟩
  | start name attrs selfClosing pos =>
    by_cases hleaf : (selfClosing || isVoid void name) = true
    · exact Or.inl ⟨_, h.phrase (p := .leaf name attrs selfClosing pos) hleaf⟩
    · obtain ⟨rfl, hname⟩ : selfClosing = false ∧ isVoid void name = false := by
        simpa using hleaf
      exact Or.inl ⟨_, .inside h hname Derives.nil⟩
  | close closing pos =>
    by_cases hidle : closing.any (isVoid void) = true
    · -- the close tag of an element without content says nothing, whatever is open
      obtain ⟨name, rfl, hname⟩ : ∃ name, closing = some name ∧ isVoid void name = true := by
        cases closing <;> simp_all
      exact Or.inl ⟨_, h.phrase (p := .idle name pos) hname⟩
    · have hreal : closing.all (fun n => !isVoid void n) = true := by
        cases closing <;> simp_all
      rcases waiting with _ | ⟨⟨name, openPos⟩, waiting⟩
      · exact Or.inr ⟨_, .stray h hreal⟩
      · by_cases hclose : closesName closing name = true
        · exact Or.inl ⟨_, h.closeInnermost hclose pos⟩
        · rcases closing with _ | found
          · simp [closesName] at hclose
          · exact Or.inr ⟨_,
              .mismatched h (by simpa using hreal) (by simpa [closesName] using hclose)⟩

/-- Lexemes begin content, or one of them is the first close tag that does not fit. -/
theorem opens_or_misfit {void : NameSet} {front : List Lexeme}
    {waiting : List (String × Position)} (h : Opens void front waiting) (back : List Lexeme) :
    (∃ waiting', Opens void (front ++ back) waiting') ∨ ∃ e, Misfit void (front ++ back) e := by
  induction back generalizing front waiting with
  | nil => exact Or.inl ⟨waiting, by rwa [List.append_nil]⟩
  | cons l back ih =>
    rcases opens_step h l back with ⟨waiting', hnext⟩ | hmisfit
    · have hrest := ih hnext
      rwa [List.append_assoc, List.singleton_append] at hrest
    · exact Or.inr hmisfit

/-- Adding the pieces of the beginning of content succeeds, and leaves open what the
    beginning leaves open. -/
theorem Opens.addAll {void : NameSet} {ls : List Lexeme} {waiting : List (String × Position)}
    (h : Opens void ls waiting) :
    ∃ b, Build.start.addAll void (lexemePieces ls) = .ok b ∧
      b.stack.map (fun o => (o.tag.name, o.pos)) = waiting := by
  induction h with
  | content hls => exact ⟨_, Build.addAll_start hls, rfl⟩
  | @inside ls ls' waiting name attrs pos ps _ hname inner ih =>
    obtain ⟨b, hb, hstack⟩ := ih
    have hopen := Build.openTag_push hname b attrs pos
    have hinner := Build.addAll_yieldAll ps
      (b.inside (Phrase.tagIn b.around b.nextSlot name attrs) pos
        (Phrase.slotAfter name b.nextSlot)) inner.wellFormed
    rw [inner.yield_eq, ← hopen] at hinner
    have hstack' : (b.openTag void name attrs false pos).stack.map
        (fun o => (o.tag.name, o.pos)) = (name, pos) :: waiting := by
      rw [hopen, ← hstack]
      rfl
    have hrun : Build.start.addAll void (lexemePieces (ls ++ .start name attrs false pos :: ls')) =
        (b.openTag void name attrs false pos).addAll void (lexemePieces ls') := by
      rw [lexemePieces_append, Build.addAll_append, hb]
      rfl
    exact ⟨_, hrun.trans hinner,
      (Build.map_stack_grow _ _ fun tag pos => (tag.name, pos)).trans hstack'⟩

/-- A close tag that does not fit stops the adding of pieces with its fault. -/
theorem Misfit.addAll {void : NameSet} {ls : List Lexeme} {e : ParseError}
    (h : Misfit void ls e) : Build.start.addAll void (lexemePieces ls) = .error e := by
  cases h with
  | @stray front back closing pos h hname =>
    obtain ⟨b, hb, hstack⟩ := h.addAll
    have hclose : b.closeTag void closing pos = .error ⟨.strayClose (closing.getD "/"), pos⟩ := by
      rw [List.map_eq_nil_iff] at hstack
      cases closing <;> simp_all [Build.closeTag]
    rw [lexemePieces_append, Build.addAll_append, hb]
    exact Build.addAll_error (p := .close closing pos) hclose _
  | @mismatched front back waiting expected found openPos pos h hname hne =>
    obtain ⟨b, hb, hstack⟩ := h.addAll
    obtain ⟨o, rest, hb', hfirst, -⟩ := List.map_eq_cons_iff.mp hstack
    have hname' : o.tag.name = expected := congrArg Prod.fst hfirst
    have hclose : b.closeTag void (some found) pos =
        .error ⟨.mismatched expected found, pos⟩ := by
      simp only [Build.closeTag, hname, Bool.false_eq_true, if_false, hb', hname', Ne.symm hne]
    rw [lexemePieces_append, Build.addAll_append, hb]
    exact Build.addAll_error (p := .close (some found) pos) hclose _

/-! ### Parsing -/

section
variable {void : NameSet} {ts : List Token} {ls : List Lexeme}

theorem parseTokens_of_lexed (hls : Lexed (lastPosition ts) none ts ls) :
    parseTokens void ts =
      (Build.start.addAll void (lexemePieces ls)).bind fun b => b.finish := by
  simp only [parseTokens, pieces, hls.readPieces_eq]
  cases Build.start.addAll void (lexemePieces ls) <;> rfl

/-- A derivation is parsed into its tree. -/
theorem parseTokens_of_derives {ps : List Phrase} (hls : Lexed (lastPosition ts) none ts ls)
    (h : Derives void ls ps) : parseTokens void ts = .ok (Phrase.template ps) := by
  rw [parseTokens_of_lexed hls, Build.addAll_start h]
  rfl

/-- Lexemes that are not well nested are refused with their first fault. -/
theorem parseTokens_of_ill {e : ParseError} (hls : Lexed (lastPosition ts) none ts ls)
    (h : Ill void ls e) : parseTokens void ts = .error e := by
  rw [parseTokens_of_lexed hls]
  cases h with
  | misfit h => rw [h.addAll]; rfl
  | @unclosed name pos waiting h =>
    obtain ⟨b, hb, hstack⟩ := h.addAll
    obtain ⟨o, rest, hb', hfirst, -⟩ := List.map_eq_cons_iff.mp hstack
    obtain ⟨rfl, rfl⟩ := Prod.mk.injEq .. ▸ hfirst
    rw [hb]
    show b.finish = _
    rw [Build.finish, hb']

/-- Lexemes have a derivation or a fault. -/
theorem derives_or_ill (void : NameSet) (ls : List Lexeme) :
    (∃ ps, Derives void ls ps) ∨ ∃ e, Ill void ls e := by
  have hstart : Opens void [] [] := .content Derives.nil
  rcases opens_or_misfit hstart ls with ⟨waiting, h⟩ | ⟨e, h⟩
  · cases h with
    | content h => exact Or.inl ⟨_, h⟩
    | inside outer hname inner => exact Or.inr ⟨_, .unclosed (.inside outer hname inner)⟩
  · exact Or.inr ⟨e, .misfit h⟩

/-- Tokens that have a tree can be cut into lexemes that have a derivation. -/
theorem exists_derives_of_parseTokens {t : Template} (h : parseTokens void ts = .ok t) :
    ∃ ls ps, Lexed (lastPosition ts) none ts ls ∧ Derives void ls ps ∧
      t = Phrase.template ps := by
  have hstop : (readPieces (lastPosition ts) none ts).2 = none := by
    simp only [parseTokens, pieces] at h
    split at h <;> simp_all
  obtain ⟨ls, hls⟩ := exists_lexed none ts hstop
  rcases derives_or_ill void ls with ⟨ps, hps⟩ | ⟨e, he⟩
  · rw [parseTokens_of_derives hls hps] at h
    injection h with h
    exact ⟨ls, ps, hls, hps, h.symm⟩
  · rw [parseTokens_of_ill hls he] at h
    cases h

end

/-- **Parsing accepts exactly the well-nested lists of tokens.**  A list has a tree if and
    only if it can be cut into lexemes, so that all its tags are complete, and the
    lexemes have a derivation; the tree is that of the derivation, and there is no
    other derivation.  If the list can be cut but has no derivation, parsing fails with
    the first fault of nesting, and with no other error. -/
theorem parseTokens_wellNested (void : NameSet) (ts : List Token) :
    (∀ t, parseTokens void ts = .ok t ↔
      ∃ ls ps, Lexed (lastPosition ts) none ts ls ∧ Derives void ls ps ∧
        t = Phrase.template ps) ∧
    (∀ ls ls' ps ps', Lexed (lastPosition ts) none ts ls → Lexed (lastPosition ts) none ts ls' →
      Derives void ls ps → Derives void ls' ps' → ls = ls' ∧ ps = ps') ∧
    (∀ ls, Lexed (lastPosition ts) none ts ls →
      ∀ e, parseTokens void ts = .error e ↔ Ill void ls e) := by
  refine ⟨fun t => ⟨exists_derives_of_parseTokens, ?_⟩, ?_, ?_⟩
  · rintro ⟨ls, ps, hls, hps, rfl⟩
    exact parseTokens_of_derives hls hps
  · intro ls ls' ps ps' hls hls' hps hps'
    obtain rfl := hls.unique hls'
    exact ⟨rfl, hps.unique hps'⟩
  · intro ls hls e
    refine ⟨fun h => ?_, parseTokens_of_ill hls⟩
    rcases derives_or_ill void ls with ⟨ps, hps⟩ | ⟨e', he'⟩
    · rw [parseTokens_of_derives hls hps] at h
      cases h
    · rw [parseTokens_of_ill hls he'] at h
      injection h with h
      exact h ▸ he'

/-- The tokens of `<a></b>`. -/
def crossedTokens : List Token :=
  [⟨.openAngle, ⟨0, 0⟩⟩, ⟨.ident "a", ⟨0, 1⟩⟩, ⟨.closeAngle, ⟨0, 2⟩⟩, ⟨.openAngle, ⟨0, 3⟩⟩,
    ⟨.slash, ⟨0, 4⟩⟩, ⟨.ident "b", ⟨0, 5⟩⟩, ⟨.closeAngle, ⟨0, 6⟩⟩]

/-- The close tag of `<a></b>` is refused for not being that of `a`. -/
theorem parseTokens_wellNested_crossed :
    Lexed (lastPosition crossedTokens) none crossedTokens
      [.start "a" [] false ⟨0, 0⟩, .close (some "b") ⟨0, 3⟩] ∧
    parseTokens .empty crossedTokens = .error ⟨.mismatched "a" "b", ⟨0, 3⟩⟩ := by
  have hscan (stop : Position) (ts : List Token) :
      readAttrs stop (⟨.closeAngle, ⟨0, 2⟩⟩ :: ts) = .ok ([], false, ts) := by
    rw [readAttrs.eq_def]
  have hls : Lexed (lastPosition crossedTokens) none crossedTokens
      [.start "a" [] false ⟨0, 0⟩, .close (some "b") ⟨0, 3⟩] :=
    .start (hscan _ _) (.close .nil)
  have hopens : Opens .empty [.start "a" [] false ⟨0, 0⟩] [("a", ⟨0, 0⟩)] :=
    .inside (.content Derives.nil) rfl Derives.nil
  have hill : Ill .empty [.start "a" [] false ⟨0, 0⟩, .close (some "b") ⟨0, 3⟩]
      ⟨.mismatched "a" "b", ⟨0, 3⟩⟩ := .misfit (.mismatched hopens rfl (by decide))
  exact ⟨hls, ((parseTokens_wellNested .empty crossedTokens).2.2 _ hls _).mpr hill⟩

end Stencil.Markup
