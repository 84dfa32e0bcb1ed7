/-
  Stencil/Proofs/Markup/Legible.lean
  ==================================
  **Trees that are read back from what is written.**

  Parsing what is written gives a tree again if nothing of the tree is lost on the way:
  `Tree.Legible` says what that takes.  A name may be of any case, so the element may own a
  slot, and then it has content whatever its name is; the body of a raw-text element must
  not hold its own close tag, and has to be read to the letter where it is written so.  For
  such trees `Tree.reading` is what parsing comes to, and `parse_legible` that it does.

  The proof goes along the trees.  `Spells` says of some of them that what they are
  written as is cut into the lexemes of phrases that come to them, whatever is written
  behind; so what holds of trees one by one holds of all together.
-/
import Stencil.Document.Tree
import Stencil.Proofs.Markup.Scanned
import Stencil.Proofs.Markup.WellNested

namespace Stencil

namespace Document

open Markup
open Phrase (tagIn textIn slotAfter)

/-! ### Legible trees -/

/-- The names of attributes that stand for themselves. -/
def IsAttributeName (name : String) : Prop :=
  name.toList ≠ [] ∧ (∀ c ∈ name.toList, c.isAlphanum = true ∨ c = '-' ∨ c = '_') ∧ name ≠ "ref"

instance (name : String) : Decidable (IsAttributeName name) :=
  decidable_of_iff (name ≠ "" ∧ (name.toList.all fun c => c.isAlphanum || c == '-' || c == '_') ∧
      name ≠ "ref") <| by
    simp [IsAttributeName, or_assoc]

theorem IsAttributeName.isWord {name : String} (h : IsAttributeName name) : IsWord name := by
  refine ⟨h.1, fun c hc => ?_⟩
  rcases h.2.1 c hc with hc | rfl | rfl
  · simp [isNameChar, hc]
  · rfl
  · rfl

theorem IsAttributeName.not_mem {name : String} (h : IsAttributeName name) {c : Char}
    (hc : (c.isAlphanum || c == '-' || c == '_') = false) : c ∉ name.toList := by
  intro hmem
  have hname : (c.isAlphanum || c == '-' || c == '_') = true := by
    simpa [or_assoc] using h.2.1 c hmem
  rw [hc] at hname
  cases hname

theorem IsAttributeName.ne_spreadMark {name : String} (h : IsAttributeName name) :
    name ≠ spreadMark := by
  rintro rfl
  exact h.not_mem (c := '.') (by decide) (by decide)

def Tree.isText : Tree → Bool
  | .text _ => true
  | _ => false

/-- What is written for the text `value` in an element `parent` is read in it again. -/
def Survives (parent : Option String) (value : String) : Prop :=
  ∀ around : Option Tag, around.map Tag.name = parent →
    textIn around (textHtml parent value) = value

/-- What an element whose body is raw may hold: nothing, or one text that is read back and in
    which no close tag of the element is written. -/
def IsRawBody (name : String) (children : List Tree) : Prop :=
  children = [] ∨ ∃ value, children = [.text value] ∧ Survives (some name) value ∧
    StaysIn name (textHtml (some name) value)

mutual

/-- A tree that can be read off its written form, where names are of any case. -/
def Tree.Legible : Tree → Prop
  | .element name _ as children =>
    IsTagName name ∧ (∀ a ∈ as, IsAttributeName a.name) ∧ (as.map (·.name)).Nodup ∧
      (isVoid NameSet.voidElements name = true → children = []) ∧
      (NameSet.rawTextElements.contains name = true → IsRawBody name children) ∧
      LegibleAll children
  | .text value => Text.allBlank value = false
  | _ => False

/-- Trees that can be read off their written form, of which no two texts are neighbours. -/
def LegibleAll : List Tree → Prop
  | [] => True
  | t :: ts => t.Legible ∧ (t.isText = true → ∀ u ∈ ts.head?, u.isText = false) ∧ LegibleAll ts

end

mutual

/-- The nodes that a tree is parsed to in the element `around`, if `slot` is the next free slot,
    and the next free slot behind it. -/
def Tree.reading (around : Option Tag) (slot : Nat) : Tree → List Node × Nat
  | .element name _ as children =>
    let tag := tagIn around slot name (as.map readAs)
    let inner := readingAll (some tag) (slotAfter name slot) children
    ([.element tag inner.1], inner.2)
  | .text value => ([.text value], slot)
  | _ => ([], slot)

/-- The nodes that several trees are parsed to, and the next free slot behind them. -/
def readingAll (around : Option Tag) (slot : Nat) : List Tree → List Node × Nat
  | [] => ([], slot)
  | t :: ts =>
    let front := t.reading around slot
    let back := readingAll around front.2 ts
    (front.1 ++ back.1, back.2)

end

end Document

namespace Markup

open Document
open Document.Tree.html (htmlAll)
open Phrase (nodesAll tagIn textIn slotAfter yieldAll WellFormedAll)

/-! ### The element tables -/

/-- No element is void and raw. -/
theorem not_raw_of_void {name : String} (h : NameSet.voidElements.contains name = true) :
    NameSet.rawTextElements.contains name = false := by
  have hapart : ∀ n ∈ NameSet.voidElements.names, ∀ n' ∈ NameSet.rawTextElements.names,
      Text.sameName n n' = false := by decide +kernel
  obtain ⟨n, hn, hsame⟩ := List.any_eq_true.mp h
  rw [NameSet.contains, List.any_eq_false]
  intro n' hn' hsame'
  rw [Text.sameName_comm] at hsame'
  have hboth := hapart n hn n' hn'
  rw [Text.sameName_trans hsame hsame'] at hboth
  cases hboth

theorem isVoid_of_unclosed {name : String} (h : unclosedElements.contains name = true) :
    isVoid NameSet.voidElements name = true := by
  have hall : ∀ n ∈ unclosedElements, isVoid NameSet.voidElements n = true := by decide +kernel
  exact hall name (by simpa using h)

theorem contains_of_isVoid {void : NameSet} {name : String} (h : isVoid void name = true) :
    void.contains name = true := by
  rw [isVoid, Bool.and_eq_true] at h
  exact h.2

theorem not_isVoid_of_raw {name : String} (h : NameSet.rawTextElements.contains name = true) :
    isVoid NameSet.voidElements name = false := by
  rw [Bool.eq_false_iff]
  intro hvoid
  rw [not_raw_of_void (contains_of_isVoid hvoid)] at h
  cases h

theorem raw_of_verbatim {name : String} (h : verbatimElements.contains name = true) :
    NameSet.rawTextElements.contains name = true := by
  have hall : ∀ n ∈ verbatimElements, NameSet.rawTextElements.contains n = true := by decide +kernel
  exact hall name (by simpa using h)

/-- The elements whose texts are read to the letter are raw. -/
theorem raw_of_readsVerbatim {name : String}
    (h : (Text.sameName name "script" || Text.sameName name "style") = true) :
    NameSet.rawTextElements.contains name = true := by
  have hall : ∀ n ∈ ["script", "style"], NameSet.rawTextElements.contains n = true := by
    decide +kernel
  rw [Bool.or_eq_true] at h
  rcases h with h | h
  · rw [NameSet.contains_congr _ h]
    exact hall _ (by simp)
  · rw [NameSet.contains_congr _ h]
    exact hall _ (by simp)

/-- Texts are escaped in an element that is not raw. -/
theorem textHtml_of_not_raw {parent : Option String}
    (hparent : ∀ name ∈ parent, NameSet.rawTextElements.contains name = false) (value : String) :
    textHtml parent value = Text.escapeContent value := by
  rw [textHtml, if_neg]
  intro hverbatim
  cases parent with
  | none => cases hverbatim
  | some name =>
    have hraw := hparent name rfl
    rw [raw_of_verbatim hverbatim] at hraw
    cases hraw

/-- Texts survive in an element that is not raw. -/
theorem survives_of_not_raw {parent : Option String}
    (hparent : ∀ name ∈ parent, NameSet.rawTextElements.contains name = false) (value : String) :
    Survives parent value := by
  intro around haround
  rw [textHtml_of_not_raw hparent, textIn, if_neg, decodeReferences_escapeContent]
  intro hread
  cases around with
  | none => cases hread
  | some tag =>
    have hraw := hparent tag.name haround.symm
    rw [raw_of_readsVerbatim hread] at hraw
    cases hraw

theorem allBlank_textHtml {value : String} (h : Text.allBlank value = false)
    (parent : Option String) : Text.allBlank (textHtml parent value) = false := by
  rw [textHtml]
  split
  · exact h
  · exact allBlank_escapeContent h

theorem keepsText_of_not_blank {value : String} (h : Text.allBlank value = false)
    (before after : Option TokenKind) : keepsText before after value = true := by
  rw [keepsText, h]
  rfl

theorem textHtml_ne_empty {value : String} (h : Text.allBlank value = false)
    (parent : Option String) : textHtml parent value ≠ "" := by
  intro hempty
  have hblank := allBlank_textHtml h parent
  rw [hempty] at hblank
  cases hblank

/-! ### Phrases of a page -/

/-- The phrases `ps` come to the trees `ts`, where these stand in an element `parent`. -/
structure Fits (parent : Option String) (ts : List Tree) (ps : List Phrase) : Prop where
  wellFormed : WellFormedAll NameSet.voidElements ps
  nodes : ∀ around slot, around.map Tag.name = parent →
    nodesAll around slot ps = readingAll around slot ts

theorem nodesAll_append (around : Option Tag) (slot : Nat) (ps qs : List Phrase) :
    nodesAll around slot (ps ++ qs) =
      ((nodesAll around slot ps).1 ++ (nodesAll around (nodesAll around slot ps).2 qs).1,
        (nodesAll around (nodesAll around slot ps).2 qs).2) := by
  induction ps generalizing slot with
  | nil => simp [nodesAll]
  | cons p ps ih => simp [nodesAll, ih, List.append_assoc]

theorem Fits.cons {parent : Option String} {t : Tree} {ts : List Tree} {ps qs : List Phrase}
    (h : Fits parent [t] ps) (h' : Fits parent ts qs) : Fits parent (t :: ts) (ps ++ qs) where
  wellFormed := Phrase.wellFormedAll_append h.wellFormed h'.wellFormed
  nodes around slot haround := by
    rw [nodesAll_append, h.nodes around slot haround, h'.nodes around _ haround]
    simp [readingAll]

/-- An element with content. -/
theorem Fits.element {parent : Option String} {name : String} {space : Space} {as : Attributes}
    {children : List Tree} {ps : List Phrase} (hvoid : isVoid NameSet.voidElements name = false)
    (h : Fits (some name) children ps) (pos closePos : Position) :
    Fits parent [.element name space as children]
      [.element name (as.map readAs) pos ps (some name) closePos] where
  wellFormed := ⟨⟨hvoid, by simp [closesName], h.wellFormed⟩, trivial⟩
  nodes around slot _ := by
    have hinner := h.nodes (some (tagIn around slot name (as.map readAs))) (slotAfter name slot) rfl
    simp [nodesAll, Phrase.nodes, hinner, readingAll, Tree.reading]

/-- An element without content, and perhaps a close tag that says nothing. -/
theorem Fits.leaf {parent : Option String} {name : String} {space : Space} {as : Attributes}
    (hvoid : isVoid NameSet.voidElements name = true) {idle : List Phrase}
    (hidle : idle = [] ∨ ∃ pos, idle = [.idle name pos]) (pos : Position) :
    Fits parent [.element name space as []] (.leaf name (as.map readAs) false pos :: idle) where
  wellFormed := by
    refine ⟨by simp [Phrase.WellFormed, hvoid], ?_⟩
    rcases hidle with rfl | ⟨closePos, rfl⟩
    · trivial
    · exact ⟨hvoid, trivial⟩
  nodes around slot _ := by
    rcases hidle with rfl | ⟨closePos, rfl⟩
    · simp [nodesAll, Phrase.nodes, readingAll, Tree.reading]
    · simp [nodesAll, Phrase.nodes, readingAll, Tree.reading]

/-- A text that is kept. -/
theorem Fits.text {parent : Option String} {value : String} (h : Survives parent value) :
    Fits parent [.text value] [.text (textHtml parent value) true] where
  wellFormed := ⟨trivial, trivial⟩
  nodes around slot haround := by
    simp [nodesAll, Phrase.nodes, h around haround, readingAll, Tree.reading]

/-! ### Lexemes of a page -/

/-- `Spells parent ts r`: the trees `ts`, which stand in an element `parent`, are written as
    phrases that come to them, if `r` is what is written behind. -/
def Spells (parent : Option String) (ts : List Tree) (r : List Char) : Prop :=
  ∀ stop offset, ∃ offset' ps, Fits parent ts ps ∧
    ∀ ls, (∀ before, Lexed stop before (tokensFrom NameSet.rawTextElements .text offset' r) ls) →
      ∀ before, Lexed stop before
        (tokensFrom NameSet.rawTextElements .text offset ((htmlAll parent ts).toList ++ r))
        (yieldAll ps ++ ls)

section

variable {parent : Option String} {r : List Char}

theorem Spells.nil : Spells parent [] r := fun _ offset =>
  ⟨offset, [], ⟨trivial, fun _ _ _ => rfl⟩, fun _ hls before => hls before⟩

theorem Spells.cons {t : Tree} {ts : List Tree}
    (h : Spells parent [t] ((htmlAll parent ts).toList ++ r)) (h' : Spells parent ts r) :
    Spells parent (t :: ts) r := by
  intro stop offset
  obtain ⟨o₁, ps, hps, hlex⟩ := h stop offset
  obtain ⟨o', qs, hqs, hlex'⟩ := h' stop o₁
  refine ⟨o', ps ++ qs, hps.cons hqs, fun ls hls before => ?_⟩
  have hchars : (htmlAll parent (t :: ts)).toList ++ r =
      (htmlAll parent [t]).toList ++ ((htmlAll parent ts).toList ++ r) := by
    rw [htmlAll, htmlAll, htmlAll, String.append_empty, String.toList_append, List.append_assoc]
  rw [hchars, Phrase.yieldAll_append, List.append_assoc]
  exact hlex _ (hlex' ls hls) before

/-- A text that is not blank makes a lexeme that is kept. -/
theorem lexed_kept {stop : Position} {value : String} (hvalue : Text.allBlank value = false)
    (pos : Position) {ts : List Token} {ls : List Lexeme} (h : ∀ before, Lexed stop before ts ls)
    (before : Option TokenKind) :
    Lexed stop before (⟨.text value, pos⟩ :: ts) (.text value true :: ls) := by
  rw [← keepsText_of_not_blank hvalue before (ts.head?.map (·.kind))]
  exact Lexed.text (h _)

/-- A text that stands to the letter nowhere else. -/
theorem Spells.text (hparent : ∀ name ∈ parent, NameSet.rawTextElements.contains name = false)
    {value : String} (hvalue : Text.allBlank value = false) (hr : StartsTag r) :
    Spells parent [.text value] r := by
  intro stop offset
  have hplain : '<' ∉ (textHtml parent value).toList := by
    rw [textHtml_of_not_raw hparent]
    exact not_mem_escapeContent value
  obtain ⟨p, o, h⟩ :=
    tokens_text NameSet.rawTextElements (textHtml_ne_empty hvalue parent) hplain hr
    offset
  refine ⟨o, _, Fits.text (survives_of_not_raw hparent value), fun ls hls before => ?_⟩
  rw [htmlAll, htmlAll, String.append_empty, Tree.html, h]
  exact lexed_kept (allBlank_textHtml hvalue parent) p hls before

/-- A start tag and what stands behind it. -/
theorem lexed_startTag (stop : Position) {name : String} (hname : IsTagName name)
    {as : Attributes} (has : ∀ a ∈ as, IsAttributeName a.name) (offset : Nat) :
    ∃ pos offset', ∀ ls, Lexed stop (some .closeAngle)
        (tokensFrom NameSet.rawTextElements
          (InTag.close NameSet.rawTextElements ⟨some name, false, .outside⟩) offset' r) ls →
      ∀ before, Lexed stop before
        (tokensFrom NameSet.rawTextElements .text offset ((startTag name as).toList ++ r))
        (.start name (as.map readAs) false pos :: ls) := by
  obtain ⟨p, p', body, o, h, hread⟩ := tokens_startTag NameSet.rawTextElements hname
    (fun a ha => ⟨(has a ha).isWord, (has a ha).ne_spreadMark⟩) offset r
  refine ⟨p, o, fun ls hls before => ?_⟩
  rw [h]
  exact Lexed.start (hread stop _) hls

theorem lexed_closeTag (stop : Position) {name : String} (hname : IsTagName name)
    (offset : Nat) : ∃ pos offset', ∀ ls, Lexed stop (some .closeAngle)
        (tokensFrom NameSet.rawTextElements .text offset' r) ls →
      ∀ before, Lexed stop before
        (tokensFrom NameSet.rawTextElements .text offset ((closeTag name).toList ++ r))
        (.close (some name) pos :: ls) := by
  obtain ⟨p₁, p₂, p₃, p₄, o, h⟩ := tokens_closeTag NameSet.rawTextElements hname.1
    (Or.inl rfl) offset r
  refine ⟨p₁, o, fun ls hls before => ?_⟩
  rw [h]
  exact Lexed.close hls

variable {name : String} {space : Space} {as : Attributes}

/-- An element without content. -/
theorem Spells.leaf (hname : IsTagName name) (has : ∀ a ∈ as, IsAttributeName a.name)
    (hvoid : isVoid NameSet.voidElements name = true) :
    Spells parent [.element name space as []] r := by
  intro stop offset
  have hmode : InTag.close NameSet.rawTextElements ⟨some name, false, .outside⟩ = .text := by
    simp [InTag.close, not_raw_of_void (contains_of_isVoid hvoid)]
  by_cases hclosed : unclosedElements.contains name = true
  · obtain ⟨pos, o, h⟩ := lexed_startTag stop (r := r) hname has offset
    rw [hmode] at h
    refine ⟨o, _, Fits.leaf hvoid (Or.inl rfl) pos, fun ls hls before => ?_⟩
    rw [htmlAll, htmlAll, String.append_empty, Tree.html, if_pos hclosed, String.append_empty]
    exact h ls (hls _) before
  · obtain ⟨pos, o₁, h₁⟩ := lexed_startTag stop (r := (closeTag name).toList ++ r) hname has
      offset
    rw [hmode] at h₁
    obtain ⟨closePos, o, h⟩ := lexed_closeTag stop (r := r) hname o₁
    refine ⟨o, _, Fits.leaf hvoid (Or.inr ⟨closePos, rfl⟩) pos, fun ls hls before => ?_⟩
    have hchars : (htmlAll parent [.element name space as []]).toList ++ r =
        (startTag name as).toList ++ ((closeTag name).toList ++ r) := by
      rw [htmlAll, htmlAll, String.append_empty, Tree.html, if_neg hclosed, htmlAll,
        String.empty_append, String.toList_append, List.append_assoc]
    rw [hchars]
    exact h₁ _ (h ls (hls _) _) before

/-- The phrases of a raw body that is not blank, or of none. -/
def rawPhrases (body : String) : List Phrase := if body = "" then [] else [.text body true]

/-- An element with a raw body, as it is written. -/
theorem lexed_raw (stop : Position) (hname : IsTagName name)
    (has : ∀ a ∈ as, IsAttributeName a.name) (hraw : NameSet.rawTextElements.contains name = true)
    {body : String} (hbody : StaysIn name body) (hblank : body ≠ "" → Text.allBlank body = false)
    (offset : Nat) :
    ∃ pos closePos offset', ∀ ls,
      (∀ before, Lexed stop before (tokensFrom NameSet.rawTextElements .text offset' r) ls) →
      ∀ before, Lexed stop before
        (tokensFrom NameSet.rawTextElements .text offset
          ((startTag name as).toList ++ (body.toList ++ (closeTag name).toList ++ r)))
        (yieldAll [.element name (as.map readAs) pos (rawPhrases body) (some name) closePos] ++
          ls) := by
  have hmode : InTag.close NameSet.rawTextElements ⟨some name, false, .outside⟩ = .raw name := by
    simp [InTag.close, hraw]
  obtain ⟨pos, o₁, h₁⟩ := lexed_startTag stop
    (r := body.toList ++ (closeTag name).toList ++ r) hname has offset
  rw [hmode] at h₁
  obtain ⟨ts, p₁, p₂, p₃, p₄, o, h, hts⟩ := tokens_raw NameSet.rawTextElements hname.1 hbody o₁ r
  have hlex (rest : List Token) (ls : List Lexeme) (hls : ∀ before, Lexed stop before rest ls)
      (before : Option TokenKind) :
      Lexed stop before (ts ++ rest) (yieldAll (rawPhrases body) ++ ls) := by
    rcases hts with ⟨rfl, rfl⟩ | ⟨hne, p, rfl⟩
    · exact hls before
    · rw [rawPhrases, if_neg hne]
      exact lexed_kept (hblank hne) p hls before
  refine ⟨pos, p₁, o, fun ls hls before => ?_⟩
  have hinner := h₁ _ (h ▸ hlex _ _ (fun _ => Lexed.close (hls _)) _) before
  simpa [yieldAll, Phrase.yield] using hinner

/-- An element with a raw body. -/
theorem Spells.raw (hname : IsTagName name) (has : ∀ a ∈ as, IsAttributeName a.name)
    (hraw : NameSet.rawTextElements.contains name = true) {children : List Tree}
    (hcontent : IsRawBody name children) (hchildren : LegibleAll children) :
    Spells parent [.element name space as children] r := by
  intro stop offset
  have hvoid : isVoid NameSet.voidElements name = false := not_isVoid_of_raw hraw
  have hclosed : ¬ unclosedElements.contains name = true := fun hclosed => by
    rw [isVoid_of_unclosed hclosed] at hvoid
    cases hvoid
  have hchars : (htmlAll parent [.element name space as children]).toList ++ r =
      (startTag name as).toList ++
        ((htmlAll (some name) children).toList ++ (closeTag name).toList ++ r) := by
    rw [htmlAll, htmlAll, String.append_empty, Tree.html, if_neg hclosed, String.toList_append,
      String.toList_append, List.append_assoc]
  obtain ⟨hbody, hblank, hps⟩ : StaysIn name (htmlAll (some name) children) ∧
      (htmlAll (some name) children ≠ "" → Text.allBlank (htmlAll (some name) children) = false) ∧
      Fits (some name) children (rawPhrases (htmlAll (some name) children)) := by
    rcases hcontent with rfl | ⟨value, rfl, hsurvives, hstays⟩
    · rw [htmlAll]
      exact ⟨staysIn_of_not_mem hname.1 (by simp), fun h => absurd rfl h, trivial, fun _ _ _ => rfl⟩
    · have hvalue : Text.allBlank value = false := hchildren.1
      have hhtml : htmlAll (some name) [.text value] = textHtml (some name) value := by
        rw [htmlAll, htmlAll, String.append_empty, Tree.html]
      rw [hhtml, rawPhrases, if_neg (textHtml_ne_empty hvalue _)]
      exact ⟨hstays, fun _ => allBlank_textHtml hvalue _, Fits.text hsurvives⟩
  obtain ⟨pos, closePos, o, hlex⟩ := lexed_raw stop (r := r) hname has hraw hbody hblank offset
  exact ⟨o, _, Fits.element hvoid hps pos closePos,
    fun ls hls before => hchars ▸ hlex ls hls before⟩

/-- An element whose content is markup. -/
theorem Spells.element (hname : IsTagName name) (has : ∀ a ∈ as, IsAttributeName a.name)
    (hvoid : isVoid NameSet.voidElements name = false)
    (hraw : NameSet.rawTextElements.contains name = false) {children : List Tree}
    (hchildren : Spells (some name) children ((closeTag name).toList ++ r)) :
    Spells parent [.element name space as children] r := by
  intro stop offset
  have hmode : InTag.close NameSet.rawTextElements ⟨some name, false, .outside⟩ = .text := by
    simp [InTag.close, hraw]
  have hclosed : ¬ unclosedElements.contains name = true := fun hclosed => by
    rw [isVoid_of_unclosed hclosed] at hvoid
    cases hvoid
  have hchars : (htmlAll parent [.element name space as children]).toList ++ r =
      (startTag name as).toList ++
        ((htmlAll (some name) children).toList ++ ((closeTag name).toList ++ r)) := by
    rw [htmlAll, htmlAll, String.append_empty, Tree.html, if_neg hclosed, String.toList_append,
      String.toList_append, List.append_assoc, List.append_assoc]
  obtain ⟨pos, o₁, h₁⟩ := lexed_startTag stop
    (r := (htmlAll (some name) children).toList ++ ((closeTag name).toList ++ r)) hname has offset
  rw [hmode] at h₁
  obtain ⟨o₂, ps, hps, hlex⟩ := hchildren stop o₁
  obtain ⟨closePos, o, h⟩ := lexed_closeTag stop (r := r) hname o₂
  refine ⟨o, _, Fits.element hvoid hps pos closePos, fun ls hls before => ?_⟩
  rw [hchars]
  have hinner := h₁ _ (hlex _ (h ls (hls _)) _) before
  simpa [yieldAll, Phrase.yield] using hinner

end

/-! ### Pages -/

theorem startsTag_startTag {name : String} (h : IsTagName name) (as : Attributes)
    (r : List Char) : StartsTag ((startTag name as).toList ++ r) := by
  obtain ⟨c, cs, heq, -⟩ := h.1.exists_cons
  refine Or.inr ⟨c, cs ++ ((String.join (as.map attributeHtml)).toList ++ '>' :: r), ?_,
    Or.inl (h.2 c (by simp [heq]))⟩
  rw [startTag]
  simp [String.toList_append, heq]

/-- What is written begins a tag, unless a text comes first. -/
theorem startsTag_htmlAll {ts : List Tree} (hts : LegibleAll ts) {r : List Char}
    (hr : StartsTag r) (hhead : ∀ u ∈ ts.head?, u.isText = false) (parent : Option String) :
    StartsTag ((htmlAll parent ts).toList ++ r) := by
  cases ts with
  | nil =>
    rw [htmlAll]
    exact hr
  | cons t ts =>
    cases t with
    | element name space as children =>
      obtain ⟨⟨hname, -⟩, -⟩ := hts
      rw [htmlAll, Tree.html]
      simp only [String.toList_append, List.append_assoc]
      exact startsTag_startTag hname as _
    | text value =>
      have hno := hhead (.text value) rfl
      cases hno
    | comment value => exact hts.1.elim
    | fragment children => exact hts.1.elim

theorem startsTag_closeTag (name : String) (r : List Char) :
    StartsTag ((closeTag name).toList ++ r) := by
  refine Or.inr ⟨'/', name.toList ++ '>' :: r, ?_, Or.inr rfl⟩
  rw [closeTag]
  simp [String.toList_append]

mutual

theorem spells_tree : ∀ (t : Tree) {parent : Option String} {r : List Char}, t.Legible →
    (∀ name ∈ parent, NameSet.rawTextElements.contains name = false) →
    (t.isText = true → StartsTag r) → Spells parent [t] r
  | .element name space as children, parent, r, hlegible, _, _ => by
    obtain ⟨hname, has, -, hvoid, hraw, hchildren⟩ := hlegible
    cases hisVoid : isVoid NameSet.voidElements name with
    | true =>
      rw [hvoid hisVoid]
      exact Spells.leaf hname has hisVoid
    | false =>
      cases hisRaw : NameSet.rawTextElements.contains name with
      | true => exact Spells.raw hname has hisRaw (hraw hisRaw) hchildren
      | false =>
        have hself (n : String) (hn : n ∈ some name) :
            NameSet.rawTextElements.contains n = false := by
          obtain rfl := Option.some.inj hn
          exact hisRaw
        exact Spells.element hname has hisVoid hisRaw
          (spells_all children hchildren hself (startsTag_closeTag name r))
  | .text value, _, _, hlegible, hparent, hr => Spells.text hparent hlegible (hr rfl)
  | .comment _, _, _, hlegible, _, _ => hlegible.elim
  | .fragment _, _, _, hlegible, _, _ => hlegible.elim

/-- Legible trees are written as phrases that come to them. -/
theorem spells_all : ∀ (ts : List Tree) {parent : Option String} {r : List Char}, LegibleAll ts →
    (∀ name ∈ parent, NameSet.rawTextElements.contains name = false) →
    StartsTag r → Spells parent ts r
  | [], _, _, _, _, _ => Spells.nil
  | t :: ts, parent, _, hlegible, hparent, hr => by
    obtain ⟨ht, hapart, hts⟩ := hlegible
    exact Spells.cons
      (spells_tree t ht hparent fun htext => startsTag_htmlAll hts hr (hapart htext) parent)
      (spells_all ts hts hparent hr)

end

/-- A segment whose lexemes are those of phrases is parsed to what these come to. -/
theorem parse_of_lexed {s : String} {tree : Template}
    (h : ∀ stop, ∃ ps, Lexed stop none (tokensFrom NameSet.rawTextElements .text 0 s.toList)
      (yieldAll ps) ∧ WellFormedAll NameSet.voidElements ps ∧ Phrase.template ps = tree) :
    parse NameSet.voidElements NameSet.rawTextElements [s] = .ok tree := by
  obtain ⟨ps, hlexed, hwell, rfl⟩ := h (lastPosition (tokenize NameSet.rawTextElements [s]))
  exact parseTokens_of_derives hlexed ⟨hwell, rfl⟩

/-- The written form of legible trees is parsed to what they are read as. -/
theorem parse_legible {ts : List Tree} (hts : LegibleAll ts) :
    parse NameSet.voidElements NameSet.rawTextElements [htmlAll none ts] =
      .ok ⟨(readingAll none (rootSlot + 1) ts).1, (readingAll none (rootSlot + 1) ts).2⟩ := by
  refine parse_of_lexed fun stop => ?_
  have hspells : Spells none ts [] := spells_all ts hts (by simp) (Or.inl rfl)
  obtain ⟨o, ps, hps, hlex⟩ := hspells stop 0
  have hlexed := hlex [] (fun before => by rw [tokensFrom_nil]; exact .nil) none
  rw [List.append_nil, List.append_nil] at hlexed
  exact ⟨ps, hlexed, hps.wellFormed, by rw [Phrase.template, hps.nodes none _ rfl]⟩

/-- A raw element around a text: the text is read as one of that element. -/
theorem parse_raw {name value : String} (hname : IsTagName name)
    (hraw : NameSet.rawTextElements.contains name = true) (hbody : StaysIn name value)
    (hvalue : Text.allBlank value = false) :
    parse NameSet.voidElements NameSet.rawTextElements
      [startTag name [] ++ value ++ closeTag name] =
      .ok ⟨[.element (tagIn none (rootSlot + 1) name [])
          [.text (textIn (some (tagIn none (rootSlot + 1) name [])) value)]],
        slotAfter name (rootSlot + 1)⟩ := by
  refine parse_of_lexed fun stop => ?_
  have has : ∀ a ∈ ([] : Attributes), IsAttributeName a.name := by simp
  obtain ⟨pos, closePos, o, hlex⟩ := lexed_raw stop (r := []) hname has hraw hbody
    (fun _ => hvalue) 0
  have hlexed := hlex [] (fun before => by rw [tokensFrom_nil]; exact .nil) none
  have hne : value ≠ "" := fun h => by rw [h] at hvalue; cases hvalue
  rw [List.append_nil, List.append_nil, ← List.append_assoc, ← String.toList_append,
    ← String.toList_append, rawPhrases, if_neg hne] at hlexed
  exact ⟨_, hlexed, ⟨⟨not_isVoid_of_raw hraw, by simp [closesName], trivial, trivial⟩, trivial⟩,
    by simp [Phrase.template, nodesAll, Phrase.nodes]⟩

end Markup
end Stencil
