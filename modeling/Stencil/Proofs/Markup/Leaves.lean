/-
  Stencil/Proofs/Markup/Leaves.lean
  =================================
  **A tree holds what its tokens hold.**

  The leaves of a tree are its texts and holes, those of an element's attributes
  before those of its children.  `parseTokens_leaves` says that they are, one for
  one and in order, the tokens that bring something into a tree (`contentTokens`),
  and that the walk of `Template.holes` meets the holes among them.

  The proof goes through the derivation: its nodes have the leaves that its lexemes
  bring (`Phrase.shows_nodesAll`), and the lexemes bring what the tokens do.  The
  holes of a literal are numbered from left to right (`holeNumbers_tokenize`), so the
  holes of its tree come in growing order.
-/
import Mathlib.Data.List.Forall2
import Stencil.Markup.Walk
import Stencil.Proofs.Markup.Content
import Stencil.Proofs.Markup.Emission
import Stencil.Proofs.Markup.WellNested

namespace Stencil.Markup

/-! ### Leaves -/

/-- A text of a tree with the element around it, or a hole. -/
inductive Leaf where
  | text (around : Option Tag) (value : String)
  | hole (index : Nat)

def Leaf.hole? : Leaf → Option Nat
  | text _ _ => none
  | hole i => some i

/-- A leaf is what a token of this kind brings: the hole of the same number, or the
    text with its references replaced.  Directly inside `script` and `style`, in
    whatever case the names are written, a text stays as it is. -/
def Leaf.Shows : Leaf → TokenKind → Prop
  | text around value, .text raw =>
    value = if around.any fun t => Text.sameName t.name "script" || Text.sameName t.name "style"
      then raw else decodeReferences raw
  | hole i, .hole j => i = j
  | _, _ => False

namespace Node

/-- The leaves of a tree that stands in the element `around`. -/
def leaves (around : Option Tag) : Node → List Leaf
  | text value => [.text around value]
  | hole i => [.hole i]
  | element tag children =>
    (tag.attrs.flatMap Attr.holes).map .hole ++ leavesAll (some tag) children
where
  /-- The leaves of a list of trees, one after the other. -/
  leavesAll (around : Option Tag) : List Node → List Leaf
    | [] => []
    | n :: ns => n.leaves around ++ leavesAll around ns

theorem leavesAll_append (around : Option Tag) (ns ms : List Node) :
    leaves.leavesAll around (ns ++ ms) =
      leaves.leavesAll around ns ++ leaves.leavesAll around ms := by
  induction ns with
  | nil => rfl
  | cons n ns ih => simp only [List.cons_append, leaves.leavesAll, ih, List.append_assoc]

end Node

/-- The leaves of a literal. -/
def Template.leaves (t : Template) : List Leaf := Node.leaves.leavesAll none t.children

/-! ### The leaves of a derivation -/

/-- The leaves `ls` are, one for one, what tokens of the kinds `ks` bring. -/
def Show (ls : List Leaf) (ks : List TokenKind) : Prop := List.Forall₂ Leaf.Shows ls ks

theorem Show.append {ls ls' : List Leaf} {ks ks' : List TokenKind} (h : Show ls ks)
    (h' : Show ls' ks') : Show (ls ++ ls') (ks ++ ks') :=
  List.rel_append h h'

theorem show_holes (holes : List Nat) : Show (holes.map .hole) (holeKinds holes) := by
  induction holes with
  | nil => exact .nil
  | cons i holes ih => exact .cons rfl ih

namespace Phrase

mutual

/-- The nodes of a phrase have the leaves that its lexemes bring. -/
theorem shows_nodes (around : Option Tag) : ∀ (slot : Nat) (p : Phrase),
    Show (Node.leaves.leavesAll around (p.nodes around slot).1) (p.yield.flatMap Lexeme.kinds)
  | _, .text value true => .cons rfl .nil
  | _, .text value false => .nil
  | _, .hole i => .cons rfl .nil
  | _, .commentHole i => .nil
  | _, .idle name pos => .nil
  | slot, .leaf name attrs selfClosing pos => by
    have h := show_holes (attrs.flatMap Attr.holes)
    simpa [nodes, yield, Lexeme.kinds, Node.leaves.leavesAll, Node.leaves, tagIn] using h
  | slot, .element name attrs pos content closing closePos => by
    have hattrs := show_holes (attrs.flatMap Attr.holes)
    have hcontent :=
      shows_nodesAll (some (tagIn around slot name attrs)) (slotAfter name slot) content
    have h := hattrs.append hcontent
    simpa [nodes, yield, Lexeme.kinds, Node.leaves.leavesAll, Node.leaves, tagIn] using h

/-- The nodes of several phrases have the leaves that their lexemes bring. -/
theorem shows_nodesAll (around : Option Tag) : ∀ (slot : Nat) (ps : List Phrase),
    Show (Node.leaves.leavesAll around (nodesAll around slot ps).1)
      ((yieldAll ps).flatMap Lexeme.kinds)
  | _, [] => .nil
  | slot, p :: ps => by
    have h := (shows_nodes around slot p).append (shows_nodesAll around (p.nodes around slot).2 ps)
    simpa [nodesAll, yieldAll, Node.leavesAll_append] using h

end

end Phrase

/-! ### The walk -/

namespace Node

mutual

theorem holes_preorder (around : Option Tag) (depth : Nat) : ∀ n : Node,
    (n.preorder depth).flatMap (fun e => e.2.ownHoles) = (n.leaves around).filterMap Leaf.hole?
  | .text value => rfl
  | .hole i => rfl
  | .element tag children => by
    have hattrs : ((tag.attrs.flatMap Attr.holes).map Leaf.hole).filterMap Leaf.hole? =
        tag.attrs.flatMap Attr.holes := by
      rw [List.filterMap_map]
      exact List.filterMap_some
    rw [preorder, List.flatMap_cons, leaves, List.filterMap_append, hattrs,
      holes_preorderAll (some tag) (depth + 1) children]
    rfl

theorem holes_preorderAll (around : Option Tag) (depth : Nat) : ∀ ns : List Node,
    (preorder.preorderAll depth ns).flatMap (fun e => e.2.ownHoles) =
      (leaves.leavesAll around ns).filterMap Leaf.hole?
  | [] => rfl
  | n :: ns => by
    rw [preorder.preorderAll, List.flatMap_append, holes_preorder around depth n,
      holes_preorderAll around depth ns, leaves.leavesAll, List.filterMap_append]

end

end Node

/-- The holes of a literal are those among its leaves. -/
theorem Template.holes_eq (t : Template) : t.holes = t.leaves.filterMap Leaf.hole? := by
  rw [Template.holes, t.nodes_eq]
  exact Node.holes_preorderAll none 0 t.children

/-! ### The numbers of the holes -/

/-- The number of a hole, also of one in a comment. -/
def TokenKind.holeNumber? : TokenKind → Option Nat
  | .hole i => some i
  | .commentHole i => some i
  | _ => none

/-- The numbers of the holes among tokens. -/
def holeNumbers (ts : List Token) : List Nat := ts.filterMap fun t => t.kind.holeNumber?

theorem Mode.holeNumber?_holeKind (m : Mode) (i : Nat) : (m.holeKind i).holeNumber? = some i := by
  cases m <;> rfl

theorem holeNumbers_push {t : Token} (h : t.kind.holeNumber? = none) (ts : List Token) :
    holeNumbers (t.push ts) = holeNumbers ts := by
  unfold Token.push
  split
  · rfl
  · simp [holeNumbers, h]

/-- No move of the scanner emits a hole: holes stand between the segments. -/
theorem Move.holeNumber?_emitted (raw : NameSet) (m : Mode) (c : Char) (cs : List Char) :
    ∀ e ∈ (m.move raw c cs).emitted, e.2.holeNumber? = none := by
  have h : Moves raw m (c :: cs) (m.move raw c cs) := moves_move m c cs
  generalize c :: cs = w at h
  generalize m.move raw c cs = move at h
  cases h <;> simp [TokenKind.holeNumber?]

theorem holeNumbers_scanRest (raw : NameSet) (seg : Nat) (m : Mode) (offset : Nat)
    (cs : List Char) : holeNumbers (scanRest raw seg m offset cs).1 = [] := by
  fun_induction scanRest raw seg m offset cs with
  | case1 => rfl
  | case2 m offset c cs move ts m' hscan ih =>
    have hpush (es : List (Nat × TokenKind)) (hes : ∀ e ∈ es, e.2.holeNumber? = none) :
        holeNumbers (es.foldr (fun e ts => Token.push ⟨e.2, ⟨seg, offset + e.1⟩⟩ ts) ts) =
          holeNumbers ts := by
      induction es with
      | nil => rfl
      | cons e es ih =>
        rw [List.foldr_cons, holeNumbers_push (hes e List.mem_cons_self)]
        exact ih fun e he => hes e (List.mem_cons_of_mem _ he)
    rw [hpush _ (Move.holeNumber?_emitted raw m c cs)]
    rw [hscan] at ih
    exact ih

/-- The holes between segments are numbered from left to right. -/
theorem holeNumbers_scanSegments (raw : NameSet) (seg : Nat) (m : Mode)
    (segments : List (List Char)) :
    holeNumbers (scanSegments raw seg m segments) = List.range' seg (segments.length - 1) := by
  fun_induction scanSegments raw seg m segments with
  | case1 => rfl
  | case2 seg m s => exact holeNumbers_scanRest raw seg _ 0 s
  | case3 seg m s s' rest ts m' hscan ih =>
    have hts : holeNumbers ts = [] := by
      have h := holeNumbers_scanRest raw seg (m.resume s) 0 s
      rw [scanSegment] at hscan
      rwa [hscan] at h
    have happend (ts' : List Token) :
        holeNumbers (ts ++ ⟨m'.holeKind seg, ⟨seg, Text.byteLength s⟩⟩ :: ts') =
          seg :: holeNumbers ts' := by
      simp only [holeNumbers, List.filterMap_append, List.filterMap_cons,
        Mode.holeNumber?_holeKind] at hts ⊢
      rw [hts, List.nil_append]
    rw [happend, ih]
    rfl

theorem holeNumbers_tokenize (raw : NameSet) (segments : List String) :
    holeNumbers (tokenize raw segments) = List.range' 0 (segments.length - 1) := by
  rw [tokenize, holeNumbers_scanSegments, List.length_map]

/-- Leaves have the holes of the tokens that bring them. -/
theorem Show.holes_eq {ls : List Leaf} {ks : List TokenKind} (h : Show ls ks) :
    ls.filterMap Leaf.hole? = ks.filterMap TokenKind.holeNumber? := by
  induction h with
  | nil => rfl
  | @cons l k ls ks hshows _ ih =>
    have hl : l.hole? = k.holeNumber? := by
      cases l with
      | text around value => cases k <;> first | rfl | cases hshows
      | hole i =>
        cases k with
        | hole j => exact congrArg some hshows
        | _ => cases hshows
    rw [List.filterMap_cons, List.filterMap_cons, hl, ih]

/-! ### Parsing keeps content -/

/-- The leaves of a tree are what its tokens bring. -/
theorem show_of_parseTokens {void : NameSet} {ts : List Token} {t : Template}
    (h : parseTokens void ts = .ok t) : Show t.leaves ((contentTokens ts).map (·.kind)) := by
  obtain ⟨ls, ps, hls, hps, rfl⟩ := exists_derives_of_parseTokens h
  have hkinds : (contentTokens ts).map (·.kind) = ls.flatMap Lexeme.kinds := hls.kindsFrom_eq
  rw [hkinds, ← hps.yield_eq]
  exact Phrase.shows_nodesAll none (rootSlot + 1) ps

/-- The holes of a tree are holes of its tokens, in the same order. -/
theorem holes_sublist {void : NameSet} {ts : List Token} {t : Template}
    (h : parseTokens void ts = .ok t) : t.holes.Sublist (holeNumbers ts) := by
  have hholes : t.holes = holeNumbers (contentTokens ts) := by
    rw [t.holes_eq, (show_of_parseTokens h).holes_eq, List.filterMap_map]
    rfl
  rw [hholes]
  exact (contentFrom_sublist .content none ts).filterMap _

/-- **Parsing neither loses, nor duplicates, nor reorders content.**  The leaves of the
    tree of a list of tokens are, one for one and in order, what the tokens in
    `contentTokens` bring: all texts but those that only lay out the source, and all
    holes but those in a value that belongs to no attribute.  The walk over the tree
    meets the holes among the leaves.  So the holes of the tree of a literal are met in
    growing order, and each lies between two segments. -/
theorem parseTokens_leaves (void : NameSet) :
    (∀ ts t, parseTokens void ts = .ok t →
      List.Forall₂ Leaf.Shows t.leaves ((contentTokens ts).map (·.kind)) ∧
        t.holes = t.leaves.filterMap Leaf.hole?) ∧
    (∀ raw segments t, parse void raw segments = .ok t →
      t.holes.Pairwise (· < ·) ∧ ∀ i ∈ t.holes, i < segments.length - 1) := by
  constructor
  · intro ts t h
    exact ⟨show_of_parseTokens h, t.holes_eq⟩
  · intro raw segments t h
    have hsub : t.holes.Sublist (List.range' 0 (segments.length - 1)) := by
      rw [← holeNumbers_tokenize raw]
      exact holes_sublist h
    constructor
    · exact List.Pairwise.sublist hsub List.pairwise_lt_range'
    · intro i hi
      simpa using hsub.subset hi

/-- A literal with a hole in each of the two kinds of values that belong to no
    attribute: the second hole stands behind a hole and an `=`, the third one in quotes
    without a name. -/
def lossySegments : List String := ["<p ", "=\"", "\" \"", "\" a=x", ">\n", " a &lt; b</p>"]

/-- Of the five holes the second and the third are lost, and so is the line break. -/
theorem parseTokens_leaves_lossy :
    ∃ t, parse .empty .empty lossySegments = .ok t ∧
      List.Forall₂ Leaf.Shows t.leaves [.hole 0, .hole 3, .hole 4, .text " a &lt; b"] ∧
      t.holes.Pairwise (· < ·) := by
  have hcontent : (contentTokens (tokenize .empty lossySegments)).map (·.kind) =
      [.hole 0, .hole 3, .hole 4, .text " a &lt; b"] := by
    decide +kernel
  have hok : (parse .empty .empty lossySegments).isOk = true := by decide +kernel
  cases h : parse .empty .empty lossySegments with
  | error e =>
    rw [h] at hok
    cases hok
  | ok t =>
    have hleaves := ((parseTokens_leaves .empty).1 _ t h).1
    rw [hcontent] at hleaves
    exact ⟨t, rfl, hleaves, ((parseTokens_leaves .empty).2 .empty lossySegments t h).1⟩

end Stencil.Markup
