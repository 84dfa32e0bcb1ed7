/-
  Stencil/Proofs/Markup/Stretch.lean
  ==================================
  **The tokens of a stretch of a literal.**

  A literal is written as characters with holes between them, and the holes cut it into its
  segments.  `tokensAt` gives the tokens of what is left of a literal at any place of it, and
  the lemmas about it follow the scanner over a hole or over the characters of one move.

  Where a token stands matters to the reader of values without quotes; `pos_ne_of_head` says
  that no token stands in front of its stretch.
-/
import Stencil.Proofs.Markup.Emission

namespace Stencil.Markup

open Text (byteLength)

/-! ### Literals as they are written -/

/-- A character of a literal or a hole in it. -/
inductive SourceSymbol where
  | char (c : Char)
  | hole
deriving DecidableEq, Repr

namespace SourceSymbol

/-- Characters as symbols. -/
def chars (cs : List Char) : List SourceSymbol := cs.map .char

/-- The first segment of a literal and the segments behind it: each hole ends one. -/
def cut : List SourceSymbol → List Char × List (List Char)
  | [] => ([], [])
  | .char c :: l => (c :: (cut l).1, (cut l).2)
  | .hole :: l => ([], (cut l).1 :: (cut l).2)

/-- The segments of a literal. -/
def segments (l : List SourceSymbol) : List String := ((cut l).1 :: (cut l).2).map String.ofList

theorem chars_append (cs cs' : List Char) : chars (cs ++ cs') = chars cs ++ chars cs' :=
  List.map_append

theorem cut_chars (cs : List Char) (l : List SourceSymbol) :
    cut (chars cs ++ l) = (cs ++ (cut l).1, (cut l).2) := by
  induction cs with
  | nil => rfl
  | cons c cs ih =>
    rw [chars, List.map_cons, List.cons_append, cut, ← chars, ih]
    rfl

end SourceSymbol

open SourceSymbol (chars cut cut_chars)

/-! ### Tokens of a stretch -/

/-- The tokens from byte `offset` of segment `seg` on, where `l` is left of the literal. -/
def tokensAt (raw : NameSet) (seg : Nat) (m : Mode) (offset : Nat) (l : List SourceSymbol) :
    List Token :=
  joined (emissionsFrom raw seg m offset (cut l).1 (cut l).2)

section
variable {raw : NameSet} {seg o : Nat} {m m' : Mode} {l : List SourceSymbol}

theorem tokensAt_nil : tokensAt raw seg m o [] = [] := by
  rw [tokensAt, cut, emissionsFrom, joined_nil]

/-- A hole ends its segment. -/
theorem tokensAt_hole : tokensAt raw seg m o (.hole :: l) =
    ⟨m.holeKind seg, ⟨seg, o⟩⟩ ::
      tokensAt raw (seg + 1) (m.afterHole.resume (cut l).1) 0 l := by
  rw [tokensAt, cut, emissionsFrom, joined_cons, push_eq (m.holeKind_ne_text seg)]
  rfl

/-- A move over characters. -/
theorem tokensAt_move (c : Char) (cs : List Char) {emitted : List (Nat × TokenKind)}
    (h : m.move raw c (cs ++ (cut l).1) = ⟨emitted, m', c :: cs, (cut l).1⟩) :
    tokensAt raw seg m o (chars (c :: cs) ++ l) =
      emitted.foldr (fun e ts => Token.push ⟨e.2, ⟨seg, o + e.1⟩⟩ ts)
        (tokensAt raw seg m' (o + byteLength (c :: cs)) l) := by
  rw [tokensAt, cut_chars, List.cons_append, emissionsFrom, joined_emissions, h]
  rfl

/-- A move that emits one token, which is no text. -/
theorem tokensAt_mark {w : List Char} {k : TokenKind} (hw : w ≠ [])
    (h : ∀ c cs, w = c :: cs →
      m.move raw c (cs ++ (cut l).1) = ⟨[(0, k)], m', w, (cut l).1⟩)
    (hk : ∀ value, k ≠ .text value) :
    tokensAt raw seg m o (chars w ++ l) =
      ⟨k, ⟨seg, o⟩⟩ :: tokensAt raw seg m' (o + byteLength w) l := by
  obtain ⟨c, cs, rfl⟩ := List.exists_cons_of_ne_nil hw
  rw [tokensAt_move c cs (h c cs rfl)]
  exact push_eq hk _

/-- A token stands where its stretch begins, or behind that. -/
theorem behind_of_mem {cs : List Char} {more : List (List Char)} {e : Emission}
    (he : e ∈ emissionsFrom raw seg m o cs more) :
    seg < e.token.pos.segment ∨ seg = e.token.pos.segment ∧ o ≤ e.token.pos.offset := by
  fun_induction emissionsFrom raw seg m o cs more with
  | case1 => cases he
  | case2 seg m o s more ih =>
    rcases List.mem_cons.mp he with rfl | he
    · exact Or.inr ⟨rfl, Nat.le_refl _⟩
    · rcases ih he with h | ⟨h, -⟩ <;> exact Or.inl (by omega)
  | case3 seg m o c cs more move ih =>
    rcases List.mem_append.mp he with he | he
    · obtain ⟨k, -, rfl⟩ := List.mem_map.mp he
      exact Or.inr ⟨rfl, Nat.le_add_right _ _⟩
    · rcases ih he with h | ⟨h, h'⟩
      · exact Or.inl h
      · exact Or.inr ⟨h, by omega⟩

theorem pos_ne_of_head {p : Nat} (hp : p < o) :
    ∀ t ∈ (tokensAt raw seg m o l).head?, t.pos ≠ ⟨seg, p⟩ := by
  intro t ht heq
  rw [tokensAt] at ht
  cases hes : emissionsFrom raw seg m o (cut l).1 (cut l).2 with
  | nil =>
    rw [hes] at ht
    cases ht
  | cons e es =>
    have hpos : t.pos = e.token.pos := by
      rw [hes, joined_cons] at ht
      unfold Token.push at ht
      split at ht <;> cases ht <;> rfl
    have hbehind := behind_of_mem (hes ▸ List.mem_cons_self : e ∈ emissionsFrom raw seg m o _ _)
    rw [← hpos, heq] at hbehind
    simp only at hbehind
    omega

/-- A character that is a token of its own. -/
theorem tokensAt_char {c : Char} {k : TokenKind}
    (h : m.move raw c (cut l).1 = ⟨[(0, k)], m', [c], (cut l).1⟩)
    (hk : ∀ value, k ≠ .text value) :
    tokensAt raw seg m o (.char c :: l) =
      ⟨k, ⟨seg, o⟩⟩ :: tokensAt raw seg m' (o + byteLength [c]) l :=
  (tokensAt_move c [] h).trans (push_eq hk _)

end

/-- The tokens of a whole literal. -/
theorem tokenize_segments (raw : NameSet) (l : List SourceSymbol) :
    tokenize raw (SourceSymbol.segments l) = tokensAt raw 0 .text 0 l := by
  have hchars (css : List (List Char)) : (css.map String.ofList).map String.toList = css := by
    rw [List.map_map]
    exact (List.map_congr_left fun cs _ => String.toList_ofList).trans (List.map_id css)
  rw [tokenize_eq_joined, emissions, SourceSymbol.segments, hchars]
  rfl

end Stencil.Markup
