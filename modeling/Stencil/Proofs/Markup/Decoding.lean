/-
  Stencil/Proofs/Markup/Decoding.lean
  ===================================
  **Which references are replaced, and how a text is gone through.**

  The references that count are given as a grammar: a name of the list, or up to
  seven characters that spell the number of a character.  As documented these
  characters are digits; what is recognized may also begin with a plus sign, which
  is one of the seven.  At most one reference stands behind an `&`
  (`reference?_eq_some`, `Accepted.unique`).

  The pass over a text is a relation with the references as a parameter (`Decoded`).
  Replacing is that pass with all references that are accepted, and it differs from the
  pass with the documented ones exactly where a number with a plus sign stands: it is
  shorter there (`Decoded.length_le`).
-/
import Stencil.Proofs.Markup.Unescape
import Stencil.Text.Split
import Mathlib.Data.Nat.Digits.Defs
import Mathlib.Tactic.Ring

namespace Stencil.Markup.Reference

/-! ### Digits -/

/-- The digits in the order of their values; letters may also be capitals. -/
def digits : List Char := "0123456789abcdef".toList

/-- A digit of a base is one of as many digits as the base says. -/
def IsDigit (base : Nat) (c : Char) : Prop := c.toLower ∈ digits.take base

/-- The number that digits spell, the last of them being the ones. -/
def spelled (base : Nat) (ds : List Char) : Nat :=
  Nat.ofDigits base (ds.map fun c => digits.idxOf c.toLower).reverse

/-- All digits there are, in both cases. -/
def allDigits : List Char := "0123456789abcdefABCDEF".toList

section
variable {base n : Nat} {c : Char} {ds : List Char}

/-- The characters between two. -/
def charsFromTo (lo hi : Char) : List Char :=
  (List.range' lo.toNat (hi.toNat + 1 - lo.toNat)).map Char.ofNat

/-- What holds of the characters of a list is tested on them, not on all characters there are. -/
theorem forall_mem_of_all {p : Char → Prop} [DecidablePred p] {cs : List Char}
    (h : cs.all (fun c => decide (p c)) = true) : ∀ c ∈ cs, p c := by
  intro c hc
  exact of_decide_eq_true (List.all_eq_true.mp h c hc)

theorem mem_charsFromTo {lo hi : Char} (hlo : lo ≤ c) (hhi : c ≤ hi) : c ∈ charsFromTo lo hi := by
  refine List.mem_map.mpr ⟨c.toNat, List.mem_range'_1.mpr ?_, Char.ofNat_toNat c⟩
  have hlo : lo.toNat ≤ c.toNat := hlo
  have hhi : c.toNat ≤ hi.toNat := hhi
  omega

theorem mem_allDigits_of_digitValue? (h : digitValue? base c = some n) : c ∈ allDigits := by
  unfold digitValue? at h
  simp only at h
  split at h
  · rename_i hdigit
    simp only [Char.isDigit, Bool.and_eq_true, decide_eq_true_eq] at hdigit
    have hrange : ∀ d ∈ charsFromTo '0' '9', d ∈ allDigits := forall_mem_of_all (by decide)
    exact hrange c (mem_charsFromTo hdigit.1 hdigit.2)
  · split at h
    · rename_i hlower
      simp only [Bool.and_eq_true, decide_eq_true_eq] at hlower
      have hrange : ∀ d ∈ charsFromTo 'a' 'f', d ∈ allDigits := forall_mem_of_all (by decide)
      exact hrange c (mem_charsFromTo hlower.1 hlower.2)
    · split at h
      · rename_i hupper
        simp only [Bool.and_eq_true, decide_eq_true_eq] at hupper
        have hrange : ∀ d ∈ charsFromTo 'A' 'F', d ∈ allDigits := forall_mem_of_all (by decide)
        exact hrange c (mem_charsFromTo hupper.1 hupper.2)
      · simp at h

theorem IsDigit.mem_allDigits (h : IsDigit base c) : c ∈ allDigits := by
  have hdigits : c.toLower ∈ digits := List.mem_of_mem_take h
  by_cases hupper : 'A' ≤ c ∧ c ≤ 'Z'
  · have hrange : ∀ d ∈ charsFromTo 'A' 'Z', d.toLower ∈ digits → d ∈ allDigits :=
      forall_mem_of_all (by decide)
    exact hrange c (mem_charsFromTo hupper.1 hupper.2) hdigits
  · have hsame : c.toLower = c := dif_neg hupper
    rw [hsame] at hdigits
    have hall : ∀ d ∈ digits, d ∈ allDigits := forall_mem_of_all (by decide)
    exact hall c hdigits

instance (base : Nat) (c : Char) : Decidable (IsDigit base c) :=
  inferInstanceAs (Decidable (c.toLower ∈ digits.take base))

theorem digitValue?_eq (hbase : base = 10 ∨ base = 16) (c : Char) :
    digitValue? base c = if IsDigit base c then some (digits.idxOf c.toLower) else none := by
  by_cases hc : c ∈ allDigits
  · rcases hbase with rfl | rfl
    · have htable : ∀ d ∈ allDigits, digitValue? 10 d =
          if IsDigit 10 d then some (digits.idxOf d.toLower) else none :=
            forall_mem_of_all (by decide)
      exact htable c hc
    · have htable : ∀ d ∈ allDigits, digitValue? 16 d =
          if IsDigit 16 d then some (digits.idxOf d.toLower) else none :=
            forall_mem_of_all (by decide)
      exact htable c hc
  · rw [if_neg fun h => hc h.mem_allDigits]
    cases hvalue : digitValue? base c with
    | none => rfl
    | some n => exact absurd (mem_allDigits_of_digitValue? hvalue) hc

/-- Digits are read as the number that they spell. -/
theorem number?_eq_some (hbase : base = 10 ∨ base = 16) :
    number? base ds = some n ↔ ds ≠ [] ∧ (∀ c ∈ ds, IsDigit base c) ∧ n = spelled base ds := by
  -- What was read before stands as many places higher as there are digits to come.
  have hfold : ∀ acc, ds.foldlM (fun n c => (digitValue? base c).map (n * base + ·)) acc =
      if ds.all (fun c => decide (IsDigit base c)) then
        some (acc * base ^ ds.length + spelled base ds) else none := by
    induction ds with
    | nil => simp [spelled]
    | cons c ds ih =>
      intro acc
      rw [List.foldlM_cons, digitValue?_eq hbase]
      by_cases hc : IsDigit base c
      · rw [if_pos hc]
        simp only [Option.map_some, Option.bind_eq_bind, Option.bind_some, ih, List.all_cons,
          decide_eq_true hc, Bool.true_and]
        congr 2
        simp [spelled, Nat.ofDigits_append]
        ring
      · simp [hc]
  cases ds with
  | nil => simp [number?]
  | cons c ds =>
    rw [number?.eq_2 _ (c :: ds) nofun, hfold 0]
    split
    · rename_i hall
      rw [Option.some.injEq, Nat.zero_mul, Nat.zero_add]
      exact ⟨fun h => ⟨List.cons_ne_nil c ds, forall_mem_of_all hall, h.symm⟩, fun h => h.2.2.symm⟩
    · rename_i hall
      refine ⟨nofun, fun h => absurd (List.all_eq_true.mpr fun d hd => ?_) hall⟩
      exact decide_eq_true (h.2.1 d hd)

end

/-! ### References -/

/-- The references with a name. -/
def names : List (String × Char) :=
  [("amp", '&'), ("lt", '<'), ("gt", '>'), ("quot", '"'), ("apos", '\''), ("nbsp", '\u00A0')]

/-- What stands between `#` and the number, and the base of the number. -/
def radixes : List (List Char × Nat) := [([], 10), (['x'], 16), (['X'], 16)]

/-- A numeric reference behind its `&`, with this sign in front of its digits: up to seven
    characters spell the number of a character. -/
inductive Numeric (sign : List Char) : List Char → Char → Prop where
  | intro {radix ds : List Char} {base : Nat} (hradix : (radix, base) ∈ radixes)
      (hds : ds ≠ []) (hdigits : ∀ c ∈ ds, IsDigit base c) (hlength : (sign ++ ds).length ≤ 7)
      (hscalar : (spelled base ds).isValidChar) :
      Numeric sign ('#' :: (radix ++ (sign ++ ds ++ [';']))) (Char.ofNat (spelled base ds))

/-- A reference as it is documented, behind its `&`, with its character: a name or a number,
    and a semicolon. -/
inductive Documented : List Char → Char → Prop where
  | named {name : String} {c : Char} (h : (name, c) ∈ names) : Documented (name.toList ++ [';']) c
  | numeric {ref : List Char} {c : Char} (h : Numeric [] ref c) : Documented ref c

/-- A number with a plus sign. -/
abbrev Signed : List Char → Char → Prop := Numeric ['+']

/-- A reference that is replaced. -/
def Accepted (ref : List Char) (c : Char) : Prop := Documented ref c ∨ Signed ref c

section
variable {base n : Nat} {c : Char} {ds cs ref sign : List Char}

theorem signedNumber?_eq_some (hbase : base = 10 ∨ base = 16) : signedNumber? base cs = some n ↔
    ∃ sign ds, (sign = [] ∨ sign = ['+']) ∧ cs = sign ++ ds ∧
      ds ≠ [] ∧ (∀ c ∈ ds, IsDigit base c) ∧ n = spelled base ds := by
  have hplus : ¬ IsDigit base '+' := by rcases hbase with rfl | rfl <;> decide
  unfold signedNumber?
  split
  · rename_i ds
    rw [number?_eq_some hbase]
    constructor
    · intro h
      exact ⟨['+'], ds, Or.inr rfl, rfl, h⟩
    · rintro ⟨sign, ds', rfl | rfl, heq, hne, hdigits, hn⟩
      · exact absurd (hdigits '+' (by rw [← List.nil_append ds', ← heq]; simp)) hplus
      · obtain rfl : ds = ds' := (List.cons.inj heq).2
        exact ⟨hne, hdigits, hn⟩
  · rename_i hsign
    rw [number?_eq_some hbase]
    constructor
    · intro h
      exact ⟨[], cs, Or.inl rfl, rfl, h⟩
    · rintro ⟨sign, ds', rfl | rfl, rfl, hds⟩
      · exact hds
      · exact absurd rfl (hsign ds')

theorem exists_radix {front : Nat} {body : List Char}
    (h : numericBody? cs = some (base, front, body)) :
    ∃ radix, (radix, base) ∈ radixes ∧ cs = '#' :: (radix ++ body) ∧ front = 1 + radix.length := by
  unfold numericBody? at h
  split at h <;> cases h
  · exact ⟨['x'], by decide, rfl, rfl⟩
  · exact ⟨['X'], by decide, rfl, rfl⟩
  · exact ⟨[], by decide, rfl, rfl⟩

theorem numericBody?_radix {radix body : List Char} (hradix : (radix, base) ∈ radixes)
    (hx : body.head? ≠ some 'x') (hX : body.head? ≠ some 'X') :
    numericBody? ('#' :: (radix ++ body)) = some (base, 1 + radix.length, body) := by
  simp only [radixes, List.mem_cons, Prod.mk.injEq, List.not_mem_nil, or_false] at hradix
  rcases hradix with ⟨rfl, rfl⟩ | ⟨rfl, rfl⟩ | ⟨rfl, rfl⟩
  · rw [List.nil_append, numericBody?.eq_3]
    · rfl
    · rintro rest rfl
      exact hx rfl
    · rintro rest rfl
      exact hX rfl
  · rfl
  · rfl

theorem base_of_radix {radix : List Char} (h : (radix, base) ∈ radixes) :
    base = 10 ∨ base = 16 := by
  simp only [radixes, List.mem_cons, Prod.mk.injEq, List.not_mem_nil, or_false] at h
  rcases h with ⟨-, rfl⟩ | ⟨-, rfl⟩ | ⟨-, rfl⟩
  · exact Or.inl rfl
  · exact Or.inr rfl
  · exact Or.inr rfl

/-- What a number is written with. -/
theorem mem_number (hsign : sign = [] ∨ sign = ['+'])
    (hdigits : ∀ c ∈ ds, IsDigit base c) : ∀ c ∈ sign ++ ds, c ∈ '+' :: allDigits := by
  intro c hc
  rcases List.mem_append.mp hc with hc | hc
  · rcases hsign with rfl | rfl
    · cases hc
    · exact List.mem_cons.mpr (Or.inl (List.mem_singleton.mp hc))
  · exact List.mem_cons_of_mem _ (hdigits c hc).mem_allDigits

theorem charOfNumber?_eq_some : charOfNumber? n = some c ↔ n.isValidChar ∧ c = Char.ofNat n := by
  unfold charOfNumber?
  split <;> simp [*, eq_comm]

theorem Numeric.recognized (hsign : sign = [] ∨ sign = ['+']) (h : Numeric sign ref c)
    (rest : List Char) : numericReference? (ref ++ rest) = some (c, ref.length) := by
  obtain @⟨radix, ds, base, hradix, hds, hdigits, hlength, hscalar⟩ := h
  have hnumber := mem_number hsign hdigits
  have hsemicolon : ';' ∉ sign ++ ds := fun h => absurd (hnumber _ h) (by decide)
  have hhead : ∀ c ∈ (sign ++ ds ++ ';' :: rest).head?, c ∈ '+' :: allDigits := by
    obtain ⟨d, ds', heq⟩ := List.exists_cons_of_ne_nil (List.append_ne_nil_of_right_ne_nil sign hds)
    rw [heq] at hnumber ⊢
    rintro c ⟨⟩
    exact hnumber d List.mem_cons_self
  have hbody : numericBody? ('#' :: (radix ++ (sign ++ ds ++ ';' :: rest))) =
      some (base, 1 + radix.length, sign ++ ds ++ ';' :: rest) :=
    numericBody?_radix hradix (fun h => absurd (hhead _ h) (by decide))
      (fun h => absurd (hhead _ h) (by decide))
  have hscan : (sign ++ ds ++ ';' :: rest).takeWhile (· != ';') = sign ++ ds :=
    Text.takeWhile_ne_append hsemicolon rest
  have hends : ¬ (decide ((sign ++ ds ++ ';' :: rest).length = (sign ++ ds).length) ||
      decide (7 < (sign ++ ds).length)) = true := by
    simp only [List.length_append, List.length_cons, Bool.or_eq_true,
      decide_eq_true_eq] at hlength ⊢
    omega
  have hn : signedNumber? base (sign ++ ds) = some (spelled base ds) :=
    (signedNumber?_eq_some (base_of_radix hradix)).mpr ⟨sign, ds, hsign, rfl, hds, hdigits, rfl⟩
  have hcs : '#' :: (radix ++ (sign ++ ds ++ [';'])) ++ rest =
      '#' :: (radix ++ (sign ++ ds ++ ';' :: rest)) := by simp
  rw [hcs, numericReference?, hbody]
  simp only [Option.bind_eq_bind, Option.bind_some, hscan]
  rw [if_neg hends, hn, Option.bind_some, charOfNumber?_eq_some.mpr ⟨hscalar, rfl⟩,
    Option.bind_some]
  simp only [List.length_cons, List.length_append, List.length_nil, Option.some.injEq,
    Prod.mk.injEq, true_and]
  omega

/-- A numeric reference is recognized, with or without a plus sign. -/
theorem numericReference?_eq_some {len : Nat} : numericReference? cs = some (c, len) ↔
    ∃ sign ref rest, (sign = [] ∨ sign = ['+']) ∧ cs = ref ++ rest ∧ Numeric sign ref c ∧
      len = ref.length := by
  constructor
  · intro h
    obtain ⟨⟨base, front, body⟩, hbody, h⟩ := Option.bind_eq_some_iff.mp h
    obtain ⟨radix, hradix, rfl, rfl⟩ := exists_radix hbody
    simp only at h
    split at h
    · cases h
    · rename_i hlength
      obtain ⟨n, hn, h⟩ := Option.bind_eq_some_iff.mp h
      obtain ⟨c', hc, h⟩ := Option.bind_eq_some_iff.mp h
      obtain ⟨rfl, rfl⟩ := Prod.mk.inj (Option.some.inj h)
      obtain ⟨sign, ds, hsign, heq, hds, hdigits, rfl⟩ :=
        (signedNumber?_eq_some (base_of_radix hradix)).mp hn
      obtain ⟨hscalar, rfl⟩ := charOfNumber?_eq_some.mp hc
      rw [heq] at hlength ⊢
      rcases Text.not_mem_or_eq_append ';' body with hmem | ⟨rest, hrest⟩
      · rw [Text.takeWhile_ne_of_not_mem hmem] at heq
        simp [heq] at hlength
      · rw [heq] at hrest
        have hseven : (sign ++ ds).length ≤ 7 := by
          simp only [Bool.or_eq_true, decide_eq_true_eq, not_or] at hlength
          omega
        refine ⟨sign, _, rest, hsign, ?_, .intro hradix hds hdigits hseven hscalar, ?_⟩
        · simp [hrest]
        · simp only [List.length_cons, List.length_append, List.length_nil]
          omega
  · rintro ⟨sign, ref, rest, hsign, rfl, hnumeric, rfl⟩
    exact hnumeric.recognized hsign rest

theorem mem_namedReferences : (ref, c) ∈ namedReferences ↔
    ∃ name, (name, c) ∈ names ∧ name.toList ++ [';'] = ref := by
  have htable : namedReferences = names.map fun entry => (entry.1.toList ++ [';'], entry.2) := rfl
  rw [htable, List.mem_map]
  constructor
  · rintro ⟨⟨name, d⟩, hmem, heq⟩
    obtain ⟨hname, rfl⟩ := Prod.mk.inj heq
    exact ⟨name, hmem, hname⟩
  · rintro ⟨name, hmem, rfl⟩
    exact ⟨(name, c), hmem, rfl⟩

/-- At most one name fits. -/
theorem findName_eq_some :
    namedReferences.find? (fun entry => entry.1.isPrefixOf cs) = some (ref, c) ↔
      (ref, c) ∈ namedReferences ∧ ref <+: cs := by
  have hapart : ∀ r ∈ namedReferences, ∀ r' ∈ namedReferences, r.1 <+: r'.1 → r = r' := by decide
  constructor
  · intro h
    have hfits := (List.find?_eq_some_iff_append.mp h).1
    exact ⟨List.mem_of_find?_eq_some h, List.isPrefixOf_iff_prefix.mp hfits⟩
  · rintro ⟨hmem, hprefix⟩
    cases hfind : namedReferences.find? (fun entry => entry.1.isPrefixOf cs) with
    | none =>
      exact absurd (List.isPrefixOf_iff_prefix.mpr hprefix) (List.find?_eq_none.mp hfind _ hmem)
    | some found =>
      have hfound := List.isPrefixOf_iff_prefix.mp (List.find?_eq_some_iff_append.mp hfind).1
      rcases List.prefix_or_prefix_of_prefix hfound hprefix with h | h
      · rw [hapart _ (List.mem_of_find?_eq_some hfind) _ hmem h]
      · rw [hapart _ hmem _ (List.mem_of_find?_eq_some hfind) h]

theorem findName_eq_none (h : cs.head? = some '#') :
    namedReferences.find? (fun entry => entry.1.isPrefixOf cs) = none := by
  have hheads : ∀ r ∈ namedReferences, r.1.head? ≠ none ∧ r.1.head? ≠ some '#' := by decide
  rw [List.find?_eq_none]
  intro r hr hprefix
  obtain ⟨rest, rfl⟩ := List.isPrefixOf_iff_prefix.mp hprefix
  obtain ⟨hne, hother⟩ := hheads r hr
  obtain ⟨d, hd⟩ := Option.ne_none_iff_exists'.mp hne
  rw [List.head?_append, hd] at h
  exact hother (hd.trans h)

theorem Numeric.head? (h : Numeric sign ref c) : ref.head? = some '#' := by
  cases h
  rfl

theorem accepted_iff : Accepted ref c ↔
    (ref, c) ∈ namedReferences ∨ ∃ sign, (sign = [] ∨ sign = ['+']) ∧ Numeric sign ref c := by
  rw [mem_namedReferences]
  constructor
  · rintro ((⟨hname⟩ | ⟨hnumeric⟩) | hsigned)
    · exact Or.inl ⟨_, hname, rfl⟩
    · exact Or.inr ⟨[], Or.inl rfl, hnumeric⟩
    · exact Or.inr ⟨['+'], Or.inr rfl, hsigned⟩
  · rintro (⟨name, hname, rfl⟩ | ⟨sign, rfl | rfl, hnumeric⟩)
    · exact Or.inl (.named hname)
    · exact Or.inl (.numeric hnumeric)
    · exact Or.inr hnumeric

theorem Accepted.ne_nil (h : Accepted ref c) : ref ≠ [] := by
  have hnames : ∀ entry ∈ namedReferences, entry.1 ≠ [] := by decide
  rcases accepted_iff.mp h with hnamed | ⟨sign, -, hnumeric⟩
  · exact hnames _ hnamed
  · rintro rfl
    cases hnumeric.head?

/-- What is recognized behind an `&` is the one accepted reference that stands there. -/
theorem reference?_eq_some {len : Nat} : reference? cs = some (c, len) ↔
    ∃ ref, Accepted ref c ∧ ref <+: cs ∧ len = ref.length := by
  simp only [accepted_iff]
  unfold reference?
  cases hfind : namedReferences.find? (fun entry => entry.1.isPrefixOf cs) with
  | some found =>
    obtain ⟨name, d⟩ := found
    obtain ⟨hmem, hprefix⟩ := findName_eq_some.mp hfind
    simp only [Option.some.injEq, Prod.mk.injEq]
    constructor
    · rintro ⟨rfl, rfl⟩
      exact ⟨name, Or.inl hmem, hprefix, rfl⟩
    · rintro ⟨ref, hnamed | ⟨sign, -, hnumeric⟩, hfits, rfl⟩
      · rw [findName_eq_some.mpr ⟨hnamed, hfits⟩] at hfind
        obtain ⟨rfl, rfl⟩ := Prod.mk.inj (Option.some.inj hfind)
        exact ⟨rfl, rfl⟩
      · obtain ⟨rest, rfl⟩ := hfits
        have hhead : (ref ++ rest).head? = some '#' := by
          rw [List.head?_append, hnumeric.head?]; rfl
        rw [findName_eq_none hhead] at hfind
        cases hfind
  | none =>
    simp only [numericReference?_eq_some]
    constructor
    · rintro ⟨sign, ref, rest, hsign, rfl, hnumeric, rfl⟩
      exact ⟨ref, Or.inr ⟨sign, hsign, hnumeric⟩, List.prefix_append ref rest, rfl⟩
    · rintro ⟨ref, hnamed | ⟨sign, hsign, hnumeric⟩, hfits, rfl⟩
      · rw [findName_eq_some.mpr ⟨hnamed, hfits⟩] at hfind
        cases hfind
      · obtain ⟨rest, rfl⟩ := hfits
        exact ⟨sign, ref, rest, hsign, rfl, hnumeric, rfl⟩

/-- Only one accepted reference stands behind an `&`. -/
theorem Accepted.unique {ref' : List Char} {c' : Char} (h : Accepted ref c) (h' : Accepted ref' c')
    (hfits : ref <+: cs) (hfits' : ref' <+: cs) : ref = ref' ∧ c = c' := by
  have hread : reference? cs = some (c, ref.length) := reference?_eq_some.mpr ⟨ref, h, hfits, rfl⟩
  have hread' : reference? cs = some (c', ref'.length) :=
    reference?_eq_some.mpr ⟨ref', h', hfits', rfl⟩
  obtain ⟨rfl, hlength⟩ := Prod.mk.inj (Option.some.inj (hread.symm.trans hread'))
  rw [List.prefix_iff_eq_take.mp hfits, List.prefix_iff_eq_take.mp hfits', hlength]
  exact ⟨rfl, rfl⟩

/-! ### What is in a reference -/

/-- What a number is written with, apart from its sign. -/
theorem Numeric.mem (h : Numeric sign ref c) :
    ∀ d ∈ ref, d ∈ sign ∨ d ∈ "#xX;".toList ++ allDigits := by
  obtain ⟨hradix, -, hdigits, -, -⟩ := h
  intro d hd
  have hradixes : ∀ entry ∈ radixes, entry.1 ⊆ "#xX;".toList ++ allDigits := by decide
  simp only [List.mem_cons, List.mem_append, List.not_mem_nil, or_false] at hd
  rcases hd with rfl | hd | (hd | hd) | rfl
  · exact Or.inr (by decide)
  · exact Or.inr (hradixes _ hradix hd)
  · exact Or.inl hd
  · exact Or.inr (List.mem_append_right _ (hdigits d hd).mem_allDigits)
  · exact Or.inr (by decide)

theorem Accepted.ampersand_not_mem (h : Accepted ref c) : '&' ∉ ref := by
  have hnames : ∀ entry ∈ namedReferences, '&' ∉ entry.1 := by decide
  rcases accepted_iff.mp h with hnamed | ⟨sign, hsign, hnumeric⟩
  · exact hnames _ hnamed
  · intro hmem
    rcases hnumeric.mem '&' hmem with hmem | hmem
    · rcases hsign with rfl | rfl <;> exact absurd hmem (by decide)
    · exact absurd hmem (by decide)

theorem Documented.plus_not_mem (h : Documented ref c) : '+' ∉ ref := by
  have hnames : ∀ entry ∈ names, '+' ∉ entry.1.toList ++ [';'] := by decide
  cases h with
  | named hname => exact hnames _ hname
  | numeric hnumeric =>
    intro hmem
    rcases hnumeric.mem '+' hmem with hmem | hmem
    · cases hmem
    · exact absurd hmem (by decide)

theorem Signed.plus_mem (h : Signed ref c) : '+' ∈ ref := by
  cases h
  simp

/-- A number with a plus sign is not documented. -/
theorem Signed.not_documented (h : Signed ref c) {c' : Char} : ¬ Documented ref c' :=
  fun hdocumented => hdocumented.plus_not_mem h.plus_mem

end

/-! ### The pass over a text -/

/-- One pass from left to right, with the references that count. An `&` with a reference behind
    it, the longest that stands there, becomes the character of the reference, and the pass goes
    on behind it. All else is copied, an `&` with no reference behind it included. -/
inductive Decoded (R : List Char → Char → Prop) : List Char → List Char → Prop where
  | nil : Decoded R [] []
  | plain {c : Char} {cs ds : List Char} (hc : c ≠ '&') (h : Decoded R cs ds) :
      Decoded R (c :: cs) (c :: ds)
  | reference {ref cs rest ds : List Char} {c : Char} (href : R ref c) (hcs : cs = ref ++ rest)
      (hlongest : ∀ ref' c', R ref' c' → ref' <+: cs → ref'.length ≤ ref.length)
      (h : Decoded R rest ds) : Decoded R ('&' :: cs) (c :: ds)
  | ampersand {cs ds : List Char} (hnone : ∀ ref c, R ref c → ¬ ref <+: cs)
      (h : Decoded R cs ds) : Decoded R ('&' :: cs) ('&' :: ds)

section
variable {R : List Char → Char → Prop} {cs ds ds' : List Char}

/-- The pass has one result. -/
theorem Decoded.unique (hR : ∀ ref c, R ref c → Accepted ref c) (h : Decoded R cs ds)
    (h' : Decoded R cs ds') : ds = ds' := by
  induction h generalizing ds' with
  | nil =>
    cases h'
    rfl
  | plain hc h ih =>
    cases h' with
    | plain _ h' => rw [ih h']
    | reference => exact absurd rfl hc
    | ampersand => exact absurd rfl hc
  | reference href hcs hlongest h ih =>
    cases h' with
    | plain hc => exact absurd rfl hc
    | reference href' hcs' _ h' =>
      -- The same reference, so the same rest.
      subst hcs
      obtain ⟨rfl, rfl⟩ :=
        (hR _ _ href).unique (hR _ _ href') (List.prefix_append _ _) ⟨_, hcs'.symm⟩
      obtain rfl := List.append_cancel_left hcs'
      rw [ih h']
    | ampersand hnone => exact absurd ⟨_, hcs.symm⟩ (hnone _ _ href)
  | ampersand hnone h ih =>
    cases h' with
    | plain hc => exact absurd rfl hc
    | reference href hcs => exact absurd ⟨_, hcs.symm⟩ (hnone _ _ href)
    | ampersand _ h' => rw [ih h']

/-- A reference that counts is the longest where it stands. -/
theorem Decoded.replace (hR : ∀ ref c, R ref c → Accepted ref c) {ref rest : List Char} {c : Char}
    (href : R ref c) (h : Decoded R rest ds) : Decoded R ('&' :: (ref ++ rest)) (c :: ds) := by
  refine .reference href rfl (fun ref' c' href' hfits => le_of_eq ?_) h
  rw [((hR _ _ href').unique (hR _ _ href) hfits (List.prefix_append ref rest)).1]

theorem exists_decoded (hR : ∀ ref c, R ref c → Accepted ref c) (cs : List Char) :
    ∃ ds, Decoded R cs ds := by
  induction hn : cs.length using Nat.strongRecOn generalizing cs with
  | ind n ih =>
    subst hn
    cases cs with
    | nil => exact ⟨[], .nil⟩
    | cons c cs =>
      obtain ⟨ds, hds⟩ := ih cs.length (by simp) cs rfl
      by_cases hc : c = '&'
      · subst hc
        by_cases hread : ∃ ref c, R ref c ∧ ref <+: cs
        · obtain ⟨ref, c, href, rest, rfl⟩ := hread
          have hshorter : rest.length < ('&' :: (ref ++ rest)).length := by
            rw [List.length_cons, List.length_append]
            omega
          obtain ⟨ds, hds⟩ := ih rest.length hshorter rest rfl
          exact ⟨c :: ds, .replace hR href hds⟩
        · have hnone : ∀ ref c, R ref c → ¬ ref <+: cs := fun ref c href hfits =>
            hread ⟨ref, c, href, hfits⟩
          exact ⟨'&' :: ds, .ampersand hnone hds⟩
      · exact ⟨c :: ds, .plain hc hds⟩

/-- Replacing the references is the pass with all that are accepted. -/
theorem decoded_decodeChars (cs : List Char) : Decoded Accepted cs (decodeChars cs) := by
  fun_induction decodeChars cs with
  | case1 => exact .nil
  | case2 cs c len hread ih =>
    obtain ⟨ref, href, ⟨rest, rfl⟩, rfl⟩ := reference?_eq_some.mp hread
    rw [List.drop_left] at ih ⊢
    exact .replace (fun _ _ h => h) href ih
  | case3 cs hread ih =>
    refine .ampersand (fun ref c href hfits => ?_) ih
    rw [reference?_eq_some.mpr ⟨ref, href, hfits, rfl⟩] at hread
    cases hread
  | case4 c cs hc ih => exact .plain hc ih

/-- Up to the first `&` a text is copied. -/
theorem Decoded.exists_of_append {front : List Char} (hfront : '&' ∉ front)
    (h : Decoded R (front ++ cs) ds) : ∃ ds', ds = front ++ ds' ∧ Decoded R cs ds' := by
  induction front generalizing ds with
  | nil => exact ⟨ds, rfl, h⟩
  | cons c front ih =>
    rw [List.mem_cons, not_or] at hfront
    cases h with
    | plain _ h =>
      obtain ⟨ds', rfl, h'⟩ := ih hfront.2 h
      exact ⟨ds', rfl, h'⟩
    | reference => exact absurd rfl hfront.1
    | ampersand => exact absurd rfl hfront.1

/-- A number with a plus sign stands behind an `&`. -/
def HasSigned (cs : List Char) : Prop := ∃ ref c, Signed ref c ∧ '&' :: ref <:+: cs

theorem hasSigned_cons {c : Char} : HasSigned (c :: cs) ↔
    (c = '&' ∧ ∃ ref d, Signed ref d ∧ ref <+: cs) ∨ HasSigned cs := by
  simp only [HasSigned, List.infix_cons_iff, List.cons_prefix_cons]
  constructor
  · rintro ⟨ref, d, href, ⟨rfl, hfits⟩ | hinfix⟩
    · exact Or.inl ⟨rfl, ref, d, href, hfits⟩
    · exact Or.inr ⟨ref, d, href, hinfix⟩
  · rintro (⟨rfl, ref, d, href, hfits⟩ | ⟨ref, d, href, hinfix⟩)
    · exact ⟨ref, d, href, Or.inl ⟨rfl, hfits⟩⟩
    · exact ⟨ref, d, href, Or.inr hinfix⟩

theorem hasSigned_append {front : List Char} (hfront : '&' ∉ front) :
    HasSigned (front ++ cs) ↔ HasSigned cs := by
  induction front with
  | nil => rfl
  | cons c front ih =>
    rw [List.mem_cons, not_or] at hfront
    rw [List.cons_append, hasSigned_cons, ih hfront.2]
    simp [Ne.symm hfront.1]

/-- Without a sign the documented references are all that are accepted. -/
theorem Decoded.documented (h : Decoded Accepted cs ds) (hsigned : ¬ HasSigned cs) :
    Decoded Documented cs ds := by
  induction h with
  | nil => exact .nil
  | plain hc h ih =>
    rw [hasSigned_cons, not_or] at hsigned
    exact .plain hc (ih hsigned.2)
  | reference href hcs hlongest h ih =>
    subst hcs
    rw [hasSigned_cons, hasSigned_append href.ampersand_not_mem, not_or] at hsigned
    rcases href with hdocumented | hplus
    · exact .replace (fun _ _ => Or.inl) hdocumented (ih hsigned.2)
    · exact absurd ⟨rfl, _, _, hplus, List.prefix_append _ _⟩ hsigned.1
  | ampersand hnone h ih =>
    rw [hasSigned_cons, not_or] at hsigned
    exact .ampersand (fun ref c href => hnone ref c (Or.inl href)) (ih hsigned.2)

/-- A number with a plus sign makes the result shorter than what is documented. -/
theorem Decoded.length_le (h : Decoded Accepted cs ds) (h' : Decoded Documented cs ds') :
    ds.length ≤ ds'.length ∧ (HasSigned cs → ds.length < ds'.length) := by
  induction h generalizing ds' with
  | nil => exact ⟨Nat.zero_le _, fun ⟨ref, c, _, hinfix⟩ => by simp at hinfix⟩
  | plain hc h ih =>
    cases h' with
    | plain _ h' => simpa [hasSigned_cons, hc] using ih h'
    | reference => exact absurd rfl hc
    | ampersand => exact absurd rfl hc
  | reference href hcs hlongest h ih =>
    subst hcs
    simp only [hasSigned_cons, hasSigned_append href.ampersand_not_mem, List.length_cons]
    cases h' with
    | plain hc => exact absurd rfl hc
    | reference href' hcs' _ h' =>
      obtain ⟨rfl, rfl⟩ := href.unique (Or.inl href') (List.prefix_append _ _) ⟨_, hcs'.symm⟩
      obtain rfl := List.append_cancel_left hcs'
      obtain ⟨hle, hlt⟩ := ih h'
      refine ⟨Nat.succ_le_succ hle, ?_⟩
      rintro (⟨-, ref, c, hsigned, hfits⟩ | hrest)
      · obtain ⟨rfl, rfl⟩ := Accepted.unique (Or.inr hsigned) href hfits (List.prefix_append _ _)
        exact absurd href' hsigned.not_documented
      · exact Nat.succ_lt_succ (hlt hrest)
    | ampersand hnone h' =>
      -- The reference itself is copied, behind its `&`.
      obtain ⟨ds'', rfl, h''⟩ := h'.exists_of_append href.ampersand_not_mem
      have hle := (ih h'').1
      have hpositive := List.length_pos_iff.mpr href.ne_nil
      simp only [List.length_cons, List.length_append]
      omega
  | ampersand hnone h ih =>
    cases h' with
    | plain hc => exact absurd rfl hc
    | reference href hcs => exact absurd ⟨_, hcs.symm⟩ (hnone _ _ (Or.inl href))
    | ampersand _ h' =>
      obtain ⟨hle, hlt⟩ := ih h'
      refine ⟨Nat.succ_le_succ hle, fun hsigned => Nat.succ_lt_succ (hlt ?_)⟩
      rcases hasSigned_cons.mp hsigned with ⟨-, ref, c, hplus, hfits⟩ | hrest
      · exact absurd hfits (hnone ref c (Or.inr hplus))
      · exact hrest

/-- Replacing the references is one pass over the text from left to right, with the documented
    references and with numbers that have a plus sign. What it gives is what the documented
    references alone give exactly if the text has no number with a plus sign behind an `&`. -/
theorem decoded_decodeReferences (s : String) :
    (∀ t : String, Decoded Accepted s.toList t.toList ↔ decodeReferences s = t) ∧
    (∃! t : String, Decoded Documented s.toList t.toList) ∧
    (Decoded Documented s.toList (decodeReferences s).toList ↔ ¬ HasSigned s.toList) := by
  have hpass := decoded_decodeChars s.toList
  have hresult : (decodeReferences s).toList = decodeChars s.toList := String.toList_ofList
  refine ⟨fun t => ⟨fun h => ?_, ?_⟩, ?_, ?_⟩
  · rw [← String.toList_inj, hresult]
    exact hpass.unique (fun _ _ h => h) h
  · rintro rfl
    rwa [hresult]
  · obtain ⟨ds, hds⟩ := exists_decoded (fun _ _ => Or.inl) s.toList
    refine ⟨String.ofList ds, by simpa using hds, fun t ht => ?_⟩
    rw [← String.toList_inj, String.toList_ofList]
    exact ht.unique (fun _ _ => Or.inl) hds
  · rw [hresult]
    exact ⟨fun h hsigned => absurd ((hpass.length_le h).2 hsigned) (Nat.lt_irrefl _),
      hpass.documented⟩

/-- A number with a plus sign is replaced, and as documented it would be copied. -/
theorem decodeReferences_plus : decodeReferences "&#+65;" = "A" ∧
    Decoded Documented "&#+65;".toList "&#+65;".toList ∧
    ¬ Decoded Documented "&#+65;".toList (decodeReferences "&#+65;").toList := by
  have hsigned : Signed "#+65;".toList 'A' :=
    @Numeric.intro ['+'] [] ['6', '5'] 10 (by decide) (by decide) (forall_mem_of_all (by decide))
      (by decide) (by decide)
  have hchars : decodeChars "&#+65;".toList = ['A'] := by
    rw [show "&#+65;".toList = '&' :: (['#', '+', '6', '5', ';'] ++ []) from rfl,
      decodeChars_reference ['#', '+', '6', '5', ';'] (show _ = some ('A', 5) from rfl),
      decodeChars]
  have hresult : decodeReferences "&#+65;" = "A" := congrArg String.ofList hchars
  have hnone : ∀ ref c, Documented ref c → ¬ ref <+: "#+65;".toList := by
    intro ref c href hfits
    obtain ⟨rfl, -⟩ := Accepted.unique (Or.inl href) (Or.inr hsigned) hfits List.prefix_rfl
    exact hsigned.not_documented href
  have hcopied : Decoded Documented "&#+65;".toList "&#+65;".toList :=
    .ampersand hnone (.plain (by decide) (.plain (by decide) (.plain (by decide)
      (.plain (by decide) (.plain (by decide) .nil)))))
  refine ⟨hresult, hcopied, fun h => ?_⟩
  rw [hresult] at h
  exact absurd (h.unique (fun _ _ => Or.inl) hcopied) (by decide)

end

end Stencil.Markup.Reference
