/-
  Stencil/Proofs/Render/Told.lean
  ===============================
  **What spreads tell, as a function of the signals.**

  `showReader` says what a reader yields that is to be shown.  A spread is not shown: it is
  a set of props, with handlers, callbacks and further readers among them.  `tell` says
  which value a script makes of such things while every signal holds what `σ` says, and
  which signals are read on the way.  `spreadNow` adds what is read when the entries are
  applied to an element, `spreadPast` when those of them are that no later attribute has
  shadowed.

  As with yields, what is told depends on the signals that were read only
  (`spreadNow_congr`), and reading brings it (`tellReader_comes`).
-/
import Stencil.Proofs.Render.Around

namespace Stencil.Render

open Document

/-- A value, and the signals that were read for it. -/
abbrev Told := Value × List String

/-- One more signal read, first of all. -/
def Told.after (name : String) (x : Told) : Told := (x.1, name :: x.2)

section

variable (σ : String → Script) (low : Reader → Option Told)

mutual

/-- The value that a script makes, if `low` says what readers make. -/
def tell (env : Option Props) : Script → Option Told
  | .empty => some (.empty, [])
  | .bool b => some (.bool b, [])
  | .number n => some (.number n, [])
  | .text s => some (.text s, [])
  | .handler label assigns => some (.handler ⟨label, assigns⟩, [])
  | .ref label => some (.ref label, [])
  | .func label result => some (.func ⟨label, result⟩, [])
  | .signal name => some (.reactive (.signal name), [])
  | .later body => some (.reactive (.script env body), [])
  | .peek name => (low (.script none (σ name))).map (Told.after name)
  | .choose name yes no =>
    (if (σ name).isTruthy then tell env yes else tell env no).map (Told.after name)
  | .note _ next => tell env next
  | .spread entries => (tellEntries env [] entries).map fun x => (.spread x.1, x.2)
  | .prop name =>
    match env with
    | some ps =>
      match ps.get? name with
      | some (.immediate v) => some (v, [])
      | some (.reactive r) => low r
      | none => some (.empty, [])
    | none => some (.empty, [])
  | _ => none

/-- The entries of a spread, set in order. -/
def tellEntries (env : Option Props) (ps : Props) :
    List (String × Bool × Script) → Option (Props × List String)
  | [] => some (ps, [])
  | (name, true, code) :: rest =>
    tellEntries env (ps.set name (.reactive (.script env code))) rest
  | (name, false, code) :: rest => do
    let x ← tell env code
    let y ← tellEntries env (ps.set name (.immediate x.1)) rest
    some (y.1, x.2 ++ y.2)

end

end

/-- The value that a reader makes while the signals hold `σ`, following readers `n` levels deep. -/
def tellReader (σ : String → Script) : Nat → Reader → Option Told
  | n + 1, .script env code => tell σ (tellReader σ n) env code
  | n + 1, .signal name => (tell σ (tellReader σ n) none (σ name)).map (Told.after name)
  | _, _ => none

/-- The signals that are read when an entry is applied; none if code of the application is
    called. -/
def tellEntry (f : Factory) (σ : String → Script) (n : Nat) (name : String) (e : Entry) :
    Option (List String) :=
  match e.toValue with
  | .reactive r => (showReader σ n r).map Shown.reads
  | v =>
    match (f.policy.resolve name).1.setter.callback? v with
    | some (.func _) => none
    | _ => some []

/-- The signals that are read when entries are applied. -/
def tellApplied (f : Factory) (σ : String → Script) (n : Nat) : Props → Option (List String)
  | [] => some []
  | (name, e) :: rest => do
    let reads ← tellEntry f σ n name e
    let more ← tellApplied f σ n rest
    some (reads ++ more)

/-- The entries that a reader yields, and all signals that are read until they are applied. -/
def spreadNow (f : Factory) (σ : String → Script) (n : Nat) (r : Reader) :
    Option (Props × List String) := do
  let x ← tellReader σ n r
  match x.1 with
  | .spread entries => do
    let reads ← tellApplied f σ n entries
    some (entries, x.2 ++ reads)
  | _ => none

/-- The entries that are not shadowed. -/
def unshadowed (shadowed : List String) (ps : Props) : Props :=
  ps.filter fun p => !isShadowed shadowed p.1

/-- The entries that a reader yields, without the shadowed ones, and all signals that are read
    until they are applied. -/
def spreadPast (f : Factory) (σ : String → Script) (n : Nat) (shadowed : List String) (r : Reader) :
    Option (Props × List String) := do
  let x ← tellReader σ n r
  match x.1 with
  | .spread entries => do
    let reads ← tellApplied f σ n (unshadowed shadowed entries)
    some (unshadowed shadowed entries, x.2 ++ reads)
  | _ => none

theorem of_spreadPast {f : Factory} {σ : String → Script} {n : Nat} {shadowed : List String}
    {r : Reader} {x : Props × List String} (h : spreadPast f σ n shadowed r = some x) :
    ∃ entries front back, tellReader σ n r = some (.spread entries, front) ∧
      tellApplied f σ n x.1 = some back ∧ x = (unshadowed shadowed entries, front ++ back) := by
  rw [spreadPast] at h
  obtain ⟨⟨v, front⟩, htell, h⟩ := Option.bind_eq_some_iff.mp h
  cases v with
  | spread entries =>
    obtain ⟨back, happlied, h⟩ := Option.bind_eq_some_iff.mp h
    obtain rfl := Option.some.inj h
    exact ⟨entries, front, back, htell, happlied, rfl⟩
  | _ => cases h

theorem unshadowed_nil (ps : Props) : unshadowed [] ps = ps := by
  rw [unshadowed, List.filter_eq_self]
  intro p _
  rfl

theorem spreadPast_nil (f : Factory) (σ : String → Script) (n : Nat) (r : Reader) :
    spreadPast f σ n [] r = spreadNow f σ n r := by
  rw [spreadPast, spreadNow]
  simp only [unshadowed_nil]

theorem of_spreadNow {f : Factory} {σ : String → Script} {n : Nat} {r : Reader}
    {x : Props × List String} (h : spreadNow f σ n r = some x) :
    ∃ front back, tellReader σ n r = some (.spread x.1, front) ∧
      tellApplied f σ n x.1 = some back ∧ x = (x.1, front ++ back) := by
  rw [← spreadPast_nil] at h
  obtain ⟨entries, front, back, htell, happlied, rfl⟩ := of_spreadPast h
  rw [unshadowed_nil] at happlied ⊢
  exact ⟨front, back, htell, happlied, rfl⟩

/-! ### What it depends on -/

section

variable {σ τ : String → Script} {low high : Reader → Option Told}

theorem of_map_told {name : String} {o : Option Told} {x : Told}
    (h : o.map (Told.after name) = some x) : ∃ z, o = some z ∧ x = z.after name := by
  obtain ⟨z, hz, rfl⟩ := Option.map_eq_some_iff.mp h
  exact ⟨z, hz, rfl⟩

/-- What `low` tells of a reader, `high` tells too, if `τ` is as `σ` where it was read. -/
def TellsOn (σ τ : String → Script) (low high : Reader → Option Told) : Prop :=
  ∀ r x, low r = some x → (∀ name ∈ x.2, τ name = σ name) → high r = some x

mutual

theorem tell_congr (hlow : TellsOn σ τ low high) (env : Option Props) :
    ∀ {code : Script} {x : Told}, tell σ low env code = some x →
      (∀ name ∈ x.2, τ name = σ name) → tell τ high env code = some x
  | .peek name, x, h, hreads => by
    rw [tell] at h ⊢
    obtain ⟨z, hz, rfl⟩ := of_map_told h
    obtain ⟨hname, hrest⟩ := List.forall_mem_cons.mp hreads
    rw [hname, hlow _ z hz hrest]
    rfl
  | .choose name yes no, x, h, hreads => by
    rw [tell] at h ⊢
    obtain ⟨z, hz, rfl⟩ := of_map_told h
    obtain ⟨hname, hrest⟩ := List.forall_mem_cons.mp hreads
    rw [hname]
    split at hz
    · rename_i htrue
      rw [if_pos htrue, tell_congr hlow env hz hrest]
      rfl
    · rename_i hfalse
      rw [if_neg hfalse, tell_congr hlow env hz hrest]
      rfl
  | .note line next, x, h, hreads => by
    rw [tell] at h ⊢
    exact tell_congr hlow env h hreads
  | .spread entries, x, h, hreads => by
    rw [tell] at h ⊢
    obtain ⟨z, hz, rfl⟩ := Option.map_eq_some_iff.mp h
    rw [tellEntries_congr hlow env hz hreads]
    rfl
  | .prop name, x, h, hreads => by
    cases env with
    | none => simpa [tell] using h
    | some ps =>
      simp only [tell] at h ⊢
      split at h
      · exact h
      · exact hlow _ x h hreads
      · exact h
  | .empty, _, h, _ => by simpa [tell] using h
  | .bool _, _, h, _ => by simpa [tell] using h
  | .number _, _, h, _ => by simpa [tell] using h
  | .text _, _, h, _ => by simpa [tell] using h
  | .handler _ _, _, h, _ => by simpa [tell] using h
  | .ref _, _, h, _ => by simpa [tell] using h
  | .func _ _, _, h, _ => by simpa [tell] using h
  | .signal _, _, h, _ => by simpa [tell] using h
  | .later _, _, h, _ => by simpa [tell] using h
  | .list _, _, h, _ => by simp [tell] at h
  | .write _ _ _, _, h, _ => by simp [tell] at h
  | .join _, _, h, _ => by simp [tell] at h
  | .element _ _, _, h, _ => by simp [tell] at h
  | .fragment _, _, h, _ => by simp [tell] at h
  | .comment _, _, h, _ => by simp [tell] at h
  | .stored _, _, h, _ => by simp [tell] at h
  | .container _, _, h, _ => by simp [tell] at h
  | .html _ _, _, h, _ => by simp [tell] at h
  | .hasProp _, _, h, _ => by simp [tell] at h
  | .children, _, h, _ => by simp [tell] at h
  | .dump, _, h, _ => by simp [tell] at h
  | .call _ _, _, h, _ => by simp [tell] at h

theorem tellEntries_congr (hlow : TellsOn σ τ low high) (env : Option Props) :
    ∀ {entries : List (String × Bool × Script)} {ps : Props} {x : Props × List String},
      tellEntries σ low env ps entries = some x → (∀ name ∈ x.2, τ name = σ name) →
      tellEntries τ high env ps entries = some x
  | [], _, _, h, _ => by simpa [tellEntries] using h
  | (name, true, code) :: rest, ps, x, h, hreads => by
    rw [tellEntries] at h ⊢
    exact tellEntries_congr hlow env h hreads
  | (name, false, code) :: rest, ps, x, h, hreads => by
    rw [tellEntries] at h ⊢
    obtain ⟨y, hy, h⟩ := Option.bind_eq_some_iff.mp h
    obtain ⟨z, hz, h⟩ := Option.bind_eq_some_iff.mp h
    obtain rfl := Option.some.inj h
    obtain ⟨hfirst, hrest⟩ := List.forall_mem_append.mp hreads
    rw [tell_congr hlow env hy hfirst]
    change (tellEntries τ high env (ps.set name (.immediate y.1)) rest).bind _ = _
    rw [tellEntries_congr hlow env hz hrest]
    rfl

end

theorem tellReader_congr {n : Nat} : TellsOn σ τ (tellReader σ n) (tellReader τ n) := by
  induction n with
  | zero =>
    intro r x h
    cases h
  | succ n ih =>
    intro r x h hreads
    cases r with
    | script env code => exact tell_congr ih env h hreads
    | signal name =>
      rw [tellReader] at h ⊢
      obtain ⟨z, hz, rfl⟩ := of_map_told h
      obtain ⟨hname, hrest⟩ := List.forall_mem_cons.mp hreads
      rw [hname, tell_congr ih none hz hrest]
      rfl
    | join pieces => cases h
    | children source values slot nodes => cases h

theorem tellEntry_congr {f : Factory} {n : Nat} {name : String} {e : Entry} {reads : List String}
    (h : tellEntry f σ n name e = some reads) (hreads : ∀ name ∈ reads, τ name = σ name) :
    tellEntry f τ n name e = some reads := by
  rw [tellEntry] at h ⊢
  generalize e.toValue = v at h ⊢
  cases v with
  | reactive r =>
    obtain ⟨x, hx, rfl⟩ := Option.map_eq_some_iff.mp h
    simp only
    rw [showReader_congr hx (Nat.le_refl _) hreads]
    rfl
  | _ => exact h

theorem tellApplied_congr {f : Factory} {n : Nat} {ps : Props} {reads : List String}
    (h : tellApplied f σ n ps = some reads) (hreads : ∀ name ∈ reads, τ name = σ name) :
    tellApplied f τ n ps = some reads := by
  induction ps generalizing reads with
  | nil => exact h
  | cons p rest ih =>
    rw [tellApplied] at h ⊢
    obtain ⟨first, hfirst, h⟩ := Option.bind_eq_some_iff.mp h
    obtain ⟨more, hmore, h⟩ := Option.bind_eq_some_iff.mp h
    obtain rfl := Option.some.inj h
    obtain ⟨hreads₁, hreads₂⟩ := List.forall_mem_append.mp hreads
    rw [tellEntry_congr hfirst hreads₁, ih hmore hreads₂]
    rfl

/-- What a spread tells stays the same as long as the signals hold the same that were read. -/
theorem spreadNow_congr {f : Factory} {n : Nat} {r : Reader} {x : Props × List String}
    (h : spreadNow f σ n r = some x) (hreads : ∀ name ∈ x.2, τ name = σ name) :
    spreadNow f τ n r = some x := by
  obtain ⟨front, back, htell, happlied, hx⟩ := of_spreadNow h
  rw [hx] at hreads
  obtain ⟨hreads₁, hreads₂⟩ := List.forall_mem_append.mp hreads
  rw [spreadNow, tellReader_congr r _ htell hreads₁]
  change (tellApplied f τ n x.1).bind _ = _
  rw [tellApplied_congr happlied hreads₂, hx]
  rfl

end

/-! ### What reading brings -/

/-- In a world that holds `σ`, the action has the value told and reads the signals told; no nodes
    are made. -/
def Tells (act : Run Value) (σ : String → Script) (x : Told) : Prop :=
  ∀ w : World, w.held = σ → ∃ w', act w = some (x.1, w') ∧ Stirs w w' x.2 ∧ w'.page = w.page

/-- What the calls of a renderer do for the readers that `low` tells of. -/
structure Teller (c : Calls) (σ : String → Script) (low : Reader → Option Told) : Prop where
  read : ∀ r x, low r = some x → Tells (c.read r) σ x
  build : ∀ env code x, low (.script env code) = some x → Tells (c.build env code) σ x

section

variable {f : Factory} {c : Calls} {σ : String → Script} {low : Reader → Option Told}

theorem tells_pure (v : Value) : Tells (pure v) σ (v, []) :=
  fun w _ => ⟨w, rfl, Stirs.refl w, rfl⟩

/-- A signal looked at first. -/
theorem tells_after {name : String} {x : Told} {next : Script → Run Value}
    (h : Tells (next (σ name)) σ x) : Tells (do
      let code ← readSignal name
      next code) σ (x.after name) := by
  intro w hheld
  obtain ⟨w₁, hw₁⟩ : ∃ w₁ : World, w₁ = { w with graph := (w.graph.read name).2 } := ⟨_, rfl⟩
  have hread : readSignal name w = some (σ name, w₁) := by
    rw [hw₁, ← hheld]
    rfl
  have hstirs : Stirs w w₁ [name] := by
    rw [hw₁]
    exact ⟨rfl, rfl, rfl, rfl, rfl⟩
  obtain ⟨w', hrun, hstirs', hpage⟩ := h w₁ (hstirs.held.trans hheld)
  refine ⟨w', ?_, hstirs.trans hstirs', hpage.trans (by rw [hw₁])⟩
  rw [run_bind hread]
  exact hrun

/-- A line noted first. -/
theorem tells_noted {x : Told} (line : String) {act : Run Value} (h : Tells act σ x) : Tells (do
      log (.noted line)
      act) σ x := by
  intro w hheld
  obtain ⟨w₁, hw₁⟩ : ∃ w₁ : World, w₁ = { w with log := w.log.push (.noted line) } := ⟨_, rfl⟩
  have hlog : log (.noted line) w = some ((), w₁) := by
    rw [hw₁]
    rfl
  have hstirs : Stirs w w₁ [] := by
    rw [hw₁]
    exact ⟨rfl, rfl, rfl, rfl, rfl⟩
  obtain ⟨w', hrun, hstirs', hpage⟩ := h w₁ (hstirs.held.trans hheld)
  refine ⟨w', ?_, hstirs.trans hstirs', hpage.trans (by rw [hw₁])⟩
  rw [run_bind hlog]
  exact hrun

mutual

/-- Building a script brings what it tells. -/
theorem buildScript_tells (hc : Teller c σ low) (env : Option Props) :
    ∀ {code : Script} {x : Told}, tell σ low env code = some x →
      Tells (buildScript f c env code) σ x
  | .empty, _, h => by
    obtain rfl := Option.some.inj (by simpa [tell] using h)
    exact tells_pure _
  | .bool _, _, h => by
    obtain rfl := Option.some.inj (by simpa [tell] using h)
    exact tells_pure _
  | .number _, _, h => by
    obtain rfl := Option.some.inj (by simpa [tell] using h)
    exact tells_pure _
  | .text _, _, h => by
    obtain rfl := Option.some.inj (by simpa [tell] using h)
    exact tells_pure _
  | .handler _ _, _, h => by
    obtain rfl := Option.some.inj (by simpa [tell] using h)
    exact tells_pure _
  | .ref _, _, h => by
    obtain rfl := Option.some.inj (by simpa [tell] using h)
    exact tells_pure _
  | .func _ _, _, h => by
    obtain rfl := Option.some.inj (by simpa [tell] using h)
    exact tells_pure _
  | .signal _, _, h => by
    obtain rfl := Option.some.inj (by simpa [tell] using h)
    exact tells_pure _
  | .later _, _, h => by
    obtain rfl := Option.some.inj (by simpa [tell] using h)
    exact tells_pure _
  | .peek name, x, h => by
    rw [tell] at h
    obtain ⟨z, hz, rfl⟩ := of_map_told h
    have hbuild : Tells (c.build none (σ name)) σ z := hc.build none (σ name) z hz
    rw [buildScript]
    exact tells_after hbuild
  | .choose name yes no, x, h => by
    rw [tell] at h
    obtain ⟨z, hz, rfl⟩ := of_map_told h
    rw [buildScript]
    refine tells_after ?_
    split at hz
    · rename_i htrue
      rw [if_pos htrue]
      exact buildScript_tells hc env hz
    · rename_i hfalse
      rw [if_neg hfalse]
      exact buildScript_tells hc env hz
  | .note line next, x, h => by
    rw [tell] at h
    rw [buildScript]
    exact tells_noted line (buildScript_tells hc env h)
  | .spread entries, x, h => by
    rw [tell] at h
    obtain ⟨z, hz, rfl⟩ := Option.map_eq_some_iff.mp h
    intro w hheld
    obtain ⟨w', hrun, hstirs, hpage⟩ := buildEntries_tells hc env hz w hheld
    refine ⟨w', ?_, hstirs, hpage⟩
    rw [buildScript, run_bind hrun]
    rfl
  | .prop name, x, h => by
    cases env with
    | none =>
      obtain rfl := Option.some.inj (by simpa [tell] using h)
      exact tells_pure _
    | some ps =>
      simp only [tell] at h
      simp only [buildScript, propValue]
      split at h
      · rename_i v hget
        obtain rfl := Option.some.inj h
        rw [hget]
        exact tells_pure v
      · rename_i r hget
        rw [hget]
        exact hc.read r x h
      · rename_i hget
        obtain rfl := Option.some.inj h
        rw [hget]
        exact tells_pure .empty
  | .list _, _, h => by simp [tell] at h
  | .write _ _ _, _, h => by simp [tell] at h
  | .join _, _, h => by simp [tell] at h
  | .element _ _, _, h => by simp [tell] at h
  | .fragment _, _, h => by simp [tell] at h
  | .comment _, _, h => by simp [tell] at h
  | .stored _, _, h => by simp [tell] at h
  | .container _, _, h => by simp [tell] at h
  | .html _ _, _, h => by simp [tell] at h
  | .hasProp _, _, h => by simp [tell] at h
  | .children, _, h => by simp [tell] at h
  | .dump, _, h => by simp [tell] at h
  | .call _ _, _, h => by simp [tell] at h

theorem buildEntries_tells (hc : Teller c σ low) (env : Option Props) :
    ∀ {entries : List (String × Bool × Script)} {ps : Props} {x : Props × List String},
      tellEntries σ low env ps entries = some x → ∀ w : World, w.held = σ →
      ∃ w', buildEntries f c env ps entries w = some (x.1, w') ∧ Stirs w w' x.2 ∧ w'.page = w.page
  | [], ps, x, h, w, _ => by
    obtain rfl : (ps, []) = x := by simpa [tellEntries] using h
    exact ⟨w, by rw [buildEntries]; rfl, Stirs.refl w, rfl⟩
  | (name, true, code) :: rest, ps, x, h, w, hheld => by
    rw [tellEntries] at h
    rw [buildEntries]
    exact buildEntries_tells hc env h w hheld
  | (name, false, code) :: rest, ps, x, h, w, hheld => by
    rw [tellEntries] at h
    obtain ⟨y, hy, h⟩ := Option.bind_eq_some_iff.mp h
    obtain ⟨z, hz, h⟩ := Option.bind_eq_some_iff.mp h
    obtain rfl := Option.some.inj h
    obtain ⟨w₁, hrun, hstirs, hpage⟩ := buildScript_tells hc env hy w hheld
    obtain ⟨w', hrun', hstirs', hpage'⟩ :=
      buildEntries_tells hc env hz w₁ (hstirs.held.trans hheld)
    refine ⟨w', ?_, hstirs.trans hstirs', hpage'.trans hpage⟩
    rw [buildEntries, run_bind hrun]
    exact hrun'

end

/-- A reader brings what it tells. -/
theorem readReader_tells (f : Factory) (n : Nat) :
    ∀ {m : Nat} {r : Reader} {x : Told}, 3 * n ≤ m → tellReader σ n r = some x →
      Tells (readReader (machine f m) r) σ x := by
  induction n with
  | zero =>
    intro m r x _ h
    cases h
  | succ n ih =>
    have hteller {m : Nat} (hm : 3 * n + 1 ≤ m) : Teller (machine f m) σ (tellReader σ n) := by
      obtain ⟨k, rfl⟩ : ∃ k, m = k + 1 := ⟨m - 1, by omega⟩
      refine ⟨fun r x hx => ih (m := k) (by omega) hx, fun env code x hx => ?_⟩
      exact ih (m := k + 1) (by omega) hx
    intro m r x hm h
    obtain ⟨k, rfl⟩ : ∃ k, m = k + 1 := ⟨m - 1, by omega⟩
    cases r with
    | script env code => exact buildScript_tells (hteller (m := k) (by omega)) env h
    | signal name =>
      obtain ⟨z, hz, rfl⟩ := of_map_told h
      have hbuild : Tells ((machine f (k + 1)).build none (σ name)) σ z :=
        buildScript_tells (hteller (m := k) (by omega)) none hz
      exact tells_after hbuild
    | join pieces => cases h
    | children source values slot nodes => cases h

/-- A reader resolved brings what it tells, if that is no reader. -/
theorem resolve_tells (f : Factory) {n m : Nat} (hm : 3 * n + 2 ≤ m) {r : Reader} {x : Told}
    (h : tellReader σ n r = some x) (hplain : x.1.isReactive = false) :
    Tells ((machine f m).resolve (.reactive r)) σ x := by
  obtain ⟨k, rfl⟩ : ∃ k, m = k + 2 := ⟨m - 2, by omega⟩
  intro w hheld
  obtain ⟨w', hrun, hstirs, hpage⟩ := readReader_tells f n (m := k) (by omega) h w hheld
  refine ⟨w', ?_, hstirs, hpage⟩
  have hread : (machine f (k + 1)).read r w = some (x.1, w') := hrun
  have hresolve : (machine f (k + 2)).resolve (.reactive r) w =
      ((machine f (k + 1)).read r >>= fun v => (machine f (k + 1)).resolve v) w := rfl
  rw [hresolve, run_bind hread, resolve_plain f (Nat.succ_pos k) hplain]

end

end Stencil.Render
