/-
  Stencil/Proofs/Render/Custody.lean
  ==================================
  **One node and the effects that give it out.**

  Several effects may give out the same node, at most one of them at a time.  What
  matters of their runs is where the node stands and which effects remember it; that is
  a `Custody`.  An effect that gives the node out takes it to its own marker, wherever
  it stood.  An effect that no longer does takes it away if it remembers it, and does not
  look where it stands.

  So the order of runs decides.  If whoever gives the node up runs before whoever takes it
  over, the node ends where it is given out (`Settled.foldl`).  If it runs afterwards, the node is
  lost (`Settled.foldl_lost`).
-/
import Mathlib.Data.List.Nodup

namespace Stencil.Render

/-- Before the marker of which effect the node stands, if it stands anywhere, and which effects
    remember that they have put it there. -/
structure Custody where
  place : Option Nat
  memory : List Nat

namespace Custody

/-- An effect has run, which gives the node out or does not. -/
def run (gives : Nat → Bool) (c : Custody) (id : Nat) : Custody :=
  if gives id then ⟨some id, id :: c.memory⟩
  else ⟨if id ∈ c.memory then none else c.place, c.memory.filter (· != id)⟩

/-- The node stands where it is given out, and who gives it out remembers it. -/
structure Settled (ids : List Nat) (gives : Nat → Bool) (c : Custody) : Prop where
  remembers : ∀ id ∈ ids, id ∈ c.memory ↔ gives id = true
  place_of_gives : ∀ id ∈ ids, gives id = true → c.place = some id
  gives_of_place : ∀ id, c.place = some id → id ∈ ids ∧ gives id = true

/-- At most one effect gives the node out. -/
def Exclusive (ids : List Nat) (gives : Nat → Bool) : Prop :=
  ∀ a ∈ ids, ∀ b ∈ ids, gives a = true → gives b = true → a = b

variable {gives before : Nat → Bool} {ids due : List Nat} {c : Custody}

theorem run_of_not_gives {id : Nat} (h : gives id = false) : c.run gives id =
    ⟨if id ∈ c.memory then none else c.place, c.memory.filter (· != id)⟩ := by
  rw [run, h, if_neg (by simp)]

theorem mem_memory_run (id x : Nat) :
    x ∈ (c.run gives id).memory ↔ if x = id then gives id = true else x ∈ c.memory := by
  unfold run
  split
  · next h => by_cases hx : x = id <;> simp [hx, h]
  · next h => by_cases hx : x = id <;> simp [hx, h]

/-- An effect that has run remembers the node if it gives it out. -/
theorem mem_memory_foldl (x : Nat) :
    x ∈ (due.foldl (run gives) c).memory ↔
      if x ∈ due then gives x = true else x ∈ c.memory := by
  induction due generalizing c with
  | nil => simp
  | cons id due ih =>
    rw [List.foldl_cons, ih, mem_memory_run]
    by_cases hx : x = id
    · subst hx
      simp
    · simp [hx]

/-- The node stays where it is given out, if none of the others that run remembers it. -/
theorem place_foldl_of_gives {b : Nat} (hb : gives b = true) (hplace : c.place = some b)
    (hothers : ∀ id ∈ due, id ≠ b → gives id = false ∧ id ∉ c.memory) :
    (due.foldl (run gives) c).place = some b := by
  induction due generalizing c with
  | nil => exact hplace
  | cons id due ih =>
    obtain ⟨hid, hdue⟩ := List.forall_mem_cons.mp hothers
    refine ih ?_ fun x hx hne => ⟨(hdue x hx hne).1, ?_⟩
    · by_cases heq : id = b
      · rw [run, heq, if_pos hb]
      · rw [run_of_not_gives (hid heq).1, if_neg (hid heq).2]
        exact hplace
    · rw [mem_memory_run]
      split
      · next heq =>
        rw [← heq, (hdue x hx hne).1]
        simp
      · exact (hdue x hx hne).2

/-- Where nobody gives the node out, whoever remembers it takes it away. -/
theorem place_foldl_of_not_gives (hgives : ∀ id ∈ due, gives id = false) :
    (due.foldl (run gives) c).place = if ∃ id ∈ due, id ∈ c.memory then none else c.place := by
  induction due generalizing c with
  | nil => simp
  | cons id due ih =>
    obtain ⟨hid, hdue⟩ := List.forall_mem_cons.mp hgives
    rw [List.foldl_cons, ih hdue, run_of_not_gives hid]
    by_cases hmem : id ∈ c.memory
    · simp [hmem]
    · have hfilter : c.memory.filter (· != id) = c.memory :=
        List.filter_eq_self.mpr fun x hx => by simpa using fun heq : x = id => hmem (heq ▸ hx)
      simp [hmem, hfilter]

/-- Among the runs, `a` comes before `b` does for the first time. -/
def RunsBefore (a b : Nat) (due : List Nat) : Prop :=
  ∃ pre post, due = pre ++ a :: post ∧ b ∉ pre

/-- Where one comes first, the other is not met before it. -/
theorem RunsBefore.mem_of_append {a b : Nat} (h : RunsBefore a b due) (hne : a ≠ b)
    {pre post : List Nat} (hdue : due = pre ++ b :: post) : a ∈ pre := by
  obtain ⟨pre', post', hdue', hb⟩ := h
  rw [hdue, List.append_eq_append_iff] at hdue'
  rcases hdue' with ⟨mid, hpre, hrest⟩ | ⟨mid, hpre, hrest⟩
  · -- `b` would come before `a`
    cases mid with
    | nil =>
      obtain ⟨heq, -⟩ := List.cons.inj hrest
      exact (hne heq.symm).elim
    | cons x mid =>
      obtain ⟨rfl, -⟩ := List.cons.inj hrest
      exact (hb (by simp [hpre])).elim
  · cases mid with
    | nil =>
      obtain ⟨heq, -⟩ := List.cons.inj hrest
      exact (hne heq).elim
    | cons x mid =>
      obtain ⟨rfl, -⟩ := List.cons.inj hrest
      simp [hpre]

/-- The node stands before the marker of an effect that gives it out, if nobody who remembers it
    runs after that effect. -/
theorem place_foldl_append {b : Nat} (hb : gives b = true) {pre post : List Nat}
    (hothers : ∀ id ∈ post, id ≠ b → gives id = false ∧ (id ∈ pre ∨ id ∉ c.memory)) :
    ((pre ++ b :: post).foldl (run gives) c).place = some b := by
  rw [List.foldl_append, List.foldl_cons]
  refine place_foldl_of_gives hb (by rw [run, if_pos hb]) fun id hid hne => ?_
  obtain ⟨hno, hforgets⟩ := hothers id hid hne
  refine ⟨hno, ?_⟩
  rw [mem_memory_run, if_neg hne, mem_memory_foldl]
  split
  · simp [hno]
  · next hpre => exact hforgets.resolve_left hpre

theorem runsBefore_or {a b : Nat} (ha : a ∈ due) :
    RunsBefore a b due ∨ RunsBefore b a due := by
  obtain ⟨pre, post, rfl, hpre⟩ := List.eq_append_cons_of_mem ha
  by_cases hb : b ∈ pre
  · obtain ⟨front, back, rfl⟩ := List.append_of_mem hb
    exact Or.inr ⟨front, back ++ a :: post, by simp, fun hmem => hpre (by simp [hmem])⟩
  · exact Or.inl ⟨pre, post, rfl, hb⟩

/-- One effect more, which runs for the first time. -/
theorem Settled.append (h : Settled ids gives c) {id : Nat} (hnew : id ∉ ids)
    (hforgets : id ∉ c.memory) (hgives : Exclusive (ids ++ [id]) gives) :
    Settled (ids ++ [id]) gives (c.run gives id) := by
  have hne (x : Nat) (hx : x ∈ ids) : x ≠ id := fun heq => hnew (heq ▸ hx)
  constructor
  · refine List.forall_mem_append.mpr ⟨fun x hx => ?_, List.forall_mem_singleton.mpr ?_⟩
    · rw [mem_memory_run, if_neg (hne x hx)]
      exact h.remembers x hx
    · rw [mem_memory_run, if_pos rfl]
  · cases hid : gives id with
    | true =>
      rw [run, if_pos hid]
      exact fun x hx hgx => congrArg some (hgives id (by simp) x hx hid hgx)
    | false =>
      rw [run_of_not_gives hid, if_neg hforgets]
      refine List.forall_mem_append.mpr ⟨h.place_of_gives,
        List.forall_mem_singleton.mpr fun hg => ?_⟩
      rw [hid] at hg
      cases hg
  · cases hid : gives id with
    | true =>
      rw [run, if_pos hid]
      rintro x hx
      obtain rfl := Option.some.inj hx
      exact ⟨by simp, hid⟩
    | false =>
      rw [run_of_not_gives hid, if_neg hforgets]
      exact fun x hx => ⟨List.mem_append_left _ (h.gives_of_place x hx).1,
        (h.gives_of_place x hx).2⟩

/-- The node ends where it is given out, if every effect runs whose part in the matter changes, and
    whoever gives the node up before whoever takes it over. -/
theorem Settled.place_foldl (h : Settled ids before c) (hbefore : Exclusive ids before)
    (hgives : Exclusive ids gives) (hdue : ∀ id ∈ due, id ∈ ids)
    (hchanged : ∀ id ∈ ids, gives id ≠ before id → id ∈ due) {b : Nat} (hb : b ∈ ids)
    (htakes : gives b = true)
    (horder : ∀ a ∈ ids, before a = true → a ≠ b → RunsBefore a b due) :
    (due.foldl (run gives) c).place = some b := by
  have hno (id : Nat) (hid : id ∈ ids) (hne : id ≠ b) : gives id = false := by
    rw [Bool.eq_false_iff]
    intro hgid
    exact hne (hgives id hid b hb hgid htakes)
  by_cases hrun : b ∈ due
  · obtain ⟨pre, post, rfl, -⟩ := List.eq_append_cons_of_mem hrun
    apply place_foldl_append htakes
    intro id hid hne
    have hmem : id ∈ ids := hdue id (by simp [hid])
    refine ⟨hno id hmem hne, ?_⟩
    -- whoever remembers the node has given it out, so it runs before `b` does
    by_cases hgave : before id = true
    · exact Or.inl ((horder id hmem hgave hne).mem_of_append hne rfl)
    · exact Or.inr fun hm => hgave ((h.remembers id hmem).mp hm)
  · have hgave : before b = true := by
      by_contra hne
      exact hrun (hchanged b hb fun heq => hne (heq ▸ htakes))
    apply place_foldl_of_gives htakes (h.place_of_gives b hb hgave)
    intro id hid hne
    have hmem : id ∈ ids := hdue id hid
    refine ⟨hno id hmem hne, fun hm => hne ?_⟩
    exact hbefore id hmem b hb ((h.remembers id hmem).mp hm) hgave

theorem Settled.place_foldl_none (h : Settled ids before c) (hdue : ∀ id ∈ due, id ∈ ids)
    (hchanged : ∀ id ∈ ids, gives id ≠ before id → id ∈ due)
    (hnone : ∀ id ∈ ids, gives id = false) : (due.foldl (run gives) c).place = none := by
  rw [place_foldl_of_not_gives fun id hid => hnone id (hdue id hid)]
  split
  · rfl
  · next hforgotten =>
    by_contra hsome
    obtain ⟨a, ha⟩ := Option.ne_none_iff_exists'.mp hsome
    obtain ⟨hmem, hgave⟩ := h.gives_of_place a ha
    have hrun : a ∈ due := hchanged a hmem (by simp [hnone a hmem, hgave])
    exact hforgotten ⟨a, hrun, (h.remembers a hmem).mpr hgave⟩

/-- **Giving up before taking over keeps the node.**  If every effect runs whose part in the matter
    changes, and whoever gives the node up before whoever takes it over, the node is settled
    again. -/
theorem Settled.foldl (h : Settled ids before c) (hbefore : Exclusive ids before)
    (hgives : Exclusive ids gives) (hdue : ∀ id ∈ due, id ∈ ids)
    (hchanged : ∀ id ∈ ids, gives id ≠ before id → id ∈ due)
    (horder : ∀ a ∈ ids, ∀ b ∈ ids, before a = true → gives b = true → a ≠ b →
      RunsBefore a b due) :
    Settled ids gives (due.foldl (run gives) c) := by
  have hplace (b : Nat) (hb : b ∈ ids) (htakes : gives b = true) :
      (due.foldl (run gives) c).place = some b :=
    h.place_foldl hbefore hgives hdue hchanged hb htakes fun a ha hgave hne =>
      horder a ha b hb hgave htakes hne
  constructor
  · intro id hid
    rw [mem_memory_foldl]
    split
    · exact Iff.rfl
    · next hrun =>
      have hsame : gives id = before id := by
        by_contra hne
        exact hrun (hchanged id hid hne)
      rw [h.remembers id hid, hsame]
  · exact hplace
  · intro a ha
    by_cases hsome : ∃ b ∈ ids, gives b = true
    · obtain ⟨b, hb, htakes⟩ := hsome
      obtain rfl : b = a := Option.some.inj ((hplace b hb htakes).symm.trans ha)
      exact ⟨hb, htakes⟩
    · have hnone : ∀ id ∈ ids, gives id = false := by simpa using hsome
      rw [h.place_foldl_none hdue hchanged hnone] at ha
      cases ha

/-- **Taking over before giving up loses the node.** -/
theorem Settled.foldl_lost (h : Settled ids before c) (hgives : Exclusive ids gives)
    (hdue : ∀ id ∈ due, id ∈ ids) (hnodup : due.Nodup) {a b : Nat} (ha : a ∈ ids) (hb : b ∈ ids)
    (hne : a ≠ b) (hgave : before a = true) (htakes : gives b = true) (hrun : a ∈ due)
    (horder : RunsBefore b a due) : (due.foldl (run gives) c).place = none := by
  obtain ⟨pre, post, rfl, hpre⟩ := horder
  have hpost : a ∈ post := by simpa [hpre, hne] using hrun
  have hb' : b ∉ post := by
    have hcons : (b :: post).Nodup := (List.nodup_append.mp hnodup).2.1
    exact (List.nodup_cons.mp hcons).1
  have hno : ∀ id ∈ post, gives id = false := by
    intro id hid
    rw [Bool.eq_false_iff]
    intro hgid
    obtain rfl : id = b := hgives id (hdue id (by simp [hid])) b hb hgid htakes
    exact hb' hid
  rw [List.foldl_append, List.foldl_cons, place_foldl_of_not_gives hno, if_pos]
  -- `a` still remembers the node when its turn comes
  refine ⟨a, hpost, ?_⟩
  rw [mem_memory_run, if_neg hne, mem_memory_foldl, if_neg hpre]
  exact (h.remembers a ha).mpr hgave

end Custody
end Stencil.Render
