/-
  Stencil/Proofs/Render/HandOver.lean
  ===================================
  **A node that is handed from one hole to another.**

  Holes that share a node are mounted one after the other, and then they show it where it is
  yielded.  They go on to do so for as long as at each write the hole that gives the node up is an
  earlier subscriber of the signal than the one that takes it over.  A write at which it is a
  later one loses the node (`handOver`).  Two holes that are switched by one signal hand the node
  to and fro, so one of the two ways loses it (`handed_back_lost`).
-/
import Stencil.Proofs.Render.Shared

namespace Stencil.Render

open Document

/-! ### Holes mounted one after the other -/

/-- Holes registered, in order; their effects have the numbers given. -/
def registerAll (f : Factory) (c : Calls) (H : Holes) : List Nat → Run Unit
  | [] => pure ()
  | id :: rest => do
    newBinding f c (.content (H.marker id) (H.reader id) [])
    registerAll f c H rest

section

variable {f : Factory} {H : Holes} {all ids : List Nat} {n : NodeId}
  {stored : List (String × Value)}
  {w : World} {k : Custody}

/-- A new effect that is still to run. -/
theorem Kept.register {id : Nat} (h : Kept H all ids n stored [] w k)
    (hid : id = w.graph.effects.size) (hall : id ∈ all) (hlt : ∀ x ∈ ids, x < id) :
    Kept H all (ids ++ [id]) n stored [id]
      { w with graph := (w.graph.register (.content (H.marker id) (H.reader id) [])).2 } k where
  live := h.live
  stored_eq := h.stored_eq
  placed := h.placed
  among := List.forall_mem_append.mpr ⟨h.among, List.forall_mem_singleton.mpr hall⟩
  effect := by
    have hnew : id ∉ k.memory := fun hmem => Nat.lt_irrefl id (hlt id (h.known id hmem))
    refine List.forall_mem_append.mpr ⟨fun x hx => ?_, List.forall_mem_singleton.mpr ?_⟩
    · rw [Signal.Graph.register, Array.getElem?_push_lt (hid ▸ hlt x hx), ← h.effect x hx]
      exact (Array.getElem?_eq_getElem (hid ▸ hlt x hx)).symm
    · rw [Signal.Graph.register, hid]
      simp [handed, hid ▸ hnew]
  known x hx := List.mem_append_left _ (h.known x hx)
  watches := by
    refine List.forall_mem_append.mpr ⟨fun x hx => ?_, ?_⟩
    · rcases h.watches x hx with hno | hwatches
      · cases hno
      · exact Or.inr hwatches
    · exact List.forall_mem_singleton.mpr (Or.inl List.mem_cons_self)
  subscriber name x hx := List.mem_append_left _ (h.subscriber name x hx)
  nodup := h.nodup

theorem Kept.registerAll {j : Nat} (htracking : f.tracking = true)
    (hoffers : H.Offers all (machine f j) n stored)
    (hgives : Custody.Exclusive all (H.gives w.held)) {rest : List Nat} (hall : all = ids ++ rest)
    (h : Kept H all ids n stored [] w k) (hsettled : k.Settled ids (H.gives w.held))
    (hlt : ∀ x ∈ ids, x < w.graph.effects.size)
    (hnumbers : rest = List.range' w.graph.effects.size rest.length) :
    ∃ w' k', Render.registerAll f (machine f (j + 1)) H rest w = some ((), w') ∧ w'.held = w.held ∧
      w'.known = w.known ∧ Kept H all all n stored [] w' k' ∧ k'.Settled all (H.gives w.held) := by
  induction rest generalizing ids w k with
  | nil =>
    rw [List.append_nil] at hall
    exact ⟨w, k, rfl, rfl, rfl, hall ▸ h, hall ▸ hsettled⟩
  | cons id rest ih =>
    rw [List.length_cons, List.range'_succ] at hnumbers
    obtain ⟨hid, hrest⟩ := List.cons.inj hnumbers
    have hall' : all = ids ++ [id] ++ rest := by simpa using hall
    have hmem : id ∈ all := by simp [hall]
    have hsub : ∀ x ∈ ids ++ [id], x ∈ all := fun x hx => by
      rw [hall']
      exact List.mem_append_left _ hx
    obtain ⟨w₁, hrun, hheld, hknown, hsize, h₁⟩ := (h.register hid hmem (hid ▸ hlt)).effect_run
      (f := f) (hoffers.mono hsub) (by simp)
    have hheld₁ : w₁.held = w.held := hheld
    have hsize₁ : w₁.graph.effects.size = w.graph.effects.size + 1 := by
      rw [hsize, Signal.Graph.register, Array.size_push]
    have hnew : id ∉ ids := fun hx => Nat.ne_of_lt (hlt id hx) hid
    have hsettled₁ := hsettled.append hnew (fun hx => hnew (h.known id hx))
      fun a ha b hb => hgives a (hsub a ha) b (hsub b hb)
    rw [← hheld₁] at hsettled₁ hgives
    obtain ⟨w', k', hrun', hheld', hknown', h', hsettled'⟩ := ih hgives hall' (hheld ▸ h₁) hsettled₁
      (List.forall_mem_append.mpr ⟨fun x hx => hsize₁ ▸ Nat.lt_succ_of_lt (hlt x hx),
        List.forall_mem_singleton.mpr (by omega)⟩) (hsize₁ ▸ hrest)
    refine ⟨w', k', ?_, hheld'.trans hheld₁, hknown'.trans hknown, h', hheld₁ ▸ hsettled'⟩
    have hbind : newBinding f (machine f (j + 1)) (.content (H.marker id) (H.reader id) []) w =
        some ((), w₁) := by
      rw [newBinding, if_pos htracking]
      rw [hid] at hrun ⊢
      exact hrun
    rw [Render.registerAll, run_bind hbind]
    exact hrun'

/-! ### Handing over -/

/-- The node stands before the marker of the hole that yields it, and nowhere if none does. -/
def InPlace (H : Holes) (ids : List Nat) (n : NodeId) (w : World) : Prop :=
  (∀ id ∈ ids, H.gives w.held id = true → StandsBefore w.page n (H.marker id)) ∧
    ((∀ id ∈ ids, H.gives w.held id = false) → w.page.parent? n = none)

/-- At this write, the hole that gives the node up comes before the one that takes it over. -/
def InOrder (H : Holes) (ids : List Nat) (w : World) (name : String) (code : Script) : Prop :=
  ∀ a ∈ ids, ∀ b ∈ ids, H.gives w.held a = true →
    H.gives (holding w.known w.held name code) b = true → a ≠ b →
    Custody.RunsBefore a b (w.graph.subscribers name)

/-- At each of these writes it does. -/
def InOrderAll (c : Calls) (H : Holes) (ids : List Nat) : List (String × Script) → World → Prop
  | [], _ => True
  | (name, code) :: rest, w => InOrder H ids w name code ∧
    ∀ w', writeSignal c name code w = some ((), w') → InOrderAll c H ids rest w'

theorem Kept.inPlace (h : Kept H all ids n stored [] w k)
    (hsettled : k.Settled ids (H.gives w.held)) :
    InPlace H ids n w := by
  refine ⟨fun id hid hgives => ?_, fun hnone => h.placed.apart ?_⟩
  · exact h.placed.standing id (hsettled.place_of_gives id hid hgives)
  · by_contra hsome
    obtain ⟨id, hid⟩ := Option.ne_none_iff_exists'.mp hsome
    obtain ⟨hmem, hgives⟩ := hsettled.gives_of_place id hid
    rw [hnone id hmem] at hgives
    cases hgives

/-- A write in order keeps the node in place, and any other loses it. -/
theorem Kept.writeSignal_settled {j : Nat} (hoffers : H.Offers ids (machine f j) n stored)
    (hgives : ∀ σ, Custody.Exclusive ids (H.gives σ)) (h : Kept H all ids n stored [] w k)
    (hsettled : k.Settled ids (H.gives w.held)) (name : String) (code : Script) :
    ∃ w' k', Render.writeSignal (machine f (j + 1)) name code w = some ((), w') ∧
      w'.held = holding w.known w.held name code ∧ w'.known = w.known ∧
      Kept H all ids n stored [] w' k' ∧
      (InOrder H ids w name code → k'.Settled ids (H.gives w'.held)) ∧
      (¬ InOrder H ids w name code → ¬ InPlace H ids n w' ∧ w'.page.parent? n = none) := by
  obtain ⟨w', hrun, hheld, hknown, h'⟩ := h.writeSignal hoffers name code
  have hdue := h.subscriber name
  have hchanged (id : Nat) (hid : id ∈ ids) (hne : H.gives w'.held id ≠ H.gives w.held id) :
      id ∈ w.graph.subscribers name := by
    by_contra hno
    rw [hheld] at hne
    exact hne (h.unread hoffers hid hno code).1
  refine ⟨w', _, hrun, hheld, hknown, h', fun horder => ?_, fun hdisorder => ?_⟩
  · refine hsettled.foldl (hgives _) (hgives _) hdue hchanged fun a ha b hb hgave htakes => ?_
    exact horder a ha b hb hgave (hheld ▸ htakes)
  · simp only [InOrder, not_forall] at hdisorder
    obtain ⟨a, ha, b, hb, hgave, htakes, hne, hlate⟩ := hdisorder
    rw [← hheld] at htakes
    have hrun : a ∈ w.graph.subscribers name := by
      refine hchanged a ha fun heq => hne ?_
      exact hgives w'.held a ha b hb (heq.trans hgave) htakes
    have hlost :=
      hsettled.foldl_lost (hgives w'.held) hdue (h.nodup name) ha hb hne hgave htakes hrun
      ((Custody.runsBefore_or hrun).resolve_left hlate)
    have hapart := h'.placed.apart hlost
    refine ⟨fun hplace => ?_, hapart⟩
    exact (hplace.1 b hb htakes).parent?_ne_none h'.placed.forest hapart

/-- Any number of writes in order keep the node in place. -/
theorem Kept.writeAll_settled {j : Nat} (hoffers : H.Offers ids (machine f j) n stored)
    (hgives : ∀ σ, Custody.Exclusive ids (H.gives σ)) {writes : List (String × Script)}
    (h : Kept H all ids n stored [] w k) (hsettled : k.Settled ids (H.gives w.held))
    (horder : InOrderAll (machine f (j + 1)) H ids writes w) :
    ∃ w' k', Render.writeAll (machine f (j + 1)) writes w = some ((), w') ∧
      w'.held = holdingAll w.known writes w.held ∧ w'.known = w.known ∧
      Kept H all ids n stored [] w' k' ∧ k'.Settled ids (H.gives w'.held) := by
  induction writes generalizing w k with
  | nil => exact ⟨w, k, rfl, rfl, rfl, h, hsettled⟩
  | cons write rest ih =>
    obtain ⟨name, code⟩ := write
    obtain ⟨hfirst, hrest⟩ := horder
    obtain ⟨w₁, k₁, hrun, hheld, hknown, h₁, hsettled₁, -⟩ :=
      h.writeSignal_settled hoffers hgives hsettled name code
    obtain ⟨w', k', hrun', hheld', hknown', h', hsettled'⟩ :=
      ih h₁ (hsettled₁ hfirst) (hrest w₁ hrun)
    refine ⟨w', k', ?_, ?_, hknown'.trans hknown, h', hsettled'⟩
    · rw [Render.writeAll, run_bind hrun]
      exact hrun'
    · rw [hheld', hheld, hknown]
      rfl

end

/-- **When a node is lost that holes hand to each other.**  Holes are mounted one after the other
    that yield the node `n` or nothing, never two of them at once, and then signals are written.
    All that succeeds.  After the mounting the node stands where it is yielded, and so it does after
    each write as long as at every write the hole that gives the node up is an earlier subscriber
    than the one that takes it over.  At the first write where it is not, nobody has the node any
    more, although a hole yields it. -/
theorem handOver {f : Factory} {H : Holes} {j n : Nat} {ids : List Nat} {w : World}
    (htracking : f.tracking = true) (hlive : w.live = true) (hforest : w.page.IsForest)
    (hn : n < w.page.size) (hkind : w.page.isFragment n = false) (hparent : w.page.parent? n = none)
    (hnone : ∀ name, w.graph.subscribers name = [])
    (hids : ids = List.range' w.graph.effects.size ids.length)
    (htakes : ∀ id ∈ ids, Takes w.page n (H.marker id))
    (hoffers : H.Offers ids (machine f j) n w.stored)
    (hgives : ∀ σ, Custody.Exclusive ids (H.gives σ)) :
    ∃ w₀, registerAll f (machine f (j + 1)) H ids w = some ((), w₀) ∧ w₀.held = w.held ∧
      InPlace H ids n w₀ ∧
      ∀ writes, InOrderAll (machine f (j + 1)) H ids writes w₀ →
        ∃ w₁, writeAll (machine f (j + 1)) writes w₀ = some ((), w₁) ∧
          w₁.held = holdingAll w.known writes w.held ∧ InPlace H ids n w₁ ∧
          ∀ name code, ∃ w₂, writeSignal (machine f (j + 1)) name code w₁ = some ((), w₂) ∧
            w₂.held = holding w.known w₁.held name code ∧
            (InPlace H ids n w₂ ↔ InOrder H ids w₁ name code) ∧
            (¬ InOrder H ids w₁ name code → w₂.page.parent? n = none) := by
  have hstart : Kept H ids [] n w.stored [] w ⟨none, []⟩ := by
    refine ⟨hlive, rfl, ⟨hforest, hn, hkind, htakes, nofun, fun _ => hparent⟩, nofun, nofun, nofun,
      nofun, fun name id hid => ?_, fun name => ?_⟩
    · rw [hnone] at hid
      cases hid
    · rw [hnone]
      exact List.nodup_nil
  have hsettled : Custody.Settled [] (H.gives w.held) ⟨none, []⟩ := ⟨nofun, nofun, nofun⟩
  obtain ⟨w₀, k₀, hregister, hheld₀, hknown₀, h₀, hsettled₀⟩ :=
    hstart.registerAll htracking hoffers (hgives w.held) rfl hsettled nofun hids
  rw [← hheld₀] at hsettled₀
  refine ⟨w₀, hregister, hheld₀, h₀.inPlace hsettled₀, fun writes horder => ?_⟩
  obtain ⟨w₁, k₁, hwrites, hheld₁, hknown₁, h₁, hsettled₁⟩ :=
    h₀.writeAll_settled hoffers hgives hsettled₀ horder
  refine ⟨w₁, hwrites, ?_, h₁.inPlace hsettled₁, fun name code => ?_⟩
  · rw [hheld₁, hknown₀, hheld₀]
  · obtain ⟨w₂, k₂, hwrite, hheld₂, -, h₂, hkeeps, hloses⟩ :=
      h₁.writeSignal_settled hoffers hgives hsettled₁ name code
    refine ⟨w₂, hwrite, ?_, ⟨fun hplace => ?_, fun hin => h₂.inPlace (hkeeps hin)⟩,
      fun hdisorder => (hloses hdisorder).2⟩
    · rw [hheld₂, hknown₁, hknown₀]
    · by_contra hdisorder
      exact (hloses hdisorder).1 hplace

theorem buildScript_choose {f : Factory} {c : Calls} {env : Option Props} {name : String}
    {yes no : Script} {w w₁ : World} (hread : readSignal name w = some (w.held name, w₁)) :
    buildScript f c env (.choose name yes no) w =
      buildScript f c env (if (w.held name).isTruthy then yes else no) w₁ := by
  rw [buildScript, run_bind hread]
  cases (w.held name).isTruthy <;> rfl

/-- Holes that yield a stored node as long as a signal is true, or as long as it is not. -/
def Holes.switched (marker : Nat → NodeId) (name key : String) (side : Nat → Bool) : Holes where
  marker := marker
  reader id := .script none
    (if side id then .choose name (.stored key) .empty else .choose name .empty (.stored key))
  gives σ id := (σ name).isTruthy == side id
  reads _ _ := [name]

theorem Holes.offers_switched (f : Factory) (j : Nat) {marker : Nat → NodeId} {name key : String}
    {side : Nat → Bool} {ids : List Nat} {n : NodeId} {stored : List (String × Value)}
    (hstored : ((stored.find? (·.1 == key)).map (·.2)).getD .empty = .node n) :
    (Holes.switched marker name key side).Offers ids (machine f (j + 3)) n stored := by
  refine ⟨fun id _ w _ hw => ?_, fun id _ σ σ' hσ => ⟨?_, rfl⟩⟩
  · obtain ⟨w₁, hw₁⟩ : ∃ w₁ : World, w₁ = { w with graph := (w.graph.read name).2 } := ⟨_, rfl⟩
    have hread : readSignal name w = some (w.held name, w₁) := hw₁ ▸ rfl
    have hnode : buildScript f (machine f j) none (.stored key) w₁ = some (.node n, w₁) := by
      rw [buildScript, ← hstored, ← hw, hw₁]
      rfl
    have hempty : buildScript f (machine f j) none .empty w₁ = some (.empty, w₁) := by
      rw [buildScript]
      rfl
    obtain ⟨v, hv⟩ : ∃ v : Value,
        v = if (w.held name).isTruthy == side id then .node n else .empty := ⟨_, rfl⟩
    have hbuild : (machine f (j + 2)).read ((Holes.switched marker name key side).reader id) w =
        some (v, w₁) := by
      change buildScript f (machine f j) none (if side id then _ else _) w = _
      rw [hv]
      cases side id with
      | true =>
        rw [if_pos rfl, buildScript_choose hread]
        cases (w.held name).isTruthy with
        | true => exact hnode
        | false => exact hempty
      | false =>
        rw [if_neg (by simp), buildScript_choose hread]
        cases (w.held name).isTruthy with
        | true => exact hempty
        | false => exact hnode
    refine ⟨w₁, ?_, hw₁ ▸ ⟨rfl, rfl, rfl, rfl, rfl⟩, hw₁ ▸ rfl⟩
    have hplain : v.isReactive = false := by
      rw [hv]
      split <;> rfl
    have hresolve : (machine f (j + 3)).resolve
        (.reactive ((Holes.switched marker name key side).reader id)) w =
        ((machine f (j + 2)).read ((Holes.switched marker name key side).reader id) >>=
          fun v => (machine f (j + 2)).resolve v) w := rfl
    rw [hresolve, run_bind hbuild, resolve_plain f (by omega) hplain, hv]
    rfl
  · have hs : σ' name = σ name := hσ name (by simp [Holes.switched])
    simp only [Holes.switched, hs]

theorem Holes.exclusive_switched {marker : Nat → NodeId} {name key : String} {side : Nat → Bool}
    {ids : List Nat} (hside : ∀ a ∈ ids, ∀ b ∈ ids, side a = side b → a = b) (σ : String → Script) :
    Custody.Exclusive ids ((Holes.switched marker name key side).gives σ) := by
  intro a ha b hb hga hgb
  simp only [Holes.switched, beq_iff_eq] at hga hgb
  exact hside a ha b hb (hga.symm.trans hgb)

/-- An element that is nowhere, and two markers in a paragraph. -/
def handPage : Page :=
  (((((createElement empty "b" .html).2.createElement "p" .html).2.createComment "").2.createComment
    "").2.append 1 2).append 1 3

def handWorld : World :=
  { World.initial [("s", .bool true)] with page := handPage, stored := [("n", .node 0)] }

/-- The first hole yields the element while the signal is true, and the second one otherwise. -/
def handHoles : Holes := .switched (2 + ·) "s" "n" (· == 0)

theorem isForest_handPage : handPage.IsForest := by
  have h₀ : Reachable (empty : Page) := .empty
  have h₁ := h₀.step (.make (.element "b" .html)) (by decide)
  have h₂ := h₁.step (.make (.element "p" .html)) (by decide)
  have h₃ := h₂.step (.make (.comment "")) (by decide)
  have h₄ := h₃.step (.make (.comment "")) (by decide)
  have h₅ := h₄.step (.change 1 (.append 2)) (by decide)
  exact (h₅.step (.change 1 (.append 3)) (by decide)).isForest

theorem takes_handHoles : ∀ id ∈ [0, 1], Takes handPage 0 (handHoles.marker id) := by
  have hout : ¬ handPage.AncestorOrSelf 0 1 := not_ancestorOrSelf_root (by decide) (by decide)
  refine List.forall_mem_cons.mpr ⟨⟨by decide, 1, by decide, hout⟩, ?_⟩
  exact List.forall_mem_singleton.mpr ⟨by decide, 1, by decide, hout⟩

/-- The first hole is the earlier subscriber.  It hands the element over to the second one, and when
    it is to get it back, the element is lost. -/
theorem handOver_back : ∃ w₀ w₁ w₂,
    registerAll plainFactory (machine plainFactory 4) handHoles [0, 1] handWorld = some ((), w₀) ∧
      StandsBefore w₀.page 0 2 ∧
      writeAll (machine plainFactory 4) [("s", .bool false)] w₀ = some ((), w₁) ∧
      StandsBefore w₁.page 0 3 ∧
      writeSignal (machine plainFactory 4) "s" (.bool true) w₁ = some ((), w₂) ∧
      w₂.page.parent? 0 = none := by
  have hnone (name : String) : handWorld.graph.subscribers name = [] := by
    by_cases hname : "s" = name <;>
      simp [handWorld, World.initial, Signal.Graph.ofValues, Signal.Graph.subscribers,
        Signal.Graph.cell?, hname]
  obtain ⟨w₀, hregister, hheld₀, hplace₀, hwrites⟩ :=
    handOver (f := plainFactory) (w := handWorld) rfl rfl isForest_handPage (by decide) (by decide)
      (by decide) hnone rfl takes_handHoles (Holes.offers_switched plainFactory 0 rfl)
      (Holes.exclusive_switched (by decide))
  -- the effects have subscribed in the order of their mounting, and no write changes that
  have hstart : (registerAll plainFactory (machine plainFactory 4) handHoles [0, 1] handWorld).map
      (fun r => r.2.graph.subscribers "s") = some [0, 1] := by decide +kernel
  have hlater : ((registerAll plainFactory (machine plainFactory 4) handHoles [0, 1] >>= fun _ =>
      writeAll (machine plainFactory 4) [("s", .bool false)]) handWorld).map
      (fun r => (r.2.graph.subscribers "s", r.2.known "s")) = some ([0, 1], true) := by
    decide +kernel
  rw [run_bind hregister] at hlater
  rw [hregister] at hstart
  have hdue₀ : w₀.graph.subscribers "s" = [0, 1] := Option.some.inj hstart
  have horder : InOrderAll (machine plainFactory 4) handHoles [0, 1] [("s", .bool false)] w₀ := by
    refine ⟨fun a ha b hb hga _ hne => ?_, fun _ _ => trivial⟩
    rw [hheld₀] at hga
    simp only [List.mem_cons, List.not_mem_nil, or_false] at ha hb
    rw [hdue₀]
    rcases ha with rfl | rfl
    · exact ⟨[], [1], rfl, by simp⟩
    · exact absurd hga (by decide)
  obtain ⟨w₁, hwrite₁, hheld₁, hplace₁, hlast⟩ := hwrites _ horder
  rw [hwrite₁] at hlater
  obtain ⟨hdue₁, hknown₁⟩ := Prod.mk.inj (Option.some.inj hlater)
  obtain ⟨w₂, hwrite₂, -, -, hlost⟩ := hlast "s" (.bool true)
  have hback : ¬ InOrder handHoles [0, 1] w₁ "s" (.bool true) := by
    intro h
    have hbefore : Custody.RunsBefore 1 0 (w₁.graph.subscribers "s") := by
      refine h 1 (by simp) 0 (by simp) ?_ ?_ (by simp)
      · rw [hheld₁]
        decide +kernel
      · change ((holding w₁.known w₁.held "s" (.bool true) "s").isTruthy == true) = true
        rw [holding, if_pos ⟨rfl, hknown₁⟩]
        rfl
    have hdue : w₁.graph.subscribers "s" = [] ++ 0 :: [1] := hdue₁
    exact List.not_mem_nil (hbefore.mem_of_append (by simp) hdue)
  refine ⟨w₀, w₁, w₂, hregister, hplace₀.1 0 (by simp) ?_, hwrite₁,
    hplace₁.1 1 (by simp) ?_, hwrite₂,
    hlost hback⟩
  · rw [hheld₀]
    decide +kernel
  · rw [hheld₁]
    decide +kernel

/-! ### A session in which a node is lost -/

/-- Two paragraphs with a hole each. -/
def handFactory : Factory :=
  { plainFactory with literals := [⟨"pair", ["<p>", "</p><p>", "</p>"]⟩] }

/-- An element is made and stored, and shown in the first paragraph while the signal is true, in the
    second one otherwise; then the signal is written. -/
def handSteps (flag : Bool) : List Step :=
  [.evaluate (.element "b" []) (some "n"),
    .display "pair" [.later (.choose "s" (.stored "n") .empty),
      .later (.choose "s" .empty (.stored "n"))] "main",
    .set "s" (.bool flag)]

/-- From the first hole to the second one the element gets through; the other way it is lost. -/
theorem handed_back_lost :
    (showAfter handFactory 30 (handSteps false) (.initial [("s", .bool true)])).map (·.1) =
        some [("main", "<p><!----></p><p><b></b><!----></p>")] ∧
      (showAfter handFactory 30 (handSteps true) (.initial [("s", .bool false)])).map (·.1) =
        some [("main", "<p><!----></p><p><!----></p>")] := by
  constructor
  · decide +kernel
  · decide +kernel

end Stencil.Render
