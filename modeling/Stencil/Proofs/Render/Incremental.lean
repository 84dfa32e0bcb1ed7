/-
  Stencil/Proofs/Render/Incremental.lean
  ======================================
  **Bringing a container up to date is as good as rendering it again.**

  The bindings of a mounted container are in tune with its signals (`Tuned`): each is an
  effect that shows what its reader yields now and that subscribes to all that it has
  read for it, but for the effects that are still due.  A write makes due what subscribes
  to the signal, and no other binding notices it.  A run of an effect changes the part of
  the container that its entry in the reading belongs to, and the reading is one of the
  same nodes again (`effect_shows`).  So when nothing is due any more, the container
  shows what the signals hold, and that is all there is to a container that is rendered
  now (`shows_alike`).
-/
import Stencil.Proofs.Render.Wired

namespace Stencil.Render

open Document Document.Plant Markup

/-! ### Signals that are written -/

/-- What signals hold when one has been written.  Writing a signal that is not there does
    nothing. -/
def holding (known : String → Bool) (σ : String → Script) (name : String) (code : Script) :
    String → Script :=
  fun x => if x = name ∧ known x = true then code else σ x

/-- What signals hold when several have been written. -/
def holdingAll (known : String → Bool) : List (String × Script) → (String → Script) → String →
    Script
  | [], σ => σ
  | (name, code) :: rest, σ => holdingAll known rest (holding known σ name code)

/-- Several signals written, one after the other. -/
def writeAll (c : Calls) : List (String × Script) → Run Unit
  | [] => pure ()
  | (name, code) :: rest => do
    writeSignal c name code
    writeAll c rest

/-- The signals that there are. -/
def World.known (w : World) (name : String) : Bool := (w.graph.cell? name).isSome

theorem held_write (w : World) (name : String) (code : Script) :
    ({ w with graph := (w.graph.write name code).2 } : World).held =
      holding w.known w.held name code := by
  funext x
  rw [World.held, Signal.Graph.peek?, Signal.Graph.write, Signal.Graph.cell?_updateCell, holding,
    World.known, World.held, Signal.Graph.peek?]
  by_cases hx : x = name
  · rcases hcell : w.graph.cell? x with _ | c <;> simp [hx]
  · simp [hx]

theorem known_write (w : World) (name : String) (code : Script) :
    ({ w with graph := (w.graph.write name code).2 } : World).known = w.known := by
  funext x
  rw [World.known, Signal.Graph.write, Signal.Graph.cell?_updateCell, World.known]
  split
  · exact Option.isSome_map
  · rfl

/-! ### Signals that are watched -/

section

variable {w w' : World} {name : String} {i j : Nat} {b : Binding} {reads more : List String}

/-- An effect notices nothing of a write of a signal that it does not read. -/
theorem held_write_unread (code : Script) (h : Watches w.graph i reads)
    (hunread : i ∉ w.graph.subscribers name) :
    ∀ x ∈ reads, ({ w with graph := (w.graph.write name code).2 } : World).held x = w.held x := by
  intro x hx
  rw [held_write, holding, if_neg]
  rintro ⟨rfl, hknown⟩
  exact hunread (h x hx hknown)

theorem watches_write (code : Script) (h : Watches w.graph i reads) :
    Watches (w.graph.write name code).2 i reads := by
  intro x hx hsome
  rw [Signal.Graph.subscribers_write]
  rw [Signal.Graph.isSome_cell?_write] at hsome
  exact h x hx hsome

/-- The run of an effect takes no subscription away. -/
theorem watches_rerun (h : Watches w.graph i reads) (hrerun : Rerun w w' j b more) :
    Watches w'.graph i reads := by
  intro x hx hsome
  rw [hrerun.graph.isSome_cell?] at hsome
  exact hrerun.graph.mem_subscribers.mpr (Or.inl (h x hx hsome))

theorem watches_of_rerun (h : Rerun w w' j b reads) : Watches w'.graph j reads := by
  intro x hx hsome
  rw [h.graph.isSome_cell?] at hsome
  exact h.graph.mem_subscribers.mpr (Or.inr ⟨rfl, hx, hsome⟩)

end

/-! ### Bindings in tune -/

/-- The bindings are the effects from number `lo` on and the only subscribers, and each that is
    not due is up to date. -/
structure Tuned (n lo : Nat) (w : World) (bs : List Bound) (due : List Nat) : Prop where
  live : w.live = true
  effect : ∀ (i : Nat) b, bs[i]? = some b → w.graph.effects[lo + i]? = some ⟨b.1, false⟩
  current : ∀ (i : Nat) b, bs[i]? = some b → lo + i ∈ due ∨
    ∃ reads, Current w.held n b reads ∧ Watches w.graph (lo + i) reads
  subscriber : ∀ name (j : Nat), j ∈ w.graph.subscribers name → lo ≤ j ∧ j < lo + bs.length

theorem getElem?_replace {β : Type} (pre post : List β) (x y : β) {i : Nat}
    (h : i ≠ pre.length) : (pre ++ x :: post)[i]? = (pre ++ y :: post)[i]? := by
  rcases Nat.lt_or_ge i pre.length with hi | hi
  · rw [List.getElem?_append_left hi, List.getElem?_append_left hi]
  · obtain ⟨k, rfl⟩ : ∃ k, i = pre.length + (k + 1) := ⟨i - pre.length - 1, by omega⟩
    rw [List.getElem?_append_right (by omega), List.getElem?_append_right (by omega)]
    simp

namespace Tuned

variable {n lo : Nat} {w w' : World} {bs pre post : List Bound} {due : List Nat}

theorem of_wires (h : Wires n w w' bs) (hlive : w.live = true)
    (hnone : ∀ name, w.graph.subscribers name = []) :
    Tuned n w.graph.effects.size w' bs [] where
  live := h.live.trans hlive
  effect := h.new
  current i b hb := by
    rw [h.held]
    exact Or.inr (h.current i b hb)
  subscriber name j hj := by
    rcases h.added name j hj with hj | hj
    · rw [hnone] at hj
      cases hj
    · rwa [h.size] at hj

/-- What subscribes to a signal that is written is due. -/
theorem write (h : Tuned n lo w bs []) (name : String) (code : Script) :
    Tuned n lo { w with graph := (w.graph.write name code).2 } bs (w.graph.subscribers name) := by
  refine ⟨h.live, h.effect, fun i b hb => ?_, fun x j hj => ?_⟩
  · by_cases hdue : lo + i ∈ w.graph.subscribers name
    · exact Or.inl hdue
    · obtain ⟨reads, hcurrent, hwatches⟩ := (h.current i b hb).resolve_left nofun
      exact Or.inr ⟨reads, showReader_congr hcurrent (Nat.le_refl _)
        (held_write_unread code hwatches hdue), watches_write code hwatches⟩
  · rw [Signal.Graph.subscribers_write] at hj
    exact h.subscriber x j hj

/-- A binding that has run is up to date. -/
theorem rerun {x : Bound} {b : Binding} {y : Yield} {reads : List String}
    (h : Tuned n lo w (pre ++ x :: post) ((lo + pre.length) :: due))
    (hrerun : Rerun w w' (lo + pre.length) b reads) (hcurrent : Current w.held n (b, y) reads) :
    Tuned n lo w' (pre ++ (b, y) :: post) due := by
  have hlength : (pre ++ (b, y) :: post).length = (pre ++ x :: post).length := by simp
  have hself (c : Bound) (hc : (pre ++ (b, y) :: post)[pre.length]? = some c) : c = (b, y) := by
    simpa [eq_comm] using hc
  refine ⟨hrerun.live.trans h.live, fun i c hc => ?_, fun i c hc => ?_, fun name j hj => ?_⟩
  · rw [hrerun.graph.effect]
    by_cases hi : i = pre.length
    · subst hi
      rw [hself c hc, if_pos rfl]
    · rw [if_neg (by omega)]
      exact h.effect i c (getElem?_replace pre post x (b, y) hi ▸ hc)
  · by_cases hi : i = pre.length
    · subst hi
      rw [hself c hc, hrerun.held]
      exact Or.inr ⟨reads, hcurrent, watches_of_rerun hrerun⟩
    · rcases h.current i c (getElem?_replace pre post x (b, y) hi ▸ hc) with hdue | hcurrent'
      · rcases List.mem_cons.mp hdue with heq | hdue
        · omega
        · exact Or.inl hdue
      · obtain ⟨reads', hcurrent', hwatches⟩ := hcurrent'
        exact Or.inr ⟨reads', hrerun.held ▸ hcurrent', watches_rerun hwatches hrerun⟩
  · rw [hlength]
    rcases hrerun.graph.mem_subscribers.mp hj with hj | ⟨rfl, -, -⟩
    · exact h.subscriber name j hj
    · constructor
      · omega
      · simp

/-- With nothing due, all bindings are up to date. -/
theorem all_current (h : Tuned n lo w bs []) : ∀ b ∈ bs, ∃ reads, Current w.held n b reads := by
  intro b hb
  obtain ⟨i, hi⟩ := List.getElem?_of_mem hb
  rcases h.current i b hi with hno | ⟨reads, hcurrent, -⟩
  · cases hno
  · exact ⟨reads, hcurrent⟩

end Tuned

/-! ### Runs of effects -/

section

variable {f : Factory} {values : List Value} {n k lo : Nat}

/-- The run of one effect: the part of the container that it is about shows what its reader
    yields, and nothing else has changed. -/
theorem effect_shows (hpolicy : f.policy = .usual) (hk : 3 * n + 3 ≤ k) {ns : List Node}
    {ts : List (Plant Value Action)} {pre post : List Bound} {x : Bound} {w : World} {id p : Nat}
    {front back : List NodeId}
    (hshows : Shows f.toSetup (liveReading f values) ns ts (pre ++ x :: post))
    (hsuits : ∀ pt ∈ pointsOfAll f ns, Suits f pt)
    (hanswers : ∀ pt ∈ pointsOfAll f ns, Answers values w.held n pt) (hlive : w.live = true)
    (heffect : w.graph.effects[id]? = some ⟨x.1, false⟩) (hforest : w.page.IsForest)
    (hstand : w.page.AllStand (some p) ts)
    (hplace : ∃ c q, w.page.node? p = some ⟨c, q, front ++ roots ts ++ back⟩) :
    ∃ w' ts' b y reads, (machine f k).effect id w = some ((), w') ∧ Rerun w w' id b reads ∧
      Current w.held n (b, y) reads ∧
      Shows f.toSetup (liveReading f values) ns ts' (pre ++ (b, y) :: post) ∧
      w.page.Regrown w'.page p front ts ts' back := by
  obtain ⟨pt, hpt, Q, hQ, p', front', back', us, as, as', pre', post', rfl, rfl, hx, hus, hat,
    hnext⟩ := hshows.locates rfl hforest hstand hplace
  have hsuit := hsuits pt hpt
  have hanswer := hanswers pt hpt
  cases hQ with
  | component tag children => exact hx.elim
  | hole i =>
    by_cases hreader : (valueAt values i).isReactive = true
    · obtain ⟨r, hr⟩ := exists_reader hreader
      simp only [liveReading, hr] at hx
      simp only [Answers, hr] at hanswer
      obtain ⟨m, cur, y, rfl, hone, -⟩ := hx
      obtain ⟨shown, hshow⟩ := hanswer
      obtain ⟨rfl, rfl, rfl⟩ : as = [] ∧ x = (.content m r (roots cur), y) ∧ as' = [] := by
        cases as with
        | nil => simpa using hone
        | cons a as => simp at hone
      obtain ⟨w', cur', hrun, hrerun, hgrown, htrees⟩ :=
        effect_content f hk hlive heffect hshow hforest hus hat
      have hentry : (liveReading f values).hole i (cur' ++ [leaf m (.comment "")])
          [(.content m r (roots cur'), shown.yield)] := by
        simp only [liveReading, hr]
        exact ⟨m, cur', shown.yield, rfl, rfl, htrees⟩
      obtain ⟨ts', hshows', hwhole⟩ := hnext _ _ _ hentry hgrown
      exact ⟨w', ts', _, shown.yield, shown.reads, hrun, hrerun, hshow, by simpa using hshows',
        hwhole⟩
    · have hnone : as ++ x :: as' = [] := by
        cases hv : valueAt values i <;> rw [hv] at hreader <;>
          simp only [liveReading, hv] at hx <;>
          first | exact hx.1 | exact absurd rfl hreader
      simp at hnone
  | element tag node cs =>
    obtain ⟨e, rfl, hname, hspace, ws, hworn, hwears⟩ := hx
    obtain ⟨a, ha, name, r, v, before, behind, haname, hvalue, hbinding, rfl, hrewrite⟩ :=
      worn_split hworn rfl
    obtain ⟨hattrs, hnodup⟩ := hsuit
    have hatag : a ∈ tag.attrs :=
      (f.perm_boundAttrs tag).mem_iff.mp (List.mem_append_left _ ha)
    obtain ⟨-, hwhole⟩ := hattrs a hatag
    have hfixed : a.isFixed = false := by
      cases a with
      | flag name => cases hvalue
      | fixed name value quote => cases hvalue
      | _ => rfl
    obtain ⟨shown, v', hshow, hscalar⟩ : ∃ shown v', showReader w.held n r = some shown ∧
        shown.yield.scalar? = some v' := by
      have hone := hanswer a hatag
      rw [AttrAnswers, hvalue] at hone
      exact hone
    rw [hbinding] at heffect
    obtain ⟨w', hrun, hrerun, hforest', hsize, hnode, hframe⟩ :=
      effect_attribute f hk hlive heffect hshow hscalar hforest hus.1.node?_eq
    have hbuiltin : (f.policy.resolve name).1.setter.isBuiltIn = true :=
      hpolicy ▸ Setter.isBuiltIn_usual name
    have hdistinct : ((before ++ writeOf f name v :: (behind ++ preboundWrites f tag)).filterMap
        Write.target?).Nodup := by
      have hall := distinct_boundAttrs hnodup
      rw [Distinct, ← targets_worn hworn, ← List.filterMap_append] at hall
      simpa using hall
    have hwears' := Wears.rewrite (w := writeOf f name v) (v := v') (by simpa using hwears)
      hdistinct hbuiltin (hwhole hfixed name haname) (content_scalar hscalar)
    have hentry : ∃ e', [Plant.node node (.element ((writeOf f name v').apply f.config e)) cs] =
        [Plant.node node (.element e') cs] ∧
        (liveReading f values).element tag node e' (as ++ (x.1, shown.yield) :: as') := by
      have hkeeps := Setter.write_keeps hbuiltin f.config (f.policy.resolve name).2 v' e
      refine ⟨_, rfl, hkeeps.1.trans hname, hkeeps.2.trans hspace, _, hrewrite _ v' hscalar, ?_⟩
      rw [List.append_assoc, List.cons_append]
      exact hwears'
    have hgrown : w.page.Regrown w'.page p' front' ([] ++ [Plant.node node (.element e) cs])
        ([] ++ [Plant.node node (.element ((writeOf f name v').apply f.config e)) cs]) back' :=
      (Regrown.refl hforest hus hat).refill hforest' hsize hnode hframe
    obtain ⟨ts', hshows', hpart⟩ := hnext _ _ _ hentry hgrown
    refine ⟨w', ts', x.1, shown.yield, shown.reads, hrun, ?_, ?_, ?_, hpart⟩
    · rw [hbinding]
      exact hrerun
    · rw [Current, hbinding]
      exact hshow
    · simpa using hshows'

/-! ### Writes -/

/-- What a mounted container is like whose bindings are in tune: it is a reading of its nodes, it
    stands where `old` stood in `d`, and the rest of `d` is as it was. -/
structure Mounted (f : Factory) (values : List Value) (n lo : Nat) (ns : List Node) (d : Page)
    (p : Nat) (front : List NodeId) (old : List (Plant Value Action)) (due : List Nat) (w : World)
    (ts : List (Plant Value Action)) (bs : List Bound) : Prop where
  tuned : Tuned n lo w bs due
  shows : Shows f.toSetup (liveReading f values) ns ts bs
  grown : d.Regrown w.page p front old ts []

variable {ns : List Node} {d : Page} {p : Nat} {front : List NodeId}
  {old : List (Plant Value Action)}

/-- One effect that is due has run. -/
theorem Mounted.effect (hpolicy : f.policy = .usual) (hk : 3 * n + 3 ≤ k)
    (hsuits : ∀ pt ∈ pointsOfAll f ns, Suits f pt) {id : Nat} {due : List Nat} {w : World}
    {ts : List (Plant Value Action)} {bs : List Bound}
    (h : Mounted f values n lo ns d p front old (id :: due) w ts bs) (hlow : lo ≤ id)
    (hhigh : id < lo + bs.length)
    (hanswers : ∀ pt ∈ pointsOfAll f ns, Answers values w.held n pt) :
    ∃ w' ts' bs', (machine f k).effect id w = some ((), w') ∧
      Mounted f values n lo ns d p front old due w' ts' bs' ∧ bs'.length = bs.length ∧
      w'.held = w.held ∧ w'.cache = w.cache ∧
      ∀ name, (w'.graph.cell? name).isSome = (w.graph.cell? name).isSome := by
  obtain ⟨i, rfl⟩ : ∃ i, id = lo + i := ⟨id - lo, by omega⟩
  have hi : i < bs.length := by omega
  obtain ⟨pre, x, post, rfl, rfl⟩ : ∃ pre x post, bs = pre ++ x :: post ∧ i = pre.length :=
    ⟨bs.take i, bs[i], bs.drop (i + 1), by simp, by simp; omega⟩
  have heffect := h.tuned.effect pre.length x (by simp)
  obtain ⟨content, q, -, hafter⟩ := h.grown.place
  obtain ⟨w', ts', b, y, reads, hrun, hrerun, hcurrent, hshows, hgrown⟩ :=
    effect_shows hpolicy hk h.shows hsuits hanswers h.tuned.live heffect h.grown.forest
      h.grown.stand ⟨content, q, hafter⟩
  exact ⟨w', ts', _, hrun, ⟨h.tuned.rerun hrerun hcurrent, hshows, h.grown.trans hgrown⟩, by simp,
    hrerun.held, hrerun.cache, hrerun.graph.isSome_cell?⟩

/-- All effects that are due have run. -/
theorem Mounted.executeAll (hpolicy : f.policy = .usual) (hk : 3 * n + 3 ≤ k)
    (hsuits : ∀ pt ∈ pointsOfAll f ns, Suits f pt) {due : List Nat} {w : World}
    {ts : List (Plant Value Action)} {bs : List Bound}
    (h : Mounted f values n lo ns d p front old due w ts bs)
    (hdue : ∀ id ∈ due, lo ≤ id ∧ id < lo + bs.length)
    (hanswers : ∀ pt ∈ pointsOfAll f ns, Answers values w.held n pt) :
    ∃ w' ts' bs', Signal.executeAll (machine f k).effect due w = some ((), w') ∧
      Mounted f values n lo ns d p front old [] w' ts' bs' ∧ w'.held = w.held ∧
      w'.cache = w.cache ∧
      ∀ name, (w'.graph.cell? name).isSome = (w.graph.cell? name).isSome := by
  induction due generalizing w ts bs with
  | nil => exact ⟨w, ts, bs, rfl, h, rfl, rfl, fun _ => rfl⟩
  | cons id due ih =>
    obtain ⟨⟨hlow, hhigh⟩, hdue'⟩ := List.forall_mem_cons.mp hdue
    obtain ⟨w₁, ts₁, bs₁, hrun, h₁, hlength, hheld, hcache, hcells⟩ :=
      h.effect hpolicy hk hsuits hlow hhigh hanswers
    obtain ⟨w', ts', bs', hrun', h', hheld', hcache', hcells'⟩ :=
      ih h₁ (hlength ▸ hdue') (hheld ▸ hanswers)
    refine ⟨w', ts', bs', ?_, h', hheld'.trans hheld, hcache'.trans hcache,
      fun name => (hcells' name).trans (hcells name)⟩
    rw [Signal.executeAll, run_bind hrun]
    exact hrun'

/-- One signal has been written, and the container is in tune again. -/
theorem Mounted.writeSignal (hpolicy : f.policy = .usual) (hk : 3 * n + 3 ≤ k)
    (hsuits : ∀ pt ∈ pointsOfAll f ns, Suits f pt) {w : World}
    {ts : List (Plant Value Action)} {bs : List Bound}
    (h : Mounted f values n lo ns d p front old [] w ts bs) (name : String) (code : Script)
    (hanswers : ∀ pt ∈ pointsOfAll f ns, Answers values (holding w.known w.held name code) n pt) :
    ∃ w' ts' bs', Render.writeSignal (machine f k) name code w = some ((), w') ∧
      Mounted f values n lo ns d p front old [] w' ts' bs' ∧
      w'.held = holding w.known w.held name code ∧ w'.cache = w.cache ∧ w'.known = w.known := by
  obtain ⟨w₁, hw₁⟩ : ∃ w₁ : World, w₁ = { w with graph := (w.graph.write name code).2 } := ⟨_, rfl⟩
  have hheld₁ : w₁.held = holding w.known w.held name code := by rw [hw₁, held_write]
  have hknown₁ : w₁.known = w.known := by rw [hw₁, known_write]
  have h₁ : Mounted f values n lo ns d p front old (w.graph.subscribers name) w₁ ts bs :=
    ⟨hw₁ ▸ h.tuned.write name code, h.shows, hw₁ ▸ h.grown⟩
  obtain ⟨w', ts', bs', hrun, h', hheld, hcache, hcells⟩ := h₁.executeAll hpolicy hk hsuits
    (fun id hid => h.tuned.subscriber name id hid) (hheld₁ ▸ hanswers)
  have hknown : w'.known = w.known := by
    rw [← hknown₁]
    funext x
    exact hcells x
  refine ⟨w', ts', bs', ?_, h', hheld.trans hheld₁, hcache.trans (by rw [hw₁]), hknown⟩
  have hwrite : (modifyGet fun g : SignalGraph => g.write name code : Run (List Nat)) w =
      some (w.graph.subscribers name, w₁) := by
    rw [hw₁]
    rfl
  rw [Render.writeSignal, Signal.write, run_bind hwrite]
  exact hrun

/-- Any number of signals have been written, and the container is in tune. -/
theorem Mounted.writeAll (hpolicy : f.policy = .usual) (hk : 3 * n + 3 ≤ k)
    (hsuits : ∀ pt ∈ pointsOfAll f ns, Suits f pt) {writes : List (String × Script)} {w : World}
    {ts : List (Plant Value Action)} {bs : List Bound}
    (h : Mounted f values n lo ns d p front old [] w ts bs)
    (hanswers : ∀ done, done <+: writes →
      ∀ pt ∈ pointsOfAll f ns, Answers values (holdingAll w.known done w.held) n pt) :
    ∃ w' ts' bs', Render.writeAll (machine f k) writes w = some ((), w') ∧
      Mounted f values n lo ns d p front old [] w' ts' bs' ∧
      w'.held = holdingAll w.known writes w.held ∧ w'.cache = w.cache := by
  induction writes generalizing w ts bs with
  | nil => exact ⟨w, ts, bs, rfl, h, rfl, rfl⟩
  | cons write rest ih =>
    obtain ⟨name, code⟩ := write
    obtain ⟨w₁, ts₁, bs₁, hrun, h₁, hheld, hcache, hknown⟩ :=
      h.writeSignal hpolicy hk hsuits name code (hanswers [(name, code)] (by simp))
    have hnext (done : List (String × Script)) (hdone : done <+: rest) :
        ∀ pt ∈ pointsOfAll f ns, Answers values (holdingAll w₁.known done w₁.held) n pt := by
      rw [hheld, hknown]
      exact hanswers ((name, code) :: done) (List.cons_prefix_cons.mpr ⟨rfl, hdone⟩)
    obtain ⟨w', ts', bs', hrun', h', hheld', hcache'⟩ := ih h₁ hnext
    refine ⟨w', ts', bs', ?_, h', ?_, hcache'.trans hcache⟩
    · rw [Render.writeAll, run_bind hrun]
      exact hrun'
    · rw [hheld', hheld, hknown]
      rfl

/-! ### Literals -/

/-- A literal with readers is rendered and mounted. -/
theorem renderLiteral_mount_live {l : Literal} {w w₀ : World} {source : Compiled}
    {parent m : Nat} (hpolicy : f.policy = .usual) (htracking : f.tracking = true)
    (hsound : Sound f l w) (hlive : w.live = true)
    (hcompile : compile f l w = some (.ok source, w₀))
    (hplaced : ∀ i, Node.hole i ∈ source.tree.children →
      f.needsSkeleton source.tree.children = true)
    (hsuits : ∀ pt ∈ pointsOfAll f source.tree.children, Suits f pt)
    (hanswers : ∀ pt ∈ pointsOfAll f source.tree.children, Answers values w.held n pt)
    (hcount : values.length = l.holeCount) (hparent : parent < w.page.size)
    (hm : 3 * n + 3 < m) :
    ∃ v w₁ w₂ us bs, renderLiteral f (machine f m) l values w = some (.ok v, w₁) ∧
      mount f (machine f m) parent v w₁ = some ((), w₂) ∧ Wires n w₀ w₂ bs ∧
      Shows f.toSetup (liveReading f values) source.tree.children us bs ∧
      w₀.page.Regrown w₂.page parent (w.page.children parent) [] us [] := by
  obtain ⟨-, hstocked, hext₀, -, -⟩ := compile_sound hsound hcompile
  obtain ⟨hgraph, hsame⟩ := compile_keeps hcompile
  have hholds : Holds w.held w₀ := ⟨hsame.trans hlive, World.held_congr hgraph⟩
  obtain ⟨k, rfl⟩ : ∃ k, m = k + 1 := ⟨m - 1, by omega⟩
  have hk : 3 * n + 3 ≤ k := by omega
  obtain ⟨w₁, us, bs, hrun, hwires, hshows, hext₁, hloose, hnodup, hyoung⟩ :=
    renderContainer_live hpolicy htracking hk hplaced hsuits hanswers
      hstocked.furnished hext₀.forest hholds
  have hrender : renderLiteral f (machine f (k + 1)) l values w =
      some (.ok (Value.ofList ((roots us).map Value.node)), w₁) := by
    rw [renderLiteral, if_neg (by simp [hcount]), run_bind hcompile]
    exact run_bind hrun fun v => pure (Except.ok v)
  have hbears := bears_ofList (bears_nodes hloose)
  obtain ⟨base, d', hmount, hgrown⟩ := mount_eq f (machine f (k + 1)) hext₀.forest hext₁
    (Nat.lt_of_lt_of_le hparent hext₀.size_le) hbears (by rwa [plants_map])
    (by rwa [plants_map])
  have hchildren : w₀.page.children parent = w.page.children parent := by
    rw [children, hext₀.same parent hparent, ← children]
  rw [grow_map, hchildren] at hgrown
  have hquiet : Quiet w₁ { w₁ with page := d' } := ⟨rfl, rfl, rfl, rfl, rfl⟩
  have hall := hwires.trans (Wires.of_quiet (n := n) hquiet)
  rw [List.append_nil] at hall
  exact ⟨_, w₁, _, us, bs, hrender, hmount, hall, hshows, hgrown⟩

/-- A literal is rendered and mounted, and then any signals are written, in any order.  What has
    been mounted looks like what is mounted when the literal is rendered afresh: in any world
    whose signals hold the same, and in this one too, where the literal is compiled already. -/
theorem writeAll_alike_render {l : Literal} {w w₀ : World} {source : Compiled}
    {writes : List (String × Script)} {parent m : Nat} (hpolicy : f.policy = .usual)
    (htracking : f.tracking = true) (hsound : Sound f l w) (hlive : w.live = true)
    (hfresh : ∀ name, w.graph.subscribers name = [])
    (hcompile : compile f l w = some (.ok source, w₀))
    (hplaced : ∀ i, Node.hole i ∈ source.tree.children →
      f.needsSkeleton source.tree.children = true)
    (hsuits : ∀ pt ∈ pointsOfAll f source.tree.children, Suits f pt)
    (hanswers : ∀ done, done <+: writes → ∀ pt ∈ pointsOfAll f source.tree.children,
      Answers values (holdingAll w.known done w.held) n pt)
    (hcount : values.length = l.holeCount) (hparent : parent < w.page.size)
    (hm : 3 * n + 3 < m) :
    ∃ v w₁ w₂ w₃ us, renderLiteral f (machine f m) l values w = some (.ok v, w₁) ∧
      mount f (machine f m) parent v w₁ = some ((), w₂) ∧
      writeAll (machine f m) writes w₂ = some ((), w₃) ∧
      w₃.page.children parent = w.page.children parent ++ us ∧
      w₃.held = holdingAll w.known writes w.held ∧ w₃.live = true ∧
      w.page.size ≤ w₃.page.size ∧
      (∀ x : Nat, x < w.page.size → x ≠ parent → w₃.page.node? x = w.page.node? x) ∧
      (¬ InFragment w.page parent →
        Sound f l w₃ ∧ ∃ w₀', compile f l w₃ = some (.ok source, w₀')) ∧
      ∀ w' w₀' source' parent' k, Sound f l w' → w'.live = true → w'.held = w₃.held →
        compile f l w' = some (.ok source', w₀') → parent' < w'.page.size → 3 * n + 3 < k →
        ∃ v' w₁' w₂' us', renderLiteral f (machine f k) l values w' = some (.ok v', w₁') ∧
          mount f (machine f k) parent' v' w₁' = some ((), w₂') ∧
          w₂'.page.children parent' = w'.page.children parent' ++ us' ∧
          AlikeAll (us.map w₃.page.tree) (us'.map w₂'.page.tree) := by
  have hstart := hanswers [] List.nil_prefix
  obtain ⟨hparse, -, hext₀, hsound₀, -⟩ := compile_sound hsound hcompile
  obtain ⟨hgraph, hsame⟩ := compile_keeps hcompile
  obtain ⟨v, w₁, w₂, ts, bs, hrender, hmount, hwires, hshows, hgrown⟩ :=
    renderLiteral_mount_live hpolicy htracking hsound hlive hcompile hplaced hsuits hstart hcount
      hparent hm
  have hheld₂ : w₂.held = w.held := hwires.held.trans (World.held_congr hgraph)
  have hknown₂ : w₂.known = w.known := by
    funext name
    rw [World.known, hwires.cell, hgraph, ← World.known]
  have hmounted : Mounted f values n w₀.graph.effects.size source.tree.children w₀.page parent
      (w.page.children parent) [] [] w₂ ts bs :=
    ⟨Tuned.of_wires hwires (hsame.trans hlive) (hgraph ▸ hfresh), hshows, hgrown⟩
  obtain ⟨w₃, us, bs', hwrites, hmounted', hheld, hcache⟩ :=
    hmounted.writeAll hpolicy (Nat.le_of_lt hm) hsuits (hknown₂.symm ▸ hheld₂.symm ▸ hanswers)
  have hplace := hmounted'.grown.place
  have hframe (x : Nat) (hx : x < w₀.page.size) (hne : x ≠ parent) :
      w₃.page.node? x = w₀.page.node? x := hmounted'.grown.frame x hx hne (by simp [idsAll])
  have hlater : w₃.cache = w₀.cache := hcache.trans hwires.cache
  refine ⟨v, w₁, w₂, w₃, roots us, hrender, hmount, hwrites, ?_, ?_, hmounted'.tuned.live,
    Nat.le_trans hext₀.size_le hmounted'.grown.size_le, fun x hx hne => ?_, fun hout => ⟨?_, ?_⟩,
    fun w' w₀' source' parent' k hsound' hlive' hheld' hcompile' hparent' hk => ?_⟩
  · obtain ⟨c, q, -, hafter⟩ := hplace
    rw [children_of_node? hafter, List.append_nil]
  · rw [hheld, hheld₂, hknown₂]
  · rw [hframe x (Nat.lt_of_lt_of_le hx hext₀.size_le) hne, hext₀.same x hx]
  · refine hsound₀.of_frame hlater hmounted'.grown.forest fun x hx => hframe x hx.lt_size ?_
    rintro rfl
    exact hout (hx.of_extends hsound.forest hext₀ hparent)
  · exact compile_again hcompile hlater
  · obtain ⟨hparse', -⟩ := compile_sound hsound' hcompile'
    have htree : source'.tree = source.tree := by
      rw [hparse] at hparse'
      exact (Except.ok.inj hparse').symm
    have hend : ∀ pt ∈ pointsOfAll f source.tree.children, Answers values w'.held n pt := by
      rw [hheld', hheld, hheld₂, hknown₂]
      exact hanswers writes (List.prefix_refl _)
    obtain ⟨v', w₁', w₂', ts', bs'', hrender', hmount', hwires', hshows', hgrown'⟩ :=
      renderLiteral_mount_live hpolicy htracking hsound' hlive' hcompile' (htree ▸ hplaced)
        (htree ▸ hsuits) (htree ▸ hend) hcount hparent' hk
    refine ⟨v', w₁', w₂', roots ts', hrender', hmount', ?_, ?_⟩
    · obtain ⟨c, q, -, hafter⟩ := hgrown'.place
      rw [children_of_node? hafter, List.append_nil]
    · rw [hmounted'.grown.stand.map_tree hmounted'.grown.forest,
        hgrown'.stand.map_tree hgrown'.forest]
      rw [htree] at hshows'
      have hcurrent := hwires'.all_current
      rw [World.held_congr (compile_keeps hcompile').1, hheld'] at hcurrent
      exact shows_alike hmounted'.shows hshows' hmounted'.tuned.all_current hcurrent

/-- An application whose effects are kept. -/
def tallyFactory : Factory where
  config := .usual
  policy := .usual
  registry := ⟨[]⟩
  literals := []
  tracking := true

/-- A paragraph whose title and content are read. -/
def tallyLiteral : Literal := ⟨"tally", ["<p title=", ">", "</p>"]⟩

def tallyTag : Tag := ⟨"p", [.dynamic "title" 0 none], false, none⟩

/-- The title is what the signal holds, and the content is that twice: once by itself and once in
    an element of its own. -/
def tallyValues : List Value :=
  [.reactive (.signal "n"), .reactive (.script none (.list [.peek "n", .element "b" [.peek "n"]]))]

def tallyWorld : World :=
  { World.initial [("n", .text "one")] with
    page := (Document.createElement Document.empty "div" .html).2 }

/-- The signal is written and cleared. -/
def tallyWrites : List (String × Script) := [("n", .text "two"), ("n", .empty)]

theorem writeAll_alike_render_tally :
    ∃ v w₁ w₂ w₃ us, renderLiteral tallyFactory (machine tallyFactory 13) tallyLiteral tallyValues
        tallyWorld = some (.ok v, w₁) ∧
      mount tallyFactory (machine tallyFactory 13) 0 v w₁ = some ((), w₂) ∧
      writeAll (machine tallyFactory 13) tallyWrites w₂ = some ((), w₃) ∧
      w₃.page.children 0 = us ∧
      ∃ v' w₁' w₂' us',
        renderLiteral tallyFactory (machine tallyFactory 13) tallyLiteral tallyValues w₃ =
          some (.ok v', w₁') ∧
        mount tallyFactory (machine tallyFactory 13) 0 v' w₁' = some ((), w₂') ∧
        w₂'.page.children 0 = us ++ us' ∧
        AlikeAll (us.map w₃.page.tree) (us'.map w₂'.page.tree) := by
  obtain ⟨skeletons, w₀, hcompile⟩ : ∃ skeletons w₀, compile tallyFactory tallyLiteral tallyWorld =
      some (.ok ⟨⟨[.element tallyTag [.hole 1]], 1⟩, skeletons⟩, w₀) :=
    exists_of_compiled (by decide +kernel)
  have hsound : Sound tallyFactory tallyLiteral tallyWorld :=
    ⟨isForest_empty.create _, fun source h => by cases h⟩
  have hfresh (name : String) : tallyWorld.graph.subscribers name = [] := by
    by_cases hname : "n" = name <;>
      simp [tallyWorld, World.initial, Signal.Graph.ofValues, Signal.Graph.subscribers,
        Signal.Graph.cell?, hname]
  have hpoints : pointsOfAll tallyFactory [.element tallyTag [.hole 1]] =
      [.element tallyTag, .hole 1] := by
    have hplain : tallyFactory.registry.isComponent tallyTag = false := by decide +kernel
    simp [pointsOfAll, pointsOf, hplain]
  have hplaced (i : Nat) (hi : Node.hole i ∈ [Node.element tallyTag [.hole 1]]) :
      tallyFactory.needsSkeleton [.element tallyTag [.hole 1]] = true := rfl
  have hsuits : ∀ pt ∈ pointsOfAll tallyFactory [.element tallyTag [.hole 1]],
      Suits tallyFactory pt := by
    have hwhole : (tallyFactory.policy.resolve "title").1.setter.isWhole = true := by
      decide +kernel
    have hnodup : (tallyTag.attrs.filterMap (targetOf tallyFactory)).Nodup := by decide +kernel
    rw [hpoints]
    refine List.forall_mem_cons.mpr ⟨⟨?_, hnodup⟩, List.forall_mem_singleton.mpr trivial⟩
    exact List.forall_mem_singleton.mpr ⟨rfl, fun _ name hname => Option.some.inj hname ▸ hwhole⟩
  have hanswers : ∀ done, done <+: tallyWrites →
      ∀ pt ∈ pointsOfAll tallyFactory [.element tallyTag [.hole 1]],
        Answers tallyValues (holdingAll tallyWorld.known done tallyWorld.held) 3 pt := by
    rw [hpoints]
    have hall (σ : String → Script) (hσ : σ "n" = .text "one" ∨ σ "n" = .text "two" ∨
        σ "n" = .empty) : ∀ pt ∈ [Point.element tallyTag, .hole 1], Answers tallyValues σ 3 pt := by
      rcases hσ with h | h | h <;>
        simp [Answers, AttrAnswers, attrValue, tallyTag, tallyValues, valueAt, showReader,
          showScript, showScripts, h, Shown.after, Yield.scalar?]
    intro done hdone
    refine hall _ ?_
    rcases List.prefix_cons_iff.mp hdone with rfl | ⟨rest, rfl, hrest⟩
    · exact Or.inl rfl
    · rcases List.prefix_cons_iff.mp hrest with rfl | ⟨rest', rfl, hrest'⟩
      · exact Or.inr (Or.inl rfl)
      · obtain rfl := List.prefix_nil.mp hrest'
        exact Or.inr (Or.inr rfl)
  have hparent : 0 < tallyWorld.page.size := by decide
  obtain ⟨v, w₁, w₂, w₃, us, hrender, hmount, hwrites, hchildren, -, hlive, hsize, -, hsound',
    hagain⟩ := writeAll_alike_render (m := 13) rfl rfl hsound rfl hfresh hcompile hplaced hsuits
      hanswers rfl hparent (by decide)
  have hout : ¬ InFragment tallyWorld.page 0 := by
    rintro ⟨r, hkind, -⟩
    rw [kind, Option.map_eq_some_iff] at hkind
    obtain ⟨node, hnode, hfragment⟩ := hkind
    obtain rfl : r = 0 := Nat.lt_one_iff.mp (lt_size_of_node? hnode)
    obtain rfl := Option.some.inj hnode
    cases hfragment
  obtain ⟨hsound₃, w₀', hcompile'⟩ := hsound' hout
  obtain ⟨v', w₁', w₂', us', hrender', hmount', hchildren', halike⟩ :=
    hagain w₃ w₀' _ 0 13 hsound₃ hlive rfl hcompile' (Nat.lt_of_lt_of_le hparent hsize)
      (by decide)
  have hempty : tallyWorld.page.children 0 = [] := by decide
  rw [hempty, List.nil_append] at hchildren
  refine ⟨v, w₁, w₂, w₃, us, hrender, hmount, hwrites, hchildren, v', w₁', w₂', us', hrender',
    hmount', ?_, halike⟩
  rw [hchildren', hchildren]

end

end Stencil.Render
