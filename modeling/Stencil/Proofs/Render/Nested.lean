/-
  Stencil/Proofs/Render/Nested.lean
  =================================
  **Content inside content.**

  What a reader yields may have readers in it, and their content stands among the nodes
  that the outer binding has put before its marker.  The two keep separate accounts: the
  outer binding remembers the nodes that stood there when it last ran, and the inner ones
  put in and take out nodes between them later.  A run of the outer binding takes away what
  it remembers and nothing else, so a node that an inner binding has put in since stays,
  before the new ones.

  `Accounted` keeps the books over any run of writes: which of the nodes in the stretch
  are stale, which belong to the last rendition, and which effects work on them.  The effect
  of the stretch, a binding of the last rendition and a binding of an earlier one each keep
  it, in a way of their own (`run_outer`, `run_inner`, `run_left`), and so does all that is
  due after a write.  Hence `writeAll_content_renders`: at any time the stretch holds some
  stale nodes and then what the reader renders afresh.  There are no stale nodes as long
  as the inner readers yield texts; otherwise a write that makes the outer effect run leaves
  all that it does not remember.  `nested_leaves_stale` is a session in which that happens.
-/
import Stencil.Proofs.Render.Incremental
import Stencil.Proofs.Render.Stretch

namespace Stencil.Render

open Document Document.Plant Markup

/-! ### Effects that make effects -/

/-- Effect `id` has run and is the binding `b` now.  It has read the signals named, and the bindings
    `bs` have been made in the course of its run. -/
structure Renewed (n : Nat) (w w' : World) (id : Nat) (b : Binding) (reads : List String)
    (bs : List Bound) : Prop where
  size : w'.graph.effects.size = w.graph.effects.size + bs.length
  self : w'.graph.effects[id]? = some ⟨b, false⟩
  old : ∀ j : Nat, j < w.graph.effects.size → j ≠ id → w'.graph.effects[j]? = w.graph.effects[j]?
  new : ∀ (i : Nat) c, bs[i]? = some c →
    w'.graph.effects[w.graph.effects.size + i]? = some ⟨c.1, false⟩
  held : w'.held = w.held
  cell : ∀ name, (w'.graph.cell? name).isSome = (w.graph.cell? name).isSome
  added : ∀ name (j : Nat), j ∈ w'.graph.subscribers name → j ∈ w.graph.subscribers name ∨ j = id ∨
    w.graph.effects.size ≤ j ∧ j < w'.graph.effects.size
  watches : Watches w'.graph id reads
  current : ∀ (i : Nat) c, bs[i]? = some c → ∃ reads, Current w.held n c reads ∧
    Watches w'.graph (w.graph.effects.size + i) reads

/-- The signals have been read, then the bindings have been made, and then the run has ended. -/
theorem Renewed.of_wires {n : Nat} {w w₀ w₁ w' : World} {id : Nat} {b : Binding}
    {reads : List String} {bs : List Bound} {g : SignalGraph} (hid : id < w.graph.effects.size)
    (hran : w.graph.Ran ((g.readAll reads).finish id b) id b reads)
    (hgraph : w₀.graph = g.readAll reads) (hwires : Wires n w₀ w₁ bs)
    (hend : w'.graph = w₁.graph.finish id b) : Renewed n w w' id b reads bs := by
  have hcell (x : String) : w₀.graph.cell? x = ((g.readAll reads).finish id b).cell? x := by
    rw [hgraph]
    rfl
  have hsubscribers (x : String) :
      w₀.graph.subscribers x = ((g.readAll reads).finish id b).subscribers x := by
    rw [hgraph]
    rfl
  have hsubscribers' (x : String) : w'.graph.subscribers x = w₁.graph.subscribers x := by
    rw [hend]
    rfl
  have hcell' (x : String) : w'.graph.cell? x = w₁.graph.cell? x := by
    rw [hend]
    rfl
  have hheld₀ : w₀.held = w.held := by
    funext x
    rw [World.held, World.held, Signal.Graph.peek?, hcell, ← Signal.Graph.peek?, hran.peek?]
  have hsize₀ : w₀.graph.effects.size = w.graph.effects.size := by
    rw [← hran.size, hgraph, Signal.Graph.finish, Array.size_modify]
  have hold (j : Nat) (hj : j ≠ id) : w₀.graph.effects[j]? = w.graph.effects[j]? := by
    have heffect := hran.effect j
    rw [Signal.Graph.effects_finish, if_neg hj, if_neg hj] at heffect
    rw [hgraph, heffect]
  have heffect' (j : Nat) (hj : j ≠ id) : w'.graph.effects[j]? = w₁.graph.effects[j]? := by
    rw [hend, Signal.Graph.effects_finish, if_neg hj]
  have hsize : w'.graph.effects.size = w.graph.effects.size + bs.length := by
    rw [hend, Signal.Graph.finish, Array.size_modify, hwires.size, hsize₀]
  have hisSome (x : String) : (w'.graph.cell? x).isSome = (w.graph.cell? x).isSome := by
    rw [hcell', hwires.cell, hcell, hran.isSome_cell?]
  refine ⟨hsize, ?_, fun j hj hne => ?_, fun i c hc => ?_, ?_, hisSome, fun x j hj => ?_,
    fun x hx hsome => ?_, fun i c hc => ?_⟩
  · obtain ⟨e, he⟩ : ∃ e, w₁.graph.effects[id]? = some e :=
      ⟨_, Array.getElem?_eq_getElem (by rw [hwires.size]; omega)⟩
    rw [hend, Signal.Graph.effects_finish, if_pos rfl, he]
    rfl
  · rw [heffect' j hne, hwires.old j (by omega), hold j hne]
  · rw [heffect' _ (by omega), ← hsize₀, hwires.new i c hc]
  · funext x
    have hheld₁ := congrFun (hwires.held.trans hheld₀) x
    rw [← hheld₁, World.held, World.held, Signal.Graph.peek?, hcell', ← Signal.Graph.peek?]
  · rw [hsubscribers'] at hj
    rcases hwires.added x j hj with hj | ⟨hlow, hhigh⟩
    · rw [hsubscribers] at hj
      rcases hran.mem_subscribers.mp hj with hj | ⟨rfl, -, -⟩
      · exact Or.inl hj
      · exact Or.inr (Or.inl rfl)
    · exact Or.inr (Or.inr ⟨by omega, by rw [hwires.size] at hhigh; omega⟩)
  · rw [hsubscribers']
    refine hwires.kept x id ?_
    rw [hsubscribers]
    exact hran.mem_subscribers.mpr (Or.inr ⟨rfl, hx, by rw [← hisSome]; exact hsome⟩)
  · obtain ⟨reads', hcurrent, hwatches⟩ := hwires.current i c hc
    rw [hheld₀] at hcurrent
    rw [hsize₀] at hwatches
    refine ⟨reads', hcurrent, fun x hx hsome => ?_⟩
    rw [hsubscribers']
    exact hwatches x hx (by rw [← hcell']; exact hsome)

/-- The run of content whose reader renders a literal: what the binding remembers is taken out, and
    the nodes of a container come whose bindings are new effects. -/
theorem effect_renews {f : Factory} {n k : Nat} {States : (String → Script) → Prop}
    {names : String → Prop} {r : Reader} {o : Rendition} {ns : List Node} {w : World} {id m p : Nat}
    {cur : List NodeId} (hpolicy : f.policy = .usual) (htracking : f.tracking = true)
    (hk : 3 * n + 8 ≤ k) (hlive : w.live = true)
    (heffect : w.graph.effects[id]? = some ⟨.content m r cur, false⟩)
    (hstate : States w.held) (hrenders : ReaderRenders w.held r o)
    (hpresents : Presents f n States o ns) (hname : names o.literal) (hstocks : Stocks f names w)
    (hparent : w.page.parent? m = some p) (hmcur : m ∉ cur)
    (hcur : ∀ x : Nat, x ∈ cur → x < w.page.size) :
    ∃ w' w₀ us bs, (machine f k).effect id w = some ((), w') ∧
      Renewed n w w' id (.content m r (roots us)) o.reads bs ∧ w'.live = true ∧
      Shows f.toSetup (liveReading f o.values) ns us bs ∧ w.page.Extends w₀.page ∧
      Planted (cur.foldl (fun d n => d.detach n) w₀.page) w'.page m us ∧
      Stocks f names w₀ ∧ w'.cache = w₀.cache := by
  obtain ⟨i, rfl⟩ : ∃ i, k = i + 3 + 1 := ⟨k - 4, by omega⟩
  obtain ⟨g, hstart, -, hpeek, hran⟩ := Signal.Graph.start_eq heffect
  have hheld : ({ w with graph := g } : World).held = w.held := by
    funext name
    rw [World.held, World.held, hpeek]
  obtain ⟨w₀, w₁, us, bs, hread, hext₀, hgraph, hlive₀, hstocks₀, hwires, hshows, hext₁, hloose,
    hnodup, hyoung⟩ := resolve_renders (n := n) (k := i) (w := { w with graph := g }) hpolicy
      htracking (by omega) (hheld.symm ▸ hstate) (hheld.symm ▸ hrenders) hpresents hname
      (hstocks.of_eq rfl rfl) hlive
  have hmlt : m < w.page.size := lt_size_of_parent? hparent
  have hparent₀ : w₀.page.parent? m ≠ none := by
    rw [parent?, hext₀.same m hmlt, ← parent?, hparent]
    exact Option.some_ne_none p
  have hbears := bears_ofList (bears_nodes hloose)
  have hupdate := updateContent_plants (machine f (i + 3)) hext₀.forest hext₁ hbears
    (by rwa [plants_map]) (by rwa [plants_map]) (Nat.lt_of_lt_of_le hmlt hext₀.size_le) hmcur
    fun x hx => Nat.lt_of_lt_of_le (hcur x hx) hext₀.size_le
  rcases hupdate with ⟨_, _, _, hs, _⟩ | ⟨-, d', new, hupdate, hplanted, hnew⟩
  · rw [plainText?_nodes] at hs
    cases hs
  · obtain rfl : new = us := (hnew hparent₀).trans (grow_map _ us)
    obtain ⟨w', hw'⟩ : ∃ w' : World, w' = { w₁ with
      page := d', graph := w₁.graph.finish id (.content m r (roots new)) } := ⟨_, rfl⟩
    have hid : id < w.graph.effects.size := (Array.getElem?_eq_some_iff.mp heffect).1
    refine ⟨w', w₀, new, bs, ?_, Renewed.of_wires hid (hran _ _) hgraph hwires (by rw [hw']), ?_,
      hshows, hext₀, by rwa [hw'], hstocks₀, by rw [hw', ← hwires.cache]⟩
    · have hopen : (modifyGet fun g : SignalGraph => g.start id : Run (Option Binding)) w =
          some (some (.content m r cur), { w with graph := g }) := by
        change some ((w.graph.start id).1, { w with graph := (w.graph.start id).2 }) = _
        rw [hstart]
      have hget : (getThe World : Run World) { w with graph := g } =
          some ({ w with graph := g }, { w with graph := g }) := rfl
      have hbinding : runBinding f (machine f (i + 3)) (.content m r cur) { w with graph := g } =
          some (.content m r (roots new), { w₁ with page := d' }) := by
        rw [runBinding, run_bind hget, if_neg (by simp [hlive]), run_bind hread, run_bind hupdate]
        rfl
      rw [machine_effect, runEffect, Signal.execute, run_bind hopen]
      simp only
      rw [run_bind hbinding, hw']
      rfl
    · rw [hw']
      exact hwires.live.trans hlive₀

/-! ### Effects that are up to date -/

/-- The literals that the reader of a stretch may render. -/
def Stretch.literals (S : Stretch) (f : Factory) (n : Nat) (States : (String → Script) → Prop)
    (name : String) : Prop :=
  ∃ σ o ns, States σ ∧ ReaderRenders σ S.reader o ∧ Presents f n States o ns ∧ o.literal = name

/-- The effect of a stretch and those of the bindings that the account lists: each that is not due
    is up to date, and no effect that is older subscribes to anything. -/
structure Driven (n : Nat) (S : Stretch) (due : List Nat) (w : World) (a : Account) : Prop where
  outer : w.graph.effects[S.effect]? = some ⟨.content S.marker S.reader a.memory, false⟩
  rendered : S.effect ∈ due ∨
    ReaderRenders w.held S.reader a.rendition ∧ Watches w.graph S.effect a.rendition.reads
  after : S.effect < a.first
  bound : a.first + a.bindings.length ≤ w.graph.effects.size
  inner : ∀ (i : Nat) b, a.bindings[i]? = some b →
    w.graph.effects[a.first + i]? = some ⟨b.1, false⟩
  current : ∀ (i : Nat) b, a.bindings[i]? = some b → a.first + i ∈ due ∨
    ∃ reads, Current w.held n b reads ∧ Watches w.graph (a.first + i) reads
  subscriber : ∀ name (j : Nat), j ∈ w.graph.subscribers name →
    S.effect ≤ j ∧ j < w.graph.effects.size

/-- A later effect than that of the stretch has run, and it is up to date. -/
theorem Driven.rerun {n : Nat} {S : Stretch} {due : List Nat} {w w' : World} {a a' : Account}
    {j : Nat} {b : Binding} {reads : List String} (h : Driven n S (j :: due) w a)
    (hrerun : Rerun w w' j b reads) (hj : S.effect < j) (hlt : j < w.graph.effects.size)
    (hmemory : a'.memory = a.memory) (hrendition : a'.rendition = a.rendition)
    (hfirst : a'.first = a.first)
    (hlength : a'.bindings.length = a.bindings.length)
    (hself : ∀ (i : Nat) c, a'.bindings[i]? = some c → a.first + i = j →
      c.1 = b ∧ Current w.held n c reads)
    (hother : ∀ (i : Nat) c, a'.bindings[i]? = some c → a.first + i ≠ j →
      a.bindings[i]? = some c) : Driven n S due w' a' := by
  obtain ⟨houter, hrendered, hafter, hbound, hinner, hcurrent, hsubscriber⟩ := h
  rw [← hrendition] at hrendered
  rw [← hmemory] at houter
  rw [← hfirst] at hafter hbound hinner hcurrent hself hother
  refine ⟨?_, ?_, hafter, ?_, fun i c hc => ?_, fun i c hc => ?_, fun name i hi => ?_⟩
  · rw [hrerun.graph.effect, if_neg (by omega)]
    exact houter
  · rcases hrendered with hdue | ⟨hrenders, hwatches⟩
    · rcases List.mem_cons.mp hdue with heq | hdue
      · omega
      · exact Or.inl hdue
    · exact Or.inr ⟨hrerun.held ▸ hrenders, watches_rerun hwatches hrerun⟩
  · rw [hlength, hrerun.graph.size]
    exact hbound
  · rw [hrerun.graph.effect]
    split
    · rw [(hself i c hc ‹_›).1]
    · exact hinner i c (hother i c hc ‹_›)
  · rw [hrerun.held]
    by_cases hij : a'.first + i = j
    · exact Or.inr ⟨reads, (hself i c hc hij).2, hij ▸ watches_of_rerun hrerun⟩
    · rcases hcurrent i c (hother i c hc hij) with hdue | ⟨reads', hcurrent', hwatches⟩
      · exact Or.inl ((List.mem_cons.mp hdue).resolve_left hij)
      · exact Or.inr ⟨reads', hcurrent', watches_rerun hwatches hrerun⟩
  · rw [hrerun.graph.size]
    rcases hrerun.graph.mem_subscribers.mp hi with hi | ⟨rfl, -, -⟩
    · exact hsubscriber name i hi
    · exact ⟨Nat.le_of_lt hj, hlt⟩

/-- What subscribes to a signal that is written is due. -/
theorem Driven.write {n : Nat} {S : Stretch} {w : World} {a : Account} (h : Driven n S [] w a)
    (name : String) (code : Script) : Driven n S (w.graph.subscribers name)
      { w with graph := (w.graph.write name code).2 } a where
  outer := h.outer
  rendered := by
    by_cases hdue : S.effect ∈ w.graph.subscribers name
    · exact Or.inl hdue
    · obtain ⟨hrenders, hwatches⟩ := h.rendered.resolve_left nofun
      exact Or.inr ⟨hrenders.congr (held_write_unread code hwatches hdue),
        watches_write code hwatches⟩
  after := h.after
  bound := h.bound
  inner := h.inner
  current i b hb := by
    by_cases hdue : a.first + i ∈ w.graph.subscribers name
    · exact Or.inl hdue
    · obtain ⟨reads, hcurrent, hwatches⟩ := (h.current i b hb).resolve_left nofun
      exact Or.inr ⟨reads, showReader_congr hcurrent (Nat.le_refl _)
        (held_write_unread code hwatches hdue), watches_write code hwatches⟩
  subscriber x j hj := h.subscriber x j (Signal.Graph.subscribers_write w.graph name code x ▸ hj)

/-! ### Runs over a stretch -/

/-- A binding that works on nodes that have been given up, and that shows something in every one of
    the states. -/
structure Discarded (n : Nat) (States : (String → Script) → Prop) (d : Page) (a : Account)
    (b : Binding) : Prop where
  responds : ∀ σ, States σ → Responds n σ b
  sits : b.Sits d
  nodes : ∀ x ∈ b.nodes, a.gone x
  marker : ∀ m r cur, b = .content m r cur → m ∉ a.stale

theorem Discarded.mono {n : Nat} {States : (String → Script) → Prop} {d d' : Page}
    {a a' : Account} {b : Binding} (h : Discarded n States d a b) (hstays : Stays d d')
    (hgone : ∀ x, a.gone x → a'.gone x) (hstale : ∀ x, a.gone x → x ∈ a'.stale → x ∈ a.stale) :
    Discarded n States d' a' b where
  responds := h.responds
  sits := h.sits.mono hstays.size_le hstays.kind
  nodes x hx := hgone x (h.nodes x hx)
  marker m r cur hb hm := by
    refine h.marker m r cur hb (hstale m (h.nodes m ?_) hm)
    rw [hb]
    exact List.mem_cons_self

/-- When the effect of a stretch has run, the bindings of the last rendition work on what has been
    given up. -/
theorem Discarded.of_bound {f : Factory} {n : Nat} {States : (String → Script) → Prop}
    {S : Stretch} {d d' : Page} {a : Account} (h : Laid S d a)
    (hshows : Shows f.toSetup (liveReading f a.rendition.values) a.nodes a.plants a.bindings)
    (hanswers : ∀ σ, States σ → ∀ pt ∈ pointsOfAll f a.nodes, Answers a.rendition.values σ n pt)
    (hstays : Stays d d') {x : Bound} (hx : x ∈ a.bindings) (us : List (Plant Value Action))
    (o : Rendition) (ns : List Node) (first : Nat) (bs : List Bound) :
    Discarded n States d' (a.renewed us o ns first bs) x.1 := by
  have hseated := shows_seated hshows h.stand h.nodup_ids x hx
  refine ⟨fun σ hσ => hseated.responds σ n (hanswers σ hσ),
    hseated.sits.mono hstays.size_le hstays.kind, fun y hy => Or.inr (hseated.nodes y hy),
    fun m r cur hm hstale => ?_⟩
  -- a marker that stands in the stretch is remembered
  have hmem : m ∈ idsAll a.plants := hseated.nodes m (by simp [hm, Binding.nodes])
  obtain ⟨hplaced, hout⟩ := List.mem_filter.mp hstale
  have hkept := h.fixed x hx m r cur hm (h.root_of_mem hmem hplaced)
  simp [hkept] at hout

/-- The world is as the account says: the effect of the stretch shows the last rendition, the
    bindings of which are effects of their own, and the effects that were made for earlier
    renditions work on what has been given up. -/
structure Accounted (f : Factory) (n : Nat) (States : (String → Script) → Prop) (S : Stretch)
    (due : List Nat) (w : World) (a : Account) : Prop where
  live : w.live = true
  state : States w.held
  stocks : Stocks f (S.literals f n States) w
  laid : Laid S w.page a
  shows : Shows f.toSetup (liveReading f a.rendition.values) a.nodes a.plants a.bindings
  suits : ∀ pt ∈ pointsOfAll f a.nodes, Suits f pt
  answers : ∀ σ, States σ → ∀ pt ∈ pointsOfAll f a.nodes, Answers a.rendition.values σ n pt
  presents : S.effect ∈ due ∨ Presents f n States a.rendition a.nodes
  driven : Driven n S due w a
  earlier : ∀ j : Nat, S.effect < j → j < w.graph.effects.size →
    a.first ≤ j ∧ j < a.first + a.bindings.length ∨
      ∃ b, w.graph.effects[j]? = some ⟨b, false⟩ ∧ Discarded n States w.page a b

/-- The readers on top of whatever the reader of the stretch renders yield texts. -/
def Stretch.TextOnly (S : Stretch) (f : Factory) (n : Nat) (States : (String → Script) → Prop) :
    Prop :=
  ∀ σ o ns, States σ → ReaderRenders σ S.reader o → Presents f n States o ns →
    TextOnTop n States o.values ns

/-- What the run of effect `id` makes of a world and of the account. -/
structure TurnsInto (f : Factory) (n : Nat) (States : (String → Script) → Prop) (S : Stretch)
    (id : Nat) (w : World) (a : Account) (w' : World) (a' : Account) : Prop where
  held : w'.held = w.held
  known : w'.known = w.known
  size_le : w.graph.effects.size ≤ w'.graph.effects.size
  other : id ≠ S.effect → a'.stale.Sublist a.stale
  own : id = S.effect → a'.stale = a.unremembered
  whole : S.TextOnly f n States → a.Whole n States → a'.Whole n States

namespace Accounted

variable {f : Factory} {n k : Nat} {States : (String → Script) → Prop} {S : Stretch}
  {due : List Nat} {w : World} {a : Account}

/-- A binding of the last rendition runs. -/
theorem run_inner (hpolicy : f.policy = .usual) (hk : 3 * n + 3 ≤ k) {i : Nat}
    (h : Accounted f n States S ((a.first + i) :: due) w a) (hi : i < a.bindings.length) :
    ∃ w' a', (machine f k).effect (a.first + i) w = some ((), w') ∧
      Accounted f n States S due w' a' ∧ TurnsInto f n States S (a.first + i) w a w' a' := by
  obtain ⟨pre, x, post, hbindings, rfl⟩ :
      ∃ pre x post, a.bindings = pre ++ x :: post ∧ i = pre.length :=
    ⟨a.bindings.take i, a.bindings[i], a.bindings.drop (i + 1), by simp, by simp; omega⟩
  have heffect := h.driven.inner pre.length x (by simp [hbindings])
  have hx : x ∈ a.bindings := by simp [hbindings]
  have hseated := shows_seated h.shows h.laid.stand h.laid.nodup_ids x hx
  have hanswers := h.answers _ h.state
  obtain ⟨c, q, hplace⟩ := h.laid.place
  -- the run as a change of the stretch, and as a change of the nodes of the binding
  obtain ⟨w', plants, b, y, reads, hrun, hrerun, hcurrent, hshows, hgrown⟩ :=
    effect_shows hpolicy hk (hbindings ▸ h.shows) h.suits hanswers h.live heffect h.laid.forest
      h.laid.stand ⟨c, q, hplace⟩
  obtain ⟨w'', b', shown, hrun', hrerun', hshown, hdoes⟩ := effect_does f hk h.live heffect
    (hseated.responds _ _ hanswers) h.laid.forest hseated.sits
  obtain rfl : w' = w'' := by simpa [hrun] using hrun'
  obtain rfl : b = b' := by
    have hself := hrerun.graph.effect (a.first + pre.length)
    rw [hrerun'.graph.effect, if_pos rfl, if_pos rfl] at hself
    simpa [eq_comm] using hself
  have hstays := Stays.of_does hdoes h.laid.forest
  have hlength : (pre ++ (b, y) :: post).length = a.bindings.length := by simp [hbindings]
  have hafter := h.driven.after
  have hlaid : Laid S w'.page { a with plants := plants, bindings := pre ++ (b, y) :: post } :=
    h.laid.inner hgrown hstays (h.laid.markers h.shows hbindings hdoes)
  refine ⟨w', { a with plants := plants, bindings := pre ++ (b, y) :: post }, hrun,
    ⟨hrerun.live.trans h.live, hrerun.held ▸ h.state, ?_, hlaid, hshows, h.suits, h.answers, ?_, ?_,
      fun j hj hlt => ?_⟩, hrerun.held, funext hrerun.graph.isSome_cell?,
    Nat.le_of_eq hrerun.graph.size.symm, fun _ => List.Sublist.refl _, fun hid => by omega,
    fun _ hwhole => ?_⟩
  · refine h.stocks.of_frame hrerun.cache hgrown.forest fun x hx => ?_
    refine hgrown.frame x hx.lt_size ?_ fun hmem => h.laid.not_inFragment (Or.inr hmem) hx
    rintro rfl
    exact h.laid.outside hx
  · refine h.presents.imp_left fun hdue => (List.mem_cons.mp hdue).resolve_left ?_
    omega
  · refine h.driven.rerun hrerun (by omega) (Array.getElem?_eq_some_iff.mp heffect).1 rfl rfl rfl
      hlength (fun i c hc hi => ?_) fun i c hc hi => ?_
    · obtain rfl : i = pre.length := by omega
      obtain rfl : (b, y) = c := by simpa using hc
      exact ⟨rfl, hcurrent⟩
    · rw [hbindings, getElem?_replace pre post x (b, y) (by omega)]
      exact hc
  · rw [hrerun.graph.size] at hlt
    rcases h.earlier j hj hlt with hin | ⟨b', hb', hdiscarded⟩
    · exact Or.inl (hlength ▸ hin)
    · by_cases hself : j = a.first + pre.length
      · exact Or.inl (by simp only [hlength]; omega)
      · refine Or.inr ⟨b', ?_, hdiscarded.mono hstays (fun _ hx => hx) fun _ _ hx => hx⟩
        rw [hrerun.graph.effect, if_neg hself]
        exact hb'
  · exact hwhole.inner h.laid h.shows hbindings hgrown hdoes h.state hshown hcurrent

/-- A binding of an earlier rendition runs: all that it can do to the stretch is to take out some
    of the stale nodes. -/
theorem run_left (hk : 3 * n + 3 ≤ k) {j : Nat} {b : Binding}
    (h : Accounted f n States S (j :: due) w a) (hj : S.effect < j)
    (hapart : ¬ (a.first ≤ j ∧ j < a.first + a.bindings.length))
    (heffect : w.graph.effects[j]? = some ⟨b, false⟩) (hb : Discarded n States w.page a b) :
    ∃ w' a', (machine f k).effect j w = some ((), w') ∧
      Accounted f n States S due w' a' ∧ TurnsInto f n States S j w a w' a' := by
  obtain ⟨w', b', shown, hrun, hrerun, -, hdoes⟩ :=
    effect_does f hk h.live heffect (hb.responds _ h.state) h.laid.forest hb.sits
  obtain ⟨stale, gone, hlaid, hsub, hmore, hnodes, hframe⟩ := h.laid.left hdoes hb.nodes hb.marker
  have hstays := Stays.of_does hdoes h.laid.forest
  have hsize : j < w.graph.effects.size := (Array.getElem?_eq_some_iff.mp heffect).1
  refine ⟨w', { a with stale := stale, gone := gone }, hrun,
    ⟨hrerun.live.trans h.live, hrerun.held ▸ h.state, ?_, hlaid, h.shows, h.suits, h.answers, ?_,
      ?_, fun i hi hlt => ?_⟩, hrerun.held, funext hrerun.graph.isSome_cell?,
    Nat.le_of_eq hrerun.graph.size.symm, fun _ => hsub, fun hid => by omega, fun _ hwhole => ?_⟩
  · refine h.stocks.of_frame hrerun.cache hlaid.forest fun x hx => ?_
    refine hframe x hx.lt_size (fun hgone => h.laid.not_inFragment (Or.inl hgone) hx) ?_
    rintro rfl
    exact h.laid.outside hx
  · refine h.presents.imp_left fun hdue => (List.mem_cons.mp hdue).resolve_left ?_
    omega
  · refine h.driven.rerun hrerun hj hsize rfl rfl rfl rfl (fun i c hc hi => ?_) fun i c hc _ => hc
    have hlt : i < a.bindings.length := (List.getElem?_eq_some_iff.mp hc).1
    exact absurd ⟨by omega, by omega⟩ hapart
  · rw [hrerun.graph.size] at hlt
    rcases h.earlier i hi hlt with hin | ⟨b₀, hb₀, hdiscarded⟩
    · exact Or.inl hin
    · right
      rw [hrerun.graph.effect]
      split
      · refine ⟨b', rfl, fun σ hσ => hdoes.responds (hb.responds σ hσ),
          hdoes.sits h.laid.forest hb.sits, hnodes, fun m r cur hm => ?_⟩
        obtain ⟨cur', hm'⟩ := hdoes.content hm
        exact fun hmem => hb.marker m r cur' hm' (hsub.subset hmem)
      · exact ⟨b₀, hb₀, hdiscarded.mono hstays hmore fun _ _ hx => hsub.subset hx⟩
  · exact ⟨List.sublist_nil.mp (hwhole.stale ▸ hsub), hwhole.memory, hwhole.texts, hwhole.shown⟩

/-- The effect of the stretch runs: of all that stood there, what it does not remember is stale
    now. -/
theorem run_outer (hpolicy : f.policy = .usual) (htracking : f.tracking = true)
    (hk : 3 * n + 8 ≤ k) (h : Accounted f n States S (S.effect :: due) w a)
    (hrenders : ∃ o ns, ReaderRenders w.held S.reader o ∧ Presents f n States o ns) :
    ∃ w' a', (machine f k).effect S.effect w = some ((), w') ∧
      Accounted f n States S due w' a' ∧ TurnsInto f n States S S.effect w a w' a' := by
  obtain ⟨o, ns, hrenders, hpresents⟩ := hrenders
  have heffect := h.driven.outer
  have hid : S.effect < w.graph.effects.size := (Array.getElem?_eq_some_iff.mp heffect).1
  obtain ⟨w', w₀, us, bs, hrun, hrenewed, hlive, hshows, hext, hplanted, hstocks, hcache⟩ :=
    effect_renews hpolicy htracking hk h.live heffect h.state hrenders hpresents
      ⟨_, o, ns, h.state, hrenders, hpresents, rfl⟩ h.stocks h.laid.parent_marker
      h.laid.marker_not_mem fun x hx => (h.laid.memory x hx).1
  have hlaid₀ := h.laid.of_extends hext
  obtain ⟨hlaid, hframe⟩ := hlaid₀.outer hplanted o ns w.graph.effects.size bs
  have hstays : Stays w.page w'.page := (Stays.of_extends hext).trans
    (Stays.of_does (y := .empty) (.replaces (r := S.reader) (Or.inr rfl) hplanted) hlaid₀.forest)
  refine ⟨w', a.renewed us o ns w.graph.effects.size bs, hrun, ⟨hlive, hrenewed.held ▸ h.state,
    hstocks.of_frame hcache hlaid.forest hframe, hlaid, hshows, hpresents.suits, hpresents.answers,
    Or.inr hpresents, ?_, fun j hj hlt => ?_⟩, hrenewed.held, funext hrenewed.cell, ?_,
    fun hid => absurd rfl hid, fun _ => rfl, fun htexts hwhole => ?_⟩
  · refine ⟨hrenewed.self, Or.inr ⟨hrenewed.held ▸ hrenders, hrenewed.watches⟩, hid,
      Nat.le_of_eq hrenewed.size.symm, hrenewed.new, fun i b hb => Or.inr ?_, fun name j hj => ?_⟩
    · obtain ⟨reads, hcurrent, hwatches⟩ := hrenewed.current i b hb
      exact ⟨reads, hrenewed.held ▸ hcurrent, hwatches⟩
    · have hsize := hrenewed.size
      rcases hrenewed.added name j hj with hj | rfl | hj
      · have hbounds := h.driven.subscriber name j hj
        omega
      · omega
      · omega
  · by_cases hnew : w.graph.effects.size ≤ j
    · exact Or.inl ⟨hnew, hrenewed.size ▸ hlt⟩
    · right
      have hold := hrenewed.old j (Nat.lt_of_not_le hnew) (Nat.ne_of_gt hj)
      rcases h.earlier j hj (Nat.lt_of_not_le hnew) with ⟨hlow, hhigh⟩ | ⟨b, hb, hdiscarded⟩
      · obtain ⟨i, rfl⟩ : ∃ i, j = a.first + i := ⟨j - a.first, by omega⟩
        obtain ⟨x, hx⟩ : ∃ x, a.bindings[i]? = some x :=
          ⟨_, List.getElem?_eq_getElem (by omega)⟩
        exact ⟨x.1, hold.trans (h.driven.inner i x hx),
          .of_bound h.laid h.shows h.answers hstays (List.mem_of_getElem? hx) _ _ _ _ _⟩
      · refine ⟨b, hold.trans hb, hdiscarded.mono hstays (fun _ => Or.inl) fun y hy hstale => ?_⟩
        rcases List.mem_append.mp (List.mem_filter.mp hstale).1 with hy' | hy'
        · exact hy'
        · exact absurd hy (h.laid.plants_not_gone y (root_mem_idsAll hy'))
  · have hsize := hrenewed.size
    omega
  · refine ⟨?_, rfl, htexts _ o ns h.state hrenders hpresents, fun b hb => ?_⟩
    · exact hwhole.unremembered_eq
    · obtain ⟨i, hi⟩ := List.getElem?_of_mem hb
      obtain ⟨reads, hcurrent, -⟩ := hrenewed.current i b hi
      exact ⟨w.held, reads, h.state, hcurrent⟩

/-- One effect that is due runs. -/
theorem effect (hpolicy : f.policy = .usual) (htracking : f.tracking = true) (hk : 3 * n + 8 ≤ k)
    (hrenders : ∀ σ, States σ → ∃ o ns, ReaderRenders σ S.reader o ∧ Presents f n States o ns)
    {id : Nat} (h : Accounted f n States S (id :: due) w a) (hlow : S.effect ≤ id)
    (hhigh : id < w.graph.effects.size) :
    ∃ w' a', (machine f k).effect id w = some ((), w') ∧ Accounted f n States S due w' a' ∧
      TurnsInto f n States S id w a w' a' := by
  rcases Nat.eq_or_lt_of_le hlow with rfl | hlt
  · exact h.run_outer hpolicy htracking hk (hrenders _ h.state)
  · by_cases hinner : a.first ≤ id ∧ id < a.first + a.bindings.length
    · obtain ⟨i, rfl⟩ : ∃ i, id = a.first + i := ⟨id - a.first, by omega⟩
      exact h.run_inner hpolicy (by omega) (by omega)
    · obtain ⟨b, heffect, hb⟩ := (h.earlier id hlt hhigh).resolve_left hinner
      exact h.run_left (by omega) hlt hinner heffect hb

/-- What a write makes of the stale nodes, if it makes the effects of `due` run.  Without the effect
    of the stretch, none is added; if that comes first, then what it does not remember is stale. -/
structure Settles (S : Stretch) (due : List Nat) (a a' : Account) : Prop where
  none : due = [] → a'.stale = a.stale
  other : S.effect ∉ due → a'.stale.Sublist a.stale
  first : ∀ rest, due = S.effect :: rest → S.effect ∉ rest → a'.stale.Sublist a.unremembered
  only : due = [S.effect] → a'.stale = a.unremembered

/-- All effects that are due run. -/
theorem executeAll (hpolicy : f.policy = .usual) (htracking : f.tracking = true)
    (hk : 3 * n + 8 ≤ k)
    (hrenders : ∀ σ, States σ → ∃ o ns, ReaderRenders σ S.reader o ∧ Presents f n States o ns)
    (h : Accounted f n States S due w a)
    (hdue : ∀ id ∈ due, S.effect ≤ id ∧ id < w.graph.effects.size) :
    ∃ w' a', Signal.executeAll (machine f k).effect due w = some ((), w') ∧
      Accounted f n States S [] w' a' ∧ w'.held = w.held ∧ w'.known = w.known ∧
      Settles S due a a' ∧ (S.TextOnly f n States → a.Whole n States → a'.Whole n States) := by
  induction due generalizing w a with
  | nil =>
    exact ⟨w, a, rfl, h, rfl, rfl, ⟨fun _ => rfl, fun _ => List.Sublist.refl _, nofun, nofun⟩,
      fun _ h => h⟩
  | cons id due ih =>
    obtain ⟨⟨hlow, hhigh⟩, hdue'⟩ := List.forall_mem_cons.mp hdue
    obtain ⟨w₁, a₁, hrun, h₁, hturns⟩ := h.effect hpolicy htracking hk hrenders hlow hhigh
    obtain ⟨w', a', hrun', h', hheld, hknown, hsettles, hwhole⟩ := ih h₁ fun i hi =>
      ⟨(hdue' i hi).1, Nat.lt_of_lt_of_le (hdue' i hi).2 hturns.size_le⟩
    refine ⟨w', a', ?_, h', hheld.trans hturns.held, hknown.trans hturns.known,
      ⟨nofun, fun hno => ?_, fun rest heq hno => ?_, fun heq => ?_⟩,
      fun htexts ha => hwhole htexts (hturns.whole htexts ha)⟩
    · rw [Signal.executeAll, run_bind hrun]
      exact hrun'
    · rw [List.mem_cons, not_or] at hno
      obtain ⟨hid, hno⟩ := hno
      exact (hsettles.other hno).trans (hturns.other (Ne.symm hid))
    · obtain ⟨hid, rfl⟩ := List.cons.inj heq
      exact hturns.own hid ▸ hsettles.other hno
    · obtain ⟨hid, hnone⟩ := List.cons.inj heq
      exact (hsettles.none hnone).trans (hturns.own hid)

/-- One signal is written. -/
theorem writeSignal (hpolicy : f.policy = .usual) (htracking : f.tracking = true)
    (hk : 3 * n + 8 ≤ k)
    (hrenders : ∀ σ, States σ → ∃ o ns, ReaderRenders σ S.reader o ∧ Presents f n States o ns)
    (h : Accounted f n States S [] w a) (name : String) (code : Script)
    (hnext : States (holding w.known w.held name code)) :
    ∃ w' a', Render.writeSignal (machine f k) name code w = some ((), w') ∧
      Accounted f n States S [] w' a' ∧ w'.held = holding w.known w.held name code ∧
      w'.known = w.known ∧ Settles S (w.graph.subscribers name) a a' ∧
      (S.TextOnly f n States → a.Whole n States → a'.Whole n States) := by
  obtain ⟨w₁, hw₁⟩ : ∃ w₁ : World, w₁ = { w with graph := (w.graph.write name code).2 } := ⟨_, rfl⟩
  have hheld₁ : w₁.held = holding w.known w.held name code := by rw [hw₁, held_write]
  have hknown₁ : w₁.known = w.known := by rw [hw₁, known_write]
  have heffects : w₁.graph.effects = w.graph.effects := by rw [hw₁]; rfl
  have hpage : w₁.page = w.page := by rw [hw₁]
  have h₁ : Accounted f n States S (w.graph.subscribers name) w₁ a := by
    refine ⟨hw₁ ▸ h.live, hheld₁ ▸ hnext, h.stocks.of_eq (by rw [hw₁]) hpage, hpage ▸ h.laid,
      h.shows, h.suits, h.answers, Or.inr (h.presents.resolve_left nofun),
      hw₁ ▸ h.driven.write name code, ?_⟩
    rw [heffects, hpage]
    exact h.earlier
  obtain ⟨w', a', hrun, h', hheld, hknown, hrest⟩ := h₁.executeAll hpolicy htracking hk hrenders
    fun id hid => by
      rw [heffects]
      exact h.driven.subscriber name id hid
  refine ⟨w', a', ?_, h', hheld.trans hheld₁, hknown.trans hknown₁, hrest⟩
  have hwrite : (modifyGet fun g : SignalGraph => g.write name code : Run (List Nat)) w =
      some (w.graph.subscribers name, w₁) := by
    rw [hw₁]
    rfl
  rw [Render.writeSignal, Signal.write, run_bind hwrite]
  exact hrun

/-- Any number of signals are written. -/
theorem writeAll (hpolicy : f.policy = .usual) (htracking : f.tracking = true)
    (hk : 3 * n + 8 ≤ k)
    (hrenders : ∀ σ, States σ → ∃ o ns, ReaderRenders σ S.reader o ∧ Presents f n States o ns)
    {writes : List (String × Script)} (h : Accounted f n States S [] w a)
    (hstates : ∀ done, done <+: writes → States (holdingAll w.known done w.held)) :
    ∃ w' a', Render.writeAll (machine f k) writes w = some ((), w') ∧
      Accounted f n States S [] w' a' ∧ w'.held = holdingAll w.known writes w.held ∧
      w'.known = w.known ∧ (S.TextOnly f n States → a.Whole n States → a'.Whole n States) := by
  induction writes generalizing w a with
  | nil => exact ⟨w, a, rfl, h, rfl, rfl, fun _ h => h⟩
  | cons write rest ih =>
    obtain ⟨name, code⟩ := write
    obtain ⟨w₁, a₁, hrun, h₁, hheld, hknown, -, hwhole⟩ :=
      h.writeSignal hpolicy htracking hk hrenders name code (hstates [(name, code)] (by simp))
    obtain ⟨w', a', hrun', h', hheld', hknown', hwhole'⟩ := ih h₁ fun done hdone => by
      rw [hheld, hknown]
      exact hstates ((name, code) :: done) (List.cons_prefix_cons.mpr ⟨rfl, hdone⟩)
    refine ⟨w', a', ?_, h', ?_, hknown'.trans hknown,
      fun htexts ha => hwhole' htexts (hwhole htexts ha)⟩
    · rw [Render.writeAll, run_bind hrun]
      exact hrun'
    · rw [hheld', hheld, hknown]
      rfl

end Accounted

/-! ### Content made of content -/

/-- What stands in a stretch: stale nodes first, and then nodes that look like what its reader
    renders afresh, in any world whose signals hold the same.  The effect of the stretch remembers
    `memory`. -/
structure Displays (f : Factory) (n : Nat) (States : (String → Script) → Prop) (S : Stretch)
    (w : World) (stale us memory : List NodeId) : Prop where
  live : w.live = true
  stocks : Stocks f (S.literals f n States) w
  children : w.page.children S.parent = S.front ++ stale ++ us ++ S.marker :: S.back
  remembers : w.graph.effects[S.effect]? = some ⟨.content S.marker S.reader memory, false⟩
  fresh : ∀ (w' : World) (k : Nat), w'.live = true → w'.held = w.held →
    Stocks f (S.literals f n States) w' → 3 * n + 7 ≤ k →
    ∃ (w'' : World) (us' : List NodeId), (machine f k).resolve (.reactive S.reader) w' =
        some (Value.ofList (us'.map Value.node), w'') ∧
      AlikeAll (us.map w.page.tree) (us'.map w''.page.tree)

section

variable {f : Factory} {n k : Nat} {States : (String → Script) → Prop} {S : Stretch} {w : World}
  {a : Account}

theorem Accounted.displays (hpolicy : f.policy = .usual) (htracking : f.tracking = true)
    (h : Accounted f n States S [] w a) :
    Displays f n States S w a.stale (roots a.plants) a.memory where
  live := h.live
  stocks := h.stocks
  children := h.laid.children
  remembers := h.driven.outer
  fresh w' k hlive hheld hstocks hk := by
    obtain ⟨i, rfl⟩ : ∃ i, k = i + 3 := ⟨k - 3, by omega⟩
    have hpresents := h.presents.resolve_left List.not_mem_nil
    have hrenders := (h.driven.rendered.resolve_left List.not_mem_nil).1
    obtain ⟨w₀, w'', us, bs, hrun, -, hgraph, -, -, hwires, hshows, hext, hloose, -⟩ :=
      resolve_renders (k := i) hpolicy htracking (by omega) (hheld ▸ h.state) (hheld ▸ hrenders)
        hpresents ⟨_, _, _, h.state, hrenders, hpresents, rfl⟩ hstocks hlive
    have hheld₀ : w₀.held = w'.held := by
      funext name
      rw [World.held, World.held, hgraph, Signal.Graph.peek?_readAll]
    refine ⟨w'', roots us, hrun, ?_⟩
    have htrees : (roots us).map w''.page.tree = Plant.trees us := by
      rw [trees_eq_map, List.map_map]
      refine List.map_congr_left fun t ht => ?_
      obtain ⟨-, q, hq⟩ := hloose t ht
      exact hq.tree_eq hext.forest
    rw [h.laid.stand.map_tree h.laid.forest, htrees]
    have hcurrent : ∀ b ∈ a.bindings, ∃ reads, Current w.held n b reads := fun b hb => by
      obtain ⟨i, hi⟩ := List.getElem?_of_mem hb
      obtain ⟨reads, hcurrent, -⟩ := (h.driven.current i b hi).resolve_left List.not_mem_nil
      exact ⟨reads, hcurrent⟩
    rw [← hheld, ← hheld₀] at hcurrent
    exact shows_alike h.shows hshows hcurrent hwires.all_current

/-- The effect of a stretch that is empty so far is made. -/
theorem Accounted.start (hlive : w.live = true) (hforest : w.page.IsForest)
    (hplace : w.page.children S.parent = S.front ++ S.marker :: S.back)
    (hout : ¬ InFragment w.page S.parent) (hnone : ∀ name, w.graph.subscribers name = [])
    (heffect : S.effect = w.graph.effects.size) (hstocks : Stocks f (S.literals f n States) w)
    (hstate : States w.held) :
    ∃ a, Accounted f n States S [S.effect]
        { w with graph := (w.graph.register (.content S.marker S.reader [])).2 } a ∧
      a.unremembered = [] ∧ a.Whole n States := by
  have hlt : S.parent < w.page.size := by
    have hmem : S.marker ∈ w.page.children S.parent := by simp [hplace]
    exact hforest.parent_lt_size (hforest.parent?_of_mem hmem)
  obtain ⟨⟨c, q, cs⟩, hnode⟩ := exists_node? hlt
  rw [children_of_node? hnode] at hplace
  subst hplace
  refine ⟨⟨[], [], [], fun _ => False, ⟨"", [], []⟩, [], w.graph.effects.size + 1, []⟩,
    ⟨hlive, hstate, hstocks.of_eq rfl rfl, ⟨hforest, ⟨c, q, by simpa using hnode⟩, trivial,
      .nothing _ _, hout, nofun, nofun⟩, .nil, nofun, fun _ _ => nofun, Or.inl List.mem_cons_self,
      ?_, fun j hj hlt => ?_⟩, rfl, ⟨rfl, rfl, nofun, nofun⟩⟩
  · refine ⟨?_, Or.inl List.mem_cons_self, Nat.lt_succ_of_le (Nat.le_of_eq heffect), ?_, nofun,
      nofun, fun name j hj => ?_⟩
    · rw [heffect]
      exact register_effect w _
    · simp [Signal.Graph.register]
    · have hold : j ∈ w.graph.subscribers name := hj
      rw [hnone] at hold
      cases hold
  · simp only [Signal.Graph.register, Array.size_push] at hlt
    omega

/-- **Content that has bindings of its own.**  The effect of a stretch is made, and then any signals
    are written, in any order, as long as what its reader renders can be shown.  At any time
    the stretch holds some stale nodes and then the nodes of the last rendition, which look
    like what the reader renders afresh.

    At first there are no stale nodes, and there never are any if the inner readers on top
    yield texts.  A write adds none if the effect does not subscribe to the signal.  If it does
    and is the first to run, then nodes that it does not remember may be stale afterwards;
    and if it is the only one, then all of them are.  So the content has been replaced as a
    whole if and only if the effect remembered every node that stood there. -/
theorem writeAll_content_renders (hpolicy : f.policy = .usual) (htracking : f.tracking = true)
    (hk : 3 * n + 8 ≤ k) (hlive : w.live = true) (hforest : w.page.IsForest)
    (hplace : w.page.children S.parent = S.front ++ S.marker :: S.back)
    (hout : ¬ InFragment w.page S.parent) (hnone : ∀ name, w.graph.subscribers name = [])
    (heffect : S.effect = w.graph.effects.size) (hstocks : Stocks f (S.literals f n States) w)
    (hstate : States w.held)
    (hrenders : ∀ σ, States σ → ∃ o ns, ReaderRenders σ S.reader o ∧ Presents f n States o ns) :
    ∃ w₀ us₀ memory₀,
      newBinding f (machine f k) (.content S.marker S.reader []) w = some ((), w₀) ∧
      w₀.held = w.held ∧ Displays f n States S w₀ [] us₀ memory₀ ∧
      ∀ writes, (∀ done, done <+: writes → States (holdingAll w.known done w.held)) →
        ∃ w₁ stale us memory, writeAll (machine f k) writes w₀ = some ((), w₁) ∧
          w₁.held = holdingAll w.known writes w.held ∧
          Displays f n States S w₁ stale us memory ∧
          (S.TextOnly f n States → stale = []) ∧
          ∀ name code, States (holding w.known w₁.held name code) →
            ∃ w₂ stale₂ us₂ memory₂, writeSignal (machine f k) name code w₁ = some ((), w₂) ∧
              w₂.held = holding w.known w₁.held name code ∧
              Displays f n States S w₂ stale₂ us₂ memory₂ ∧
              (S.effect ∉ w₁.graph.subscribers name → stale₂.Sublist stale) ∧
              (∀ rest, w₁.graph.subscribers name = S.effect :: rest → S.effect ∉ rest →
                stale₂.Sublist ((stale ++ us).filter fun x => !memory.contains x)) ∧
              (w₁.graph.subscribers name = [S.effect] →
                stale₂ = (stale ++ us).filter fun x => !memory.contains x) := by
  obtain ⟨a, hstart, hnothing, hwhole⟩ :=
    Accounted.start hlive hforest hplace hout hnone heffect hstocks hstate
  obtain ⟨w₀, a₀, hrun, h₀, hturns⟩ := hstart.run_outer hpolicy htracking hk (hrenders _ hstate)
  have hheld₀ : w₀.held = w.held := hturns.held
  have hknown₀ : w₀.known = w.known := hturns.known
  have hdisplays := h₀.displays hpolicy htracking
  rw [(hturns.own rfl).trans hnothing] at hdisplays
  refine ⟨w₀, roots a₀.plants, a₀.memory, ?_, hheld₀, hdisplays, fun writes hstates => ?_⟩
  · rw [newBinding_eq htracking, ← heffect]
    exact hrun
  · obtain ⟨w₁, a₁, hwrites, h₁, hheld₁, hknown₁, hwhole₁⟩ := h₀.writeAll hpolicy htracking hk
      hrenders (hknown₀.symm ▸ hheld₀.symm ▸ hstates)
    refine ⟨w₁, a₁.stale, roots a₁.plants, a₁.memory, hwrites, ?_, h₁.displays hpolicy htracking,
      fun htexts => (hwhole₁ htexts (hturns.whole htexts hwhole)).stale, fun name code hnext => ?_⟩
    · rw [hheld₁, hheld₀, hknown₀]
    · rw [← hknown₀, ← hknown₁] at hnext ⊢
      obtain ⟨w₂, a₂, hwrite, h₂, hheld₂, -, hsettles, -⟩ :=
        h₁.writeSignal hpolicy htracking hk hrenders name code hnext
      exact ⟨w₂, a₂.stale, roots a₂.plants, a₂.memory, hwrite, hheld₂,
        h₂.displays hpolicy htracking, hsettles.other, hsettles.first, hsettles.only⟩

end

/-! ### A reader in a reader -/

/-- An outer literal with one hole, and an inner one with an element and a hole. -/
def nestedFactory : Factory :=
  { plainFactory with literals := [⟨"outer", ["<div>", "</div>"]⟩, ⟨"inner", ["<b></b>", ""]⟩] }

/-- A script that depends on `s` and renders the inner literal whatever `s` holds, with a reader of
    `t`. -/
def nestedScript : Script :=
  .choose "s" (.html "inner" [.signal "t"]) (.html "inner" [.signal "t"])

/-- An element with a marker in it. -/
def nestedPage : Page :=
  ((createElement empty "div" .html).2.createComment "").2.append 0 1

/-- The stretch before the marker, with an effect that is still to come. -/
def nestedStretch : Stretch := ⟨0, [], 1, [], 0, .script none nestedScript⟩

def nestedWorld (v : Script) : World :=
  { World.initial [("s", .text "k"), ("t", v)] with page := nestedPage }

/-- What the script renders. -/
def nestedRendition : Rendition := ⟨"inner", [.reactive (.signal "t")], ["s"]⟩

def nestedNodes : List Node := [.element ⟨"b", [], false, none⟩ [], .hole 0]

theorem isForest_nestedPage : nestedPage.IsForest := by
  have h₀ : Reachable (empty : Page) := .empty
  have h₁ := h₀.step (.make (.element "div" .html)) (by decide)
  have h₂ := h₁.step (.make (.comment "")) (by decide)
  exact (h₂.step (.change 0 (.append 1)) (by decide)).isForest

theorem not_inFragment_nestedPage : ¬ InFragment nestedPage 0 := by
  rintro ⟨(r : Nat), hkind, -⟩
  have hlt : r < 2 := by
    rw [kind, Option.map_eq_some_iff] at hkind
    obtain ⟨node, hnode, -⟩ := hkind
    exact lt_size_of_node? hnode
  obtain rfl | rfl : r = 0 ∨ r = 1 := by omega
  · cases hkind
  · cases hkind

theorem subscribers_nestedWorld (v : Script) (name : String) :
    (nestedWorld v).graph.subscribers name = [] := by
  by_cases hs : "s" = name <;> by_cases ht : "t" = name <;>
    simp [nestedWorld, World.initial, Signal.Graph.ofValues, Signal.Graph.subscribers,
      Signal.Graph.cell?, hs, ht]

theorem stocks_nestedWorld (names : String → Prop) (v : Script) :
    Stocks nestedFactory names (nestedWorld v) :=
  ⟨fun _ _ => ⟨isForest_nestedPage, nofun⟩, fun _ _ => nofun⟩

theorem parse_nested : (nestedFactory.literal "inner").parse nestedFactory.config =
    .ok ⟨nestedNodes, 1⟩ := by
  decide +kernel

/-- The inner signal holds a text. -/
def alwaysText (σ : String → Script) : Prop := ∃ s, σ "t" = .text s

/-- The inner signal holds a text or nothing. -/
def perhapsText (σ : String → Script) : Prop := σ "t" = .empty ∨ alwaysText σ

/-- The inner literal can be shown as long as the inner signal holds a text or nothing. -/
theorem presents_nested {States : (String → Script) → Prop}
    (hstates : ∀ σ, States σ → perhapsText σ) :
    Presents nestedFactory 1 States nestedRendition nestedNodes := by
  have hpoints : pointsOfAll nestedFactory nestedNodes =
      [.element ⟨"b", [], false, none⟩, .hole 0] := by
    have hplain : nestedFactory.registry.isComponent ⟨"b", [], false, none⟩ = false := rfl
    simp [nestedNodes, pointsOfAll, pointsOf, hplain]
  refine ⟨⟨1, parse_nested⟩, ⟨⟨Or.inl rfl, trivial⟩, trivial, trivial⟩, rfl, by decide +kernel, ?_,
    fun σ hσ => ?_⟩
  · rw [hpoints]
    exact List.forall_mem_cons.mpr ⟨⟨nofun, List.nodup_nil⟩, List.forall_mem_singleton.mpr trivial⟩
  · rw [hpoints]
    refine List.forall_mem_cons.mpr ⟨nofun, List.forall_mem_singleton.mpr ?_⟩
    rcases hstates σ hσ with h | ⟨s, h⟩ <;>
      simp [Answers, nestedRendition, valueAt, showReader, showScript, h]

theorem readerRenders_nested (σ : String → Script) :
    ReaderRenders σ nestedStretch.reader nestedRendition := by
  refine .script (.choose (o := ⟨"inner", [.reactive (.signal "t")], []⟩) ?_)
  split <;> exact .html rfl

/-- The script renders nothing else. -/
theorem eq_of_readerRenders_nested {σ : String → Script} {o : Rendition}
    (h : ReaderRenders σ nestedStretch.reader o) : o = nestedRendition := by
  obtain ⟨h⟩ := h
  rw [nestedScript] at h
  cases h with
  | choose h =>
    rw [ite_self] at h
    cases h with
    | html hvalues =>
      obtain rfl := Option.some.inj hvalues
      rfl

/-- If the inner signal holds a text, then the inner reader yields one. -/
theorem textOnly_nested : nestedStretch.TextOnly nestedFactory 1 alwaysText := by
  intro σ o ns _ hrenders hpresents i r hi hvalue τ x ⟨s, hs⟩ hshow
  obtain rfl := eq_of_readerRenders_nested hrenders
  obtain ⟨slotCount, hparse⟩ := hpresents.parse
  obtain rfl : ns = nestedNodes := by
    have heq := Except.ok.inj (hparse.symm.trans parse_nested)
    exact (Template.mk.inj heq).1
  obtain rfl : i = 0 := by simpa [nestedNodes] using hi
  obtain rfl : .signal "t" = r := by simpa [nestedRendition, valueAt] using hvalue
  obtain rfl : (⟨.text s, ["t"]⟩ : Shown) = x := by
    simpa [showReader, showScript, hs, Shown.after] using hshow
  rfl

/-- What the effect remembers, if it shows content. -/
def World.remembered (w : World) (id : Nat) : List NodeId :=
  match w.graph.effects[id]? with
  | some ⟨.content _ _ current, _⟩ => current
  | _ => []

/-- The text that has come is left over when the outer effect runs.  If there is one all the time,
    then nothing is. -/
theorem writeAll_content_renders_stale :
    (∃ (w₀ w₁ w₂ w₃ : World) (us us' : List NodeId),
      newBinding nestedFactory (machine nestedFactory 11)
        (.content nestedStretch.marker nestedStretch.reader []) (nestedWorld .empty) =
          some ((), w₀) ∧
      writeAll (machine nestedFactory 11) [("t", .text "x")] w₀ = some ((), w₁) ∧
      w₁.page.children 0 = [6, 8, 7, 1] ∧
      writeSignal (machine nestedFactory 11) "s" (.text "k") w₁ = some ((), w₂) ∧
      w₂.page.children 0 = [8] ++ us ++ [1] ∧
      (machine nestedFactory 11).resolve (.reactive nestedStretch.reader) w₂ =
        some (Value.ofList (us'.map Value.node), w₃) ∧
      AlikeAll (us.map w₂.page.tree) (us'.map w₃.page.tree)) ∧
    ∃ (w₀ w₁ : World) (us : List NodeId),
      newBinding nestedFactory (machine nestedFactory 11)
        (.content nestedStretch.marker nestedStretch.reader []) (nestedWorld (.text "w")) =
          some ((), w₀) ∧
      writeAll (machine nestedFactory 11) [("t", .text "x"), ("s", .text "k")] w₀ = some ((), w₁) ∧
      w₁.page.children 0 = us ++ [1] := by
  constructor
  · obtain ⟨w₀, us₀, memory₀, hbind, hheld₀, hdisplays₀, hwrites⟩ :=
      @writeAll_content_renders nestedFactory 1 11 perhapsText nestedStretch (nestedWorld .empty)
        rfl rfl (by decide) rfl isForest_nestedPage (by decide) not_inFragment_nestedPage
        (subscribers_nestedWorld _) rfl (stocks_nestedWorld _ _) (Or.inl rfl)
        fun σ _ => ⟨_, _, readerRenders_nested σ, presents_nested fun _ h => h⟩
    obtain ⟨w₁, stale, us₁, memory, hwrite₁, hheld₁, hdisplays₁, -, hlast⟩ :=
      hwrites [("t", .text "x")] fun done hdone => by
        rcases List.prefix_cons_iff.mp hdone with rfl | ⟨rest, rfl, hrest⟩
        · exact Or.inl rfl
        · obtain rfl := List.prefix_nil.mp hrest
          exact Or.inr ⟨"x", rfl⟩
    obtain ⟨w₂, stale₂, us, memory₂, hwrite₂, -, hdisplays₂, -, -, honly⟩ :=
      hlast "s" (.text "k") (Or.inr ⟨"x", by rw [hheld₁]; rfl⟩)
    obtain ⟨w₃, us', hread, halike⟩ :=
      hdisplays₂.fresh w₂ 11 hdisplays₂.live rfl hdisplays₂.stocks (by decide)
    -- the text stands between the nodes that the outer effect remembers
    have hlater : ((newBinding nestedFactory (machine nestedFactory 11)
        (.content nestedStretch.marker nestedStretch.reader []) >>= fun _ =>
          writeAll (machine nestedFactory 11) [("t", .text "x")]) (nestedWorld .empty)).map
        (fun r => (r.2.page.children 0, r.2.graph.subscribers "s", r.2.remembered 0)) =
          some ([6, 8, 7, 1], [0], [6, 7]) := by decide +kernel
    rw [run_bind hbind, hwrite₁] at hlater
    obtain ⟨hchildren, hdue, hmemory⟩ : w₁.page.children 0 = [6, 8, 7, 1] ∧
        w₁.graph.subscribers "s" = [0] ∧ w₁.remembered 0 = [6, 7] := by simpa using hlater
    have hmemory' : memory = [6, 7] := by
      have hremembers : w₁.graph.effects[0]? = _ := hdisplays₁.remembers
      rw [World.remembered, hremembers] at hmemory
      exact hmemory
    have hregion : stale ++ us₁ = [6, 8, 7] := by
      have hplace : w₁.page.children 0 = [] ++ stale ++ us₁ ++ [1] := hdisplays₁.children
      rw [hchildren, List.nil_append] at hplace
      have hcut : [6, 8, 7] ++ [1] = stale ++ us₁ ++ [1] := hplace
      exact (List.append_cancel_right hcut).symm
    have hstale : stale₂ = [8] := by
      rw [honly hdue, hregion, hmemory']
      rfl
    refine ⟨w₀, w₁, w₂, w₃, us, us', hbind, hwrite₁, hchildren, hwrite₂, ?_, hread, halike⟩
    rw [← hstale]
    exact hdisplays₂.children
  · obtain ⟨w₀, us₀, memory₀, hbind, -, -, hwrites⟩ :=
      @writeAll_content_renders nestedFactory 1 11 alwaysText nestedStretch
        (nestedWorld (.text "w")) rfl rfl (by decide) rfl isForest_nestedPage (by decide)
        not_inFragment_nestedPage
        (subscribers_nestedWorld _) rfl (stocks_nestedWorld _ _) ⟨"w", rfl⟩
        fun σ _ => ⟨_, _, readerRenders_nested σ, presents_nested fun _ h => Or.inr h⟩
    obtain ⟨w₁, stale, us, memory, hwrite, -, hdisplays, hwhole, -⟩ :=
      hwrites [("t", .text "x"), ("s", .text "k")] fun done hdone => by
        rcases List.prefix_cons_iff.mp hdone with rfl | ⟨rest, rfl, hrest⟩
        · exact ⟨"w", rfl⟩
        · rcases List.prefix_cons_iff.mp hrest with rfl | ⟨rest', rfl, hrest'⟩
          · exact ⟨"x", rfl⟩
          · obtain rfl := List.prefix_nil.mp hrest'
            exact ⟨"x", rfl⟩
    obtain rfl := hwhole textOnly_nested
    exact ⟨w₀, w₁, us, hbind, hwrite, hdisplays.children⟩

/-- The outer literal is mounted, then the inner signal is written, then the outer one; at the end
    the outer literal is rendered afresh. -/
def nestedSteps : List Step :=
  [.display "outer" [.later nestedScript] "main", .set "t" (.text "x"), .set "s" (.text "k"),
    .display "outer" [.later nestedScript] "fresh"]

/-- The text that the inner binding put in after the outer one had run is still there when the outer
    one has run again. -/
theorem nested_leaves_stale :
    (showAfter nestedFactory 30 nestedSteps
      (.initial [("s", .text "k"), ("t", .empty)])).map (·.1) =
        some [("main", "<div>x<b></b>x<!----><!----></div>"),
          ("fresh", "<div><b></b>x<!----><!----></div>")] := by
  decide +kernel

end Stencil.Render
