/-
  Stencil/Proofs/Render/Rendition.lean
  ====================================
  **Readers that render a literal.**

  `ReaderRenders σ r o` says which literal the reader `r` renders while the signals hold `σ`,
  with which values, and which signals have been read to find that out.  As with a yield,
  the signals that were read are all that matters (`ReaderRenders.congr`), and reading the
  reader is reading those signals and then rendering the literal (`readReader_endsIn`).

  What comes of it is what comes of the container of the literal: the bindings made on the
  way show what the readers among the values yield (`resolve_renders`).
-/
import Stencil.Proofs.Render.Wired

namespace Stencil.Render

open Document Document.Plant Markup

/-! ### What a reader renders -/

/-- A literal with values for its holes, and the signals that were read to come to it. -/
structure Rendition where
  literal : String
  values : List Value
  reads : List String

/-- One more signal read, first of all. -/
def Rendition.after (name : String) (o : Rendition) : Rendition :=
  { o with reads := name :: o.reads }

/-- The value of a script that is handed on without anything being run: a scalar or a reader. -/
def plainValue? (env : Option Props) : Script → Option Value
  | .empty => some .empty
  | .bool b => some (.bool b)
  | .number n => some (.number n)
  | .text s => some (.text s)
  | .signal name => some (.reactive (.signal name))
  | .later body => some (.reactive (.script env body))
  | _ => none

def plainValues? (env : Option Props) : List Script → Option (List Value)
  | [] => some []
  | code :: rest => do
    let v ← plainValue? env code
    let vs ← plainValues? env rest
    some (v :: vs)

/-- `ScriptRenders σ env code o`: while the signals hold `σ`, the script comes to the rendition
    `o`. -/
inductive ScriptRenders (σ : String → Script) (env : Option Props) : Script → Rendition → Prop where
  | html {literal : String} {codes : List Script} {vs : List Value}
      (h : plainValues? env codes = some vs) :
      ScriptRenders σ env (.html literal codes) ⟨literal, vs, []⟩
  | choose {name : String} {yes no : Script} {o : Rendition}
      (h : ScriptRenders σ env (if (σ name).isTruthy then yes else no) o) :
      ScriptRenders σ env (.choose name yes no) (o.after name)
  | note {next : Script} {o : Rendition} (line : String) (h : ScriptRenders σ env next o) :
      ScriptRenders σ env (.note line next) o

/-- The same of a reader. -/
inductive ReaderRenders (σ : String → Script) : Reader → Rendition → Prop where
  | script {env : Option Props} {code : Script} {o : Rendition} (h : ScriptRenders σ env code o) :
      ReaderRenders σ (.script env code) o
  | signal {name : String} {o : Rendition} (h : ScriptRenders σ none (σ name) o) :
      ReaderRenders σ (.signal name) (o.after name)

section

variable {σ τ : String → Script}

theorem ScriptRenders.congr {env : Option Props} {code : Script} {o : Rendition}
    (h : ScriptRenders σ env code o) (hreads : ∀ name ∈ o.reads, τ name = σ name) :
    ScriptRenders τ env code o := by
  induction h with
  | html h => exact .html h
  | choose _ ih =>
    obtain ⟨hname, hrest⟩ := List.forall_mem_cons.mp hreads
    rw [← hname] at ih
    exact .choose (ih hrest)
  | note line _ ih => exact .note line (ih hreads)

/-- What a reader renders depends on the signals that were read for it only. -/
theorem ReaderRenders.congr {r : Reader} {o : Rendition} (h : ReaderRenders σ r o)
    (hreads : ∀ name ∈ o.reads, τ name = σ name) : ReaderRenders τ r o := by
  cases h with
  | script h => exact .script (h.congr hreads)
  | signal h =>
    obtain ⟨hname, hrest⟩ := List.forall_mem_cons.mp hreads
    rw [← hname] at h
    exact .signal (h.congr hrest)

end

/-! ### Reading is rendering -/

section

variable {f : Factory} {c : Calls} {σ : String → Script}

/-- `EndsIn f c act σ o`: in a world that holds `σ` the action reads the signals of `o`, and then it
    is the rendering of the literal. -/
def EndsIn (f : Factory) (c : Calls) (act : Run Value) (σ : String → Script) (o : Rendition) :
    Prop :=
  ∀ w : World, w.live = true → w.held = σ → ∃ w₀, Stirs w w₀ o.reads ∧ w₀.page = w.page ∧
    ∀ v w₁, renderLiteral f c (f.literal o.literal) o.values w₀ = some (.ok v, w₁) →
      act w = some (v, w₁)

theorem endsIn_after {name : String} {o : Rendition} {next : Script → Run Value}
    (h : EndsIn f c (next (σ name)) σ o) : EndsIn f c (do
      let code ← readSignal name
      next code) σ (o.after name) := by
  intro w hlive hheld
  obtain ⟨w', hw'⟩ : ∃ w' : World, w' = { w with graph := (w.graph.read name).2 } := ⟨_, rfl⟩
  have hread : readSignal name w = some (σ name, w') := by
    rw [hw', ← hheld]
    rfl
  have hstirs : Stirs w w' [name] := by
    rw [hw']
    exact ⟨rfl, rfl, rfl, rfl, rfl⟩
  have hpage : w'.page = w.page := by rw [hw']
  obtain ⟨w₀, hstirs', hpage', hnext⟩ :=
    h w' (hstirs.live.trans hlive) (hstirs.held.trans hheld)
  refine ⟨w₀, hstirs.trans hstirs', hpage'.trans hpage, fun v w₁ hrun => ?_⟩
  rw [run_bind hread]
  exact hnext v w₁ hrun

theorem endsIn_noted {o : Rendition} (line : String) {act : Run Value} (h : EndsIn f c act σ o) :
    EndsIn f c (do
      log (.noted line)
      act) σ o := by
  intro w hlive hheld
  obtain ⟨w', hw'⟩ : ∃ w' : World, w' = { w with log := w.log.push (.noted line) } := ⟨_, rfl⟩
  have hlog : log (.noted line) w = some ((), w') := by
    rw [hw']
    rfl
  have hstirs : Stirs w w' [] := by
    rw [hw']
    exact ⟨rfl, rfl, rfl, rfl, rfl⟩
  have hpage : w'.page = w.page := by rw [hw']
  obtain ⟨w₀, hstirs', hpage', hnext⟩ :=
    h w' (hstirs.live.trans hlive) (hstirs.held.trans hheld)
  refine ⟨w₀, hstirs.trans hstirs', hpage'.trans hpage, fun v w₁ hrun => ?_⟩
  rw [run_bind hlog]
  exact hnext v w₁ hrun

theorem buildScript_plain {env : Option Props} {code : Script} {v : Value}
    (h : plainValue? env code = some v) (w : World) :
    buildScript f c env code w = some (v, w) := by
  cases code <;> first
    | (obtain rfl := Option.some.inj h; rw [buildScript]; rfl)
    | cases h

theorem buildScripts_plain {env : Option Props} {codes : List Script} {vs : List Value}
    (h : plainValues? env codes = some vs) (w : World) :
    buildScripts f c env codes w = some (vs, w) := by
  induction codes generalizing vs with
  | nil =>
    obtain rfl := Option.some.inj h
    rw [buildScripts]
    rfl
  | cons code rest ih =>
    obtain ⟨v, hv, h⟩ := Option.bind_eq_some_iff.mp h
    obtain ⟨vs', hvs', h⟩ := Option.bind_eq_some_iff.mp h
    obtain rfl := Option.some.inj h
    rw [buildScripts, run_bind (buildScript_plain hv w), run_bind (ih hvs')]
    rfl

/-- A script whose last act is to render a literal. -/
theorem buildScript_endsIn {env : Option Props} {code : Script} {o : Rendition}
    (h : ScriptRenders σ env code o) : EndsIn f c (buildScript f c env code) σ o := by
  induction h with
  | @html literal codes vs hvs =>
    intro w hlive _
    refine ⟨w, Stirs.refl w, rfl, fun v w₁ hrun => ?_⟩
    have hget : (getThe World : Run World) w = some (w, w) := rfl
    have hnamed : renderNamed f c literal vs w = some (.ok v, w₁) := by
      rw [renderNamed, run_bind hget, if_pos hlive]
      exact hrun
    rw [buildScript, run_bind (buildScripts_plain hvs w), run_bind hnamed]
    rfl
  | @choose name yes no o _ ih =>
    rw [buildScript]
    refine endsIn_after ?_
    by_cases htrue : (σ name).isTruthy = true
    · rwa [if_pos htrue] at ih ⊢
    · rwa [if_neg htrue] at ih ⊢
  | note line _ ih =>
    rw [buildScript]
    exact endsIn_noted line ih

/-- Reading a reader that renders a literal. -/
theorem readReader_endsIn {r : Reader} {o : Rendition} (h : ReaderRenders σ r o) (k : Nat) :
    EndsIn f (machine f k) ((machine f (k + 2)).read r) σ o := by
  cases h with
  | script h =>
    change EndsIn f (machine f k) (buildScript f (machine f k) _ _) σ o
    exact buildScript_endsIn h
  | @signal name o h =>
    change EndsIn f (machine f k) (do
      let code ← readSignal name
      buildScript f (machine f k) none code) σ (o.after name)
    exact endsIn_after (buildScript_endsIn h)

end

/-! ### Literals that are compiled once -/

/-- All these literals are sound, and the outcomes that are kept for them are no errors. -/
structure Stocks (f : Factory) (names : String → Prop) (w : World) : Prop where
  sound : ∀ name, names name → Sound f (f.literal name) w
  kept : ∀ name, names name → ∀ outcome, w.cache.lookup (f.literal name).key = some outcome →
    ∃ source, outcome = .ok source

section

variable {f : Factory} {names : String → Prop} {w w' : World}

theorem key_literal (f : Factory) (name : String) :
    (f.literal name).key = if (f.literal name).segments.isEmpty then none else some name := by
  have hname : (f.literal name).name = name := by
    rw [Factory.literal]
    rcases hfind : f.literals.find? (·.name == name) with _ | l
    · rw [hfind, Option.getD_none]
    · rw [hfind, Option.getD_some]
      simpa using List.find?_some hfind
  rw [Literal.key, hname]

/-- What is kept for one literal of an application is not kept for another. -/
theorem parse_of_key {name other : String} (h : (f.literal name).key = (f.literal other).key) :
    (f.literal name).parse f.config = (f.literal other).parse f.config := by
  rw [key_literal, key_literal] at h
  by_cases hname : (f.literal name).segments.isEmpty = true
  · rw [if_pos hname] at h
    by_cases hother : (f.literal other).segments.isEmpty = true
    · rw [Literal.parse, Literal.parse, List.isEmpty_iff.mp hname, List.isEmpty_iff.mp hother]
    · rw [if_neg hother] at h
      cases h
  · rw [if_neg hname] at h
    by_cases hother : (f.literal other).segments.isEmpty = true
    · rw [if_pos hother] at h
      cases h
    · rw [if_neg hother] at h
      rw [Option.some.inj h]

theorem Stocks.of_frame (h : Stocks f names w) (hcache : w'.cache = w.cache)
    (hforest : w'.page.IsForest)
    (hsame : ∀ x : Nat, InFragment w.page x → w'.page.node? x = w.page.node? x) :
    Stocks f names w' where
  sound name hname := (h.sound name hname).of_frame hcache hforest hsame
  kept name hname outcome := by
    rw [hcache]
    exact h.kept name hname outcome

theorem Stocks.of_eq (h : Stocks f names w) (hcache : w'.cache = w.cache)
    (hpage : w'.page = w.page) : Stocks f names w' where
  sound name hname := by
    have hforest := (h.sound name hname).forest
    exact (h.sound name hname).of_frame hcache (hpage ▸ hforest) fun x _ => by rw [hpage]
  kept name hname outcome := by
    rw [hcache]
    exact h.kept name hname outcome

/-- One of the literals is compiled. -/
theorem Stocks.compile (h : Stocks f names w) {name : String} (hname : names name)
    (hcompiles : ∀ d, ∃ source, (f.compile (f.literal name) d).1 = .ok source) :
    ∃ source w', compile f (f.literal name) w = some (.ok source, w') ∧ Stocks f names w' := by
  rcases hlookup : w.cache.lookup (f.literal name).key with _ | outcome
  · obtain ⟨source, hsource⟩ := hcompiles w.page
    have hrun := run_compile_new (f := f) hlookup
    rw [hsource] at hrun
    obtain ⟨hparse, hstocked, hext, hsound, -⟩ := compile_sound (h.sound name hname) hrun
    refine ⟨source, _, hrun, fun other hother => ?_, fun other hother outcome houtcome => ?_⟩
    · have hbefore : Sound f (f.literal other)
          { w with page := (f.compile (f.literal name) w.page).2 } :=
        (h.sound other hother).of_extends rfl hext
      refine ⟨hext.forest, fun source' hsource' => ?_⟩
      by_cases hkey : (f.literal name).key = (f.literal other).key
      · rw [← hkey] at hsource'
        obtain ⟨-, hstocked'⟩ := hsound.stocked source' hsource'
        exact ⟨parse_of_key hkey ▸ (hsound.stocked source' hsource').1, hstocked'⟩
      · refine hbefore.stocked source' ?_
        simpa [Cache.lookup, hkey] using hsource'
    · by_cases hkey : (f.literal name).key = (f.literal other).key
      · refine ⟨source, ?_⟩
        simpa [Cache.lookup, hkey, eq_comm] using houtcome
      · refine h.kept other hother outcome ?_
        simpa [Cache.lookup, hkey] using houtcome
  · obtain ⟨source, rfl⟩ := h.kept name hname outcome hlookup
    refine ⟨source, _, run_compile_hit hlookup, fun other hother => ?_, h.kept⟩
    exact ⟨(h.sound other hother).forest, (h.sound other hother).stocked⟩

end

/-! ### What rendering brings -/

/-- The literal of a rendition has the nodes `ns`, none of which is refused, with an element on top
    that is no component, and they can be shown with the values in every one of the states. -/
structure Presents (f : Factory) (n : Nat) (States : (String → Script) → Prop) (o : Rendition)
    (ns : List Node) : Prop where
  parse : ∃ slotCount, (f.literal o.literal).parse f.config = .ok ⟨ns, slotCount⟩
  accepts : Node.EveryTagAll f.toSetup.Accepts ns
  plain : f.needsSkeleton ns = true
  count : o.values.length = (f.literal o.literal).holeCount
  suits : ∀ pt ∈ pointsOfAll f ns, Suits f pt
  answers : ∀ σ, States σ → ∀ pt ∈ pointsOfAll f ns, Answers o.values σ n pt

theorem Presents.compiles {f : Factory} {n : Nat} {States : (String → Script) → Prop}
    {o : Rendition} {ns : List Node} (h : Presents f n States o ns) (d : Page) :
    ∃ source, (f.compile (f.literal o.literal) d).1 = .ok source := by
  obtain ⟨slotCount, hparse⟩ := h.parse
  obtain ⟨skeletons, d', hcompile⟩ :=
    Setup.compile_of_accepts (s := f.toSetup) hparse h.accepts d
  exact ⟨_, congrArg Prod.fst hcompile⟩

/-- Reading a reader that renders a literal: the signals are read, the literal is compiled, and
    then its container is bound. -/
theorem resolve_renders {f : Factory} {n k : Nat} {States : (String → Script) → Prop}
    {names : String → Prop} {r : Reader} {o : Rendition} {ns : List Node} {w : World}
    (hpolicy : f.policy = .usual) (htracking : f.tracking = true) (hk : 3 * n + 4 ≤ k)
    (hstate : States w.held) (hrenders : ReaderRenders w.held r o)
    (hpresents : Presents f n States o ns) (hname : names o.literal) (hstocks : Stocks f names w)
    (hlive : w.live = true) :
    ∃ w₀ w₁ us bs, (machine f (k + 3)).resolve (.reactive r) w =
        some (Value.ofList ((roots us).map Value.node), w₁) ∧
      w.page.Extends w₀.page ∧ w₀.graph = w.graph.readAll o.reads ∧ w₀.live = true ∧
      Stocks f names w₀ ∧ Wires n w₀ w₁ bs ∧
      Shows f.toSetup (liveReading f o.values) ns us bs ∧ w₀.page.Extends w₁.page ∧
      (∀ t ∈ us, Loose w₁.page t) ∧ (idsAll us).Nodup ∧
      ∀ x : Nat, x ∈ idsAll us → w₀.page.size ≤ x := by
  obtain ⟨v₀, hstirs, hpage, hends⟩ := readReader_endsIn (f := f) hrenders k w hlive rfl
  have hlive₀ : v₀.live = true := hstirs.live.trans hlive
  have hstocks₀ : Stocks f names v₀ := hstocks.of_eq hstirs.cache hpage
  obtain ⟨source, w₀, hcompile, hstocks'⟩ := hstocks₀.compile hname hpresents.compiles
  obtain ⟨hparse, hstocked, hext, -, -⟩ := compile_sound (hstocks₀.sound _ hname) hcompile
  obtain ⟨hgraph, hsame⟩ := compile_keeps hcompile
  have htree : source.tree.children = ns := by
    obtain ⟨slotCount, hparse'⟩ := hpresents.parse
    rw [hparse] at hparse'
    rw [Except.ok.inj hparse']
  obtain ⟨j, rfl⟩ : ∃ j, k = j + 1 := ⟨k - 1, by omega⟩
  have hholds : Holds w.held w₀ :=
    ⟨hsame.trans hlive₀, (World.held_congr hgraph).trans hstirs.held⟩
  have hfurnished := hstocked.furnished
  rw [htree] at hfurnished
  obtain ⟨w₁, us, bs, hrun, hwires, hshows, hrest⟩ :=
    renderContainer_live (k := j) hpolicy htracking (by omega) (fun _ _ => hpresents.plain)
      hpresents.suits (hpresents.answers _ hstate) hfurnished hext.forest hholds
  have hrender : renderLiteral f (machine f (j + 1)) (f.literal o.literal) o.values v₀ =
      some (.ok (Value.ofList ((roots us).map Value.node)), w₁) := by
    rw [renderLiteral, if_neg (by simp [hpresents.count]), run_bind hcompile]
    simp only [htree]
    exact run_bind hrun fun v => pure (Except.ok v)
  have hplain : (Value.ofList ((roots us).map Value.node)).isReactive = false := by
    rcases us with _ | ⟨_, _ | ⟨_, _⟩⟩
    · rfl
    · rfl
    · rfl
  refine ⟨w₀, w₁, us, bs, ?_, hpage ▸ hext, hgraph.trans hstirs.graph, hsame.trans hlive₀, hstocks',
    hwires, hshows, hrest⟩
  have hread := hends _ _ hrender
  change resolveValue (machine f (j + 3)) (.reactive r) w = _
  rw [resolveValue, run_bind hread]
  exact resolve_plain f (by omega) hplain w₁

end Stencil.Render
