/-
  Stencil/Proofs/Render/Yield.lean
  ================================
  **What readers yield, as a function of the signals.**

  `showReader σ n r` says what the reader `r` yields while every signal holds what `σ`
  says: nothing, a truth value, a number, a text, an element made for the occasion, or a
  list of these.  It also says which signals are read on the way.  Other readers, such as
  one that gives out a node of its own or writes a signal, have no yield.

  Two things are true of a yield.  It depends on the signals that were read and on no
  others (`showReader_congr`).  And reading the reader in a world that holds `σ` brings
  it: what an element consists of is new, all else that happens is in the log and in the
  list of readings (`readReader_comes`).
-/
import Stencil.Render.Machine
import Stencil.Proofs.Signal.Watch
import Stencil.Proofs.Render.Insert

namespace Stencil

open Document Document.Plant

/-! ### Yields -/

/-- What a reader yields. -/
inductive Yield where
  | empty
  | bool (b : Bool)
  | number (n : Number)
  | text (s : String)
  | element (t : Tree)
  | list (items : List Yield)

namespace Yield

mutual

/-- What a yield looks like. -/
def trees : Yield → List Tree
  | number n => [.text n.text]
  | text s => [.text s]
  | element t => [t]
  | list items => treesAll items
  | _ => []

def treesAll : List Yield → List Tree
  | [] => []
  | y :: ys => y.trees ++ treesAll ys

end

/-- The value that a scalar is. -/
def scalar? : Yield → Option Value
  | empty => some .empty
  | bool b => some (.bool b)
  | number n => some (.number n)
  | text s => some (.text s)
  | _ => none

/-- The text of a scalar, or the empty text. -/
def toText (y : Yield) : String := (y.scalar?.map Value.toText).getD ""

/-- A yield as one child of an element. -/
def child : Yield → Tree
  | element t => t
  | y => .text y.toText

/-- The yield that a value is by itself. -/
def ofScalar? : Value → Option Yield
  | .empty => some .empty
  | .bool b => some (.bool b)
  | .number n => some (.number n)
  | .text s => some (.text s)
  | _ => none

/-- `Fits y v`: the value `v` can be what `y` looks like. -/
def Fits : Yield → Value → Prop
  | element _, v => ∃ id, v = .node id
  | list _, v => ∃ items, v = .list items
  | y, v => y.scalar? = some v

theorem treesAll_append (ys ys' : List Yield) :
    treesAll (ys ++ ys') = treesAll ys ++ treesAll ys' := by
  induction ys with
  | nil => rfl
  | cons y ys ih => rw [List.cons_append, treesAll, treesAll, ih, List.append_assoc]

theorem Fits.isReactive {y : Yield} {v : Value} (h : y.Fits v) : v.isReactive = false := by
  cases y with
  | element t =>
    obtain ⟨id, rfl⟩ := h
    rfl
  | list items =>
    obtain ⟨vs, rfl⟩ := h
    rfl
  | _ =>
    obtain rfl := Option.some.inj h
    rfl

theorem Fits.toText {y : Yield} {v : Value} (h : y.Fits v) : v.toText = y.toText := by
  cases y with
  | element t =>
    obtain ⟨id, rfl⟩ := h
    rfl
  | list items =>
    obtain ⟨vs, rfl⟩ := h
    rfl
  | _ =>
    obtain rfl := Option.some.inj h
    rfl

end Yield

namespace Render

open Seed

/-- A yield, and the signals that were read for it. -/
structure Shown where
  yield : Yield
  reads : List String

/-- One more signal read, first of all. -/
def Shown.after (name : String) (x : Shown) : Shown := { x with reads := name :: x.reads }

section

variable (σ : String → Script) (low : Reader → Option Shown)

/-- What a prop comes to. -/
def showProp (ps : Props) (name : String) : Option Shown :=
  match ps.get? name with
  | none => some ⟨.empty, []⟩
  | some (.immediate v) => (Yield.ofScalar? v).map (⟨·, []⟩)
  | some (.reactive r) => low r

mutual

/-- What a script comes to, if `low` says what readers come to. -/
def showScript (env : Option Props) : Script → Option Shown
  | .empty => some ⟨.empty, []⟩
  | .bool b => some ⟨.bool b, []⟩
  | .number n => some ⟨.number n, []⟩
  | .text s => some ⟨.text s, []⟩
  | .list items => (showScripts env items).map fun x => ⟨.list x.1, x.2⟩
  | .peek name => (low (.script none (σ name))).map (Shown.after name)
  | .choose name yes no =>
    (if (σ name).isTruthy then showScript env yes else showScript env no).map (Shown.after name)
  | .note _ next => showScript env next
  | .join pieces =>
    (showScripts env pieces).map fun x => ⟨.text (String.join (x.1.map Yield.toText)), x.2⟩
  | .element name children =>
    (showScripts env children).map fun x =>
      ⟨.element (.element name .html [] (x.1.map Yield.child)), x.2⟩
  | .prop name =>
    match env with
    | some ps => showProp low ps name
    | none => some ⟨.empty, []⟩
  | .hasProp name =>
    match env with
    | some ps => some ⟨.bool (ps.contains name), []⟩
    | none => some ⟨.empty, []⟩
  | _ => none

/-- What several scripts come to, and all signals read for them. -/
def showScripts (env : Option Props) : List Script → Option (List Yield × List String)
  | [] => some ([], [])
  | code :: rest => do
    let x ← showScript env code
    let (ys, reads) ← showScripts env rest
    some (x.yield :: ys, x.reads ++ reads)

end

/-- The text that the pieces of an attribute come to. -/
def showPieces : List Value → Option (String × List String)
  | [] => some ("", [])
  | .reactive r :: vs => do
    let x ← low r
    let (s, reads) ← showPieces vs
    some (x.yield.toText ++ s, x.reads ++ reads)
  | v :: vs => do
    let (s, reads) ← showPieces vs
    some (v.toText ++ s, reads)

end

/-- What a reader comes to while the signals hold `σ`, following readers `n` levels deep. -/
def showReader (σ : String → Script) : Nat → Reader → Option Shown
  | 0, _ => none
  | n + 1, .script env code => showScript σ (showReader σ n) env code
  | n + 1, .signal name =>
    (showScript σ (showReader σ n) none (σ name)).map (Shown.after name)
  | n + 1, .join pieces => (showPieces (showReader σ n) pieces).map fun x => ⟨.text x.1, x.2⟩
  | _ + 1, .children _ _ _ _ => none

/-! ### What a yield depends on -/

section

variable {σ τ : String → Script} {low high : Reader → Option Shown}

theorem of_map_after {o : Option Shown} {name : String} {x : Shown}
    (h : o.map (Shown.after name) = some x) : ∃ z, o = some z ∧ x = z.after name := by
  obtain ⟨z, hz, rfl⟩ := Option.map_eq_some_iff.mp h
  exact ⟨z, hz, rfl⟩

/-- `Follows σ τ low high`: what `low` says of a reader, `high` says too, if `τ` is as `σ` where
    it was read. -/
def Follows (σ τ : String → Script) (low high : Reader → Option Shown) : Prop :=
  ∀ r x, low r = some x → (∀ name ∈ x.reads, τ name = σ name) → high r = some x

theorem showProp_follows (hlow : Follows σ τ low high) {ps : Props} {name : String} {x : Shown}
    (h : showProp low ps name = some x) (hreads : ∀ name ∈ x.reads, τ name = σ name) :
    showProp high ps name = some x := by
  rw [showProp] at h ⊢
  rcases hget : ps.get? name with _ | e
  · rw [hget] at h
    exact h
  · rw [hget] at h
    cases e with
    | immediate v => exact h
    | reactive r => exact hlow r x h hreads

mutual

theorem showScript_follows (hlow : Follows σ τ low high) (env : Option Props) :
    ∀ {code : Script} {x : Shown}, showScript σ low env code = some x →
      (∀ name ∈ x.reads, τ name = σ name) → showScript τ high env code = some x
  | .empty, _, h, _ => by simpa [showScript] using h
  | .bool b, _, h, _ => by simpa [showScript] using h
  | .number n, _, h, _ => by simpa [showScript] using h
  | .text s, _, h, _ => by simpa [showScript] using h
  | .list items, x, h, hreads => by
    rw [showScript] at h ⊢
    obtain ⟨z, hz, rfl⟩ := Option.map_eq_some_iff.mp h
    rw [showScripts_follows hlow env hz hreads]
    rfl
  | .peek name, x, h, hreads => by
    rw [showScript] at h ⊢
    obtain ⟨z, hz, rfl⟩ := of_map_after h
    obtain ⟨hname, hrest⟩ := List.forall_mem_cons.mp hreads
    rw [hname, hlow _ z hz hrest]
    rfl
  | .choose name yes no, x, h, hreads => by
    rw [showScript] at h ⊢
    obtain ⟨z, hz, rfl⟩ := of_map_after h
    obtain ⟨hname, hrest⟩ := List.forall_mem_cons.mp hreads
    rw [hname]
    split at hz
    · rename_i htrue
      rw [if_pos htrue, showScript_follows hlow env hz hrest]
      rfl
    · rename_i hfalse
      rw [if_neg hfalse, showScript_follows hlow env hz hrest]
      rfl
  | .note line next, x, h, hreads => by
    rw [showScript] at h ⊢
    exact showScript_follows hlow env h hreads
  | .join pieces, x, h, hreads => by
    rw [showScript] at h ⊢
    obtain ⟨z, hz, rfl⟩ := Option.map_eq_some_iff.mp h
    rw [showScripts_follows hlow env hz hreads]
    rfl
  | .element name children, x, h, hreads => by
    rw [showScript] at h ⊢
    obtain ⟨z, hz, rfl⟩ := Option.map_eq_some_iff.mp h
    rw [showScripts_follows hlow env hz hreads]
    rfl
  | .prop name, x, h, hreads => by
    cases env with
    | none => simpa [showScript] using h
    | some ps =>
      simp only [showScript] at h ⊢
      exact showProp_follows hlow h hreads
  | .hasProp name, x, h, hreads => by
    cases env with
    | none => simpa [showScript] using h
    | some ps => simpa [showScript] using h
  | .handler _ _, _, h, _ => by simp [showScript] at h
  | .ref _, _, h, _ => by simp [showScript] at h
  | .func _ _, _, h, _ => by simp [showScript] at h
  | .signal _, _, h, _ => by simp [showScript] at h
  | .later _, _, h, _ => by simp [showScript] at h
  | .write _ _ _, _, h, _ => by simp [showScript] at h
  | .spread _, _, h, _ => by simp [showScript] at h
  | .fragment _, _, h, _ => by simp [showScript] at h
  | .comment _, _, h, _ => by simp [showScript] at h
  | .stored _, _, h, _ => by simp [showScript] at h
  | .container _, _, h, _ => by simp [showScript] at h
  | .html _ _, _, h, _ => by simp [showScript] at h
  | .children, _, h, _ => by simp [showScript] at h
  | .dump, _, h, _ => by simp [showScript] at h
  | .call _ _, _, h, _ => by simp [showScript] at h

theorem showScripts_follows (hlow : Follows σ τ low high) (env : Option Props) :
    ∀ {codes : List Script} {x : List Yield × List String}, showScripts σ low env codes = some x →
      (∀ name ∈ x.2, τ name = σ name) → showScripts τ high env codes = some x
  | [], _, h, _ => by simpa [showScripts] using h
  | code :: rest, x, h, hreads => by
    rw [showScripts] at h ⊢
    obtain ⟨y, hy, h⟩ := Option.bind_eq_some_iff.mp h
    obtain ⟨ys, hys, h⟩ := Option.bind_eq_some_iff.mp h
    obtain rfl := Option.some.inj h
    obtain ⟨hfirst, hrest⟩ := List.forall_mem_append.mp hreads
    rw [showScript_follows hlow env hy hfirst, showScripts_follows hlow env hys hrest]
    rfl

end

theorem showPieces_follows (hlow : Follows σ τ low high) {vs : List Value}
    {x : String × List String} (h : showPieces low vs = some x)
    (hreads : ∀ name ∈ x.2, τ name = σ name) : showPieces high vs = some x := by
  induction vs generalizing x with
  | nil => exact h
  | cons v vs ih =>
    have hplain (v : Value) (hv : ∀ low,
        showPieces low (v :: vs) = (showPieces low vs).bind fun y =>
        some (v.toText ++ y.1, y.2)) (h : showPieces low (v :: vs) = some x) :
        showPieces high (v :: vs) = some x := by
      rw [hv] at h ⊢
      obtain ⟨y, hy, h⟩ := Option.bind_eq_some_iff.mp h
      obtain rfl := Option.some.inj h
      rw [ih hy hreads]
      rfl
    cases v with
    | reactive r =>
      rw [showPieces] at h ⊢
      obtain ⟨y, hy, h⟩ := Option.bind_eq_some_iff.mp h
      obtain ⟨ys, hys, h⟩ := Option.bind_eq_some_iff.mp h
      obtain rfl := Option.some.inj h
      obtain ⟨hfirst, hrest⟩ := List.forall_mem_append.mp hreads
      rw [hlow r y hy hfirst, ih hys hrest]
      rfl
    | _ => exact hplain _ (fun _ => rfl) h

/-- What a reader comes to stays the same with more levels, and with other signals as long as
    those hold the same that it has read. -/
theorem showReader_congr {n m : Nat} {r : Reader} {x : Shown} (h : showReader σ n r = some x)
    (hnm : n ≤ m) (hreads : ∀ name ∈ x.reads, τ name = σ name) : showReader τ m r = some x := by
  induction n generalizing m r x with
  | zero => cases h
  | succ n ih =>
    obtain ⟨m, rfl⟩ : ∃ k, m = k + 1 := ⟨m - 1, by omega⟩
    have hlow : Follows σ τ (showReader σ n) (showReader τ m) := fun r x hx hreads =>
      ih hx (by omega) hreads
    cases r with
    | script env code => exact showScript_follows hlow env h hreads
    | signal name =>
      rw [showReader] at h ⊢
      obtain ⟨z, hz, rfl⟩ := of_map_after h
      obtain ⟨hname, hrest⟩ := List.forall_mem_cons.mp hreads
      rw [hname, showScript_follows hlow none hz hrest]
      rfl
    | join pieces =>
      rw [showReader] at h ⊢
      obtain ⟨z, hz, rfl⟩ := Option.map_eq_some_iff.mp h
      rw [showPieces_follows hlow hz hreads]
      rfl
    | children source values slot nodes => cases h

/-- A reader comes to one thing only, however many levels it takes. -/
theorem showReader_unique {n m : Nat} {r : Reader} {x y : Shown} (h : showReader σ n r = some x)
    (h' : showReader σ m r = some y) : x = y := by
  have hx := showReader_congr (m := max n m) h (Nat.le_max_left _ _) fun _ _ => rfl
  have hy := showReader_congr (m := max n m) h' (Nat.le_max_right _ _) fun _ _ => rfl
  exact Option.some.inj (hx.symm.trans hy)

end

/-! ### What reading brings -/

/-- What the signals hold.  One that is not there counts as empty. -/
def World.held (w : World) (name : String) : Script := (w.graph.peek? name).getD .empty

theorem World.held_congr {w w' : World} (h : w'.graph = w.graph) : w'.held = w.held := by
  funext name
  rw [World.held, World.held, h]

/-- Signals have been read, and nothing else has changed but the page and the log. -/
structure Stirs (w w' : World) (reads : List String) : Prop where
  graph : w'.graph = w.graph.readAll reads
  cache : w'.cache = w.cache
  stored : w'.stored = w.stored
  containers : w'.containers = w.containers
  live : w'.live = w.live

namespace Stirs

theorem refl (w : World) : Stirs w w [] := ⟨rfl, rfl, rfl, rfl, rfl⟩

theorem trans {w w₁ w' : World} {reads more : List String} (h : Stirs w w₁ reads)
    (h' : Stirs w₁ w' more) : Stirs w w' (reads ++ more) where
  graph := by rw [h'.graph, h.graph, Signal.Graph.readAll_append]
  cache := h'.cache.trans h.cache
  stored := h'.stored.trans h.stored
  containers := h'.containers.trans h.containers
  live := h'.live.trans h.live

theorem onPage {w w' : World} {reads : List String} (h : Stirs w w' reads) (d : Page) :
    Stirs w { w' with page := d } reads := ⟨h.graph, h.cache, h.stored, h.containers, h.live⟩

theorem held {w w' : World} {reads : List String} (h : Stirs w w' reads) : w'.held = w.held := by
  funext name
  rw [World.held, World.held, h.graph, Signal.Graph.peek?_readAll]

end Stirs

/-- `Brings d d' ys vs ss`: the document `d` has grown to `d'`, and the values `vs` look like the
    yields `ys`.  The parts `ss` of what they look like are new and have no parent. -/
structure Brings (d d' : Page) (ys : List Yield) (vs : List Value) (ss : List Seed) : Prop where
  ext : d.Extends d'
  fits : List.Forall₂ Yield.Fits ys vs
  bears : Bears d' vs ss
  trees : ss.map Seed.tree = Yield.treesAll ys
  rootless : ∀ t ∈ plants ss, d'.Stands none t
  nodup : (idsAll (plants ss)).Nodup
  young : ∀ x : Nat, x ∈ idsAll (plants ss) → d.size ≤ x

namespace Brings

variable {d d₁ d' : Page} {ys ys' : List Yield} {vs vs' : List Value} {ss ss' : List Seed}

theorem nil (h : d.IsForest) : Brings d d [] [] [] :=
  ⟨Extends.refl h, .nil, .nil, rfl, by simp [plants], List.nodup_nil, by simp [plants, idsAll]⟩

theorem append (h : Brings d d₁ ys vs ss) (h' : Brings d₁ d' ys' vs' ss') :
    Brings d d' (ys ++ ys') (vs ++ vs') (ss ++ ss') where
  ext := h.ext.trans h'.ext
  fits := List.rel_append h.fits h'.fits
  bears := (h.bears.mono h'.ext).append h'.bears
  trees := by rw [List.map_append, h.trees, h'.trees, Yield.treesAll_append]
  rootless t ht := by
    rw [plants_append] at ht
    rcases List.mem_append.mp ht with ht | ht
    · exact h'.ext.stands (h.rootless t ht)
    · exact h'.rootless t ht
  nodup := by
    rw [plants_append, idsAll_append]
    refine List.nodup_append.mpr ⟨h.nodup, h'.nodup, fun x hx y hy heq => ?_⟩
    subst heq
    exact absurd (h.bears.lt_size hx) (Nat.not_lt.mpr (h'.young x hy))
  young x hx := by
    rw [plants_append, idsAll_append] at hx
    rcases List.mem_append.mp hx with hx | hx
    · exact h.young x hx
    · exact Nat.le_trans h.ext.size_le (h'.young x hx)

theorem list (h : Brings d d' ys vs ss) : Brings d d' [.list ys] [.list vs] ss where
  ext := h.ext
  fits := .cons ⟨vs, rfl⟩ .nil
  bears := by
    have hlist := Bears.list h.bears .nil
    rwa [List.append_nil] at hlist
  trees := by rw [h.trees, Yield.treesAll, Yield.trees, Yield.treesAll, List.append_nil]
  rootless := h.rootless
  nodup := h.nodup
  young := h.young

/-- A scalar needs no nodes. -/
theorem scalar (h : d.IsForest) {y : Yield} {v : Value} (hy : y.scalar? = some v) :
    ∃ ss, Brings d d [y] [v] ss := by
  have hscalar (y : Yield) (v : Value) (texts : List String) (hfits : y.Fits v)
      (hbears : Bears d [v] (texts.map Seed.text)) (htrees : y.trees = texts.map Tree.text) :
      Brings d d [y] [v] (texts.map Seed.text) := by
    refine ⟨Extends.refl h, .cons hfits .nil, hbears, ?_, ?_, ?_, ?_⟩
    · rw [Yield.treesAll, Yield.treesAll, htrees, List.append_nil, List.map_map]
      rfl
    · simp [plants_texts]
    · simp [plants_texts, idsAll]
    · simp [plants_texts, idsAll]
  cases y with
  | empty =>
    obtain rfl := Option.some.inj hy
    exact ⟨_, hscalar .empty .empty [] rfl (.empty .nil) rfl⟩
  | bool b =>
    obtain rfl := Option.some.inj hy
    exact ⟨_, hscalar (.bool b) (.bool b) [] rfl (.bool b .nil) rfl⟩
  | number n =>
    obtain rfl := Option.some.inj hy
    exact ⟨_, hscalar (.number n) (.number n) [n.text] rfl (.number n .nil) rfl⟩
  | text s =>
    obtain rfl := Option.some.inj hy
    exact ⟨_, hscalar (.text s) (.text s) [s] rfl (.text s .nil) rfl⟩
  | element t => cases hy
  | list items => cases hy

theorem scalar_later (hext : d.Extends d') {y : Yield} {v : Value} (hy : y.scalar? = some v) :
    ∃ ss, Brings d d' [y] [v] ss := by
  obtain ⟨ss, hbrings⟩ := scalar hext.forest hy
  refine ⟨ss, hext, hbrings.fits, hbrings.bears, hbrings.trees, hbrings.rootless, hbrings.nodup,
    fun x hx => Nat.le_trans hext.size_le (hbrings.young x hx)⟩

end Brings

/-- `Comes act σ x`: in a world that holds `σ`, the action brings the yield of `x` and reads the
    signals that `x` says. -/
def Comes (act : Run Value) (σ : String → Script) (x : Shown) : Prop :=
  ∀ w : World, w.page.IsForest → w.held = σ → ∃ w' v ss, act w = some (v, w') ∧
    Stirs w w' x.reads ∧ Brings w.page w'.page [x.yield] [v] ss

theorem comes_scalar {σ : String → Script} {y : Yield} {v : Value} (hy : y.scalar? = some v) :
    Comes (pure v) σ ⟨y, []⟩ := by
  intro w hforest _
  obtain ⟨ss, hbrings⟩ := Brings.scalar hforest hy
  exact ⟨w, v, ss, rfl, Stirs.refl w, hbrings⟩

/-- A signal looked at first. -/
theorem comes_after {σ : String → Script} {name : String} {x : Shown} {next : Script → Run Value}
    (h : Comes (next (σ name)) σ x) : Comes (do
      let code ← readSignal name
      next code) σ (x.after name) := by
  intro w hforest hheld
  obtain ⟨w₁, hw₁⟩ : ∃ w₁ : World, w₁ = { w with graph := (w.graph.read name).2 } := ⟨_, rfl⟩
  have hread : readSignal name w = some (σ name, w₁) := by
    rw [hw₁, ← hheld]
    rfl
  have hstirs : Stirs w w₁ [name] := by
    rw [hw₁]
    exact ⟨rfl, rfl, rfl, rfl, rfl⟩
  have hpage : w₁.page = w.page := by rw [hw₁]
  obtain ⟨w', v, ss, hrun, hstirs', hbrings⟩ := h w₁ (hpage ▸ hforest) (hstirs.held.trans hheld)
  rw [hpage] at hbrings
  refine ⟨w', v, ss, ?_, hstirs.trans hstirs', hbrings⟩
  rw [run_bind hread]
  exact hrun

/-- A line noted first. -/
theorem comes_noted {σ : String → Script} {x : Shown} (line : String) {act : Run Value}
    (h : Comes act σ x) : Comes (do
      log (.noted line)
      act) σ x := by
  intro w hforest hheld
  obtain ⟨w₁, hw₁⟩ : ∃ w₁ : World, w₁ = { w with log := w.log.push (.noted line) } := ⟨_, rfl⟩
  have hlog : log (.noted line) w = some ((), w₁) := by
    rw [hw₁]
    rfl
  have hstirs₁ : Stirs w w₁ [] := by
    rw [hw₁]
    exact ⟨rfl, rfl, rfl, rfl, rfl⟩
  have hpage : w₁.page = w.page := by rw [hw₁]
  obtain ⟨w', v, ss, hrun, hstirs, hbrings⟩ := h w₁ (hpage ▸ hforest) (hstirs₁.held.trans hheld)
  refine ⟨w', v, ss, ?_, hstirs₁.trans hstirs, hpage ▸ hbrings⟩
  rw [run_bind hlog]
  exact hrun

/-- What the calls of a renderer do for the readers that `low` speaks of. -/
structure Serves (c : Calls) (σ : String → Script) (low : Reader → Option Shown) : Prop where
  read : ∀ r x, low r = some x → Comes (c.read r) σ x
  build : ∀ env code x, low (.script env code) = some x → Comes (c.build env code) σ x
  resolveReader : ∀ r x, low r = some x → Comes (c.resolve (.reactive r)) σ x
  resolve : ∀ v, v.isReactive = false → ∀ w, c.resolve v w = some (v, w)

/-! ### Scripts -/

section

variable {f : Factory} {c : Calls} {σ : String → Script} {low : Reader → Option Shown}

/-- `ComesAll acts σ ys reads`: what `Comes` says, of an action with several values. -/
def ComesAll (acts : Run (List Value)) (σ : String → Script) (ys : List Yield)
    (reads : List String) : Prop :=
  ∀ w : World, w.page.IsForest → w.held = σ → ∃ w' vs ss, acts w = some (vs, w') ∧
    Stirs w w' reads ∧ Brings w.page w'.page ys vs ss

/-- `ComesText act σ s reads`: the action has the text `s`, and nodes that it makes are nobody's. -/
def ComesText (act : Run String) (σ : String → Script) (s : String) (reads : List String) : Prop :=
  ∀ w : World, w.page.IsForest → w.held = σ → ∃ w', act w = some (s, w') ∧
    Stirs w w' reads ∧ w.page.Extends w'.page

/-- `ComesBelow act σ id ys reads`: the action puts what `ys` look like as children at the end of
    the node `id`. -/
def ComesBelow (act : Run Unit) (σ : String → Script) (id : Nat) (ys : List Yield)
    (reads : List String) : Prop :=
  ∀ w : World, w.page.IsForest → w.held = σ → id < w.page.size → ∃ w' ts, act w = some ((), w') ∧
    Stirs w w' reads ∧ w.page.Regrown w'.page id (w.page.children id) [] ts [] ∧
    Plant.trees ts = ys.map Yield.child

/-- A value as one node. -/
theorem nodeFor_brings {d : Page} {w : World} {y : Yield} {v : Value} {ss : List Seed}
    (h : Brings d w.page [y] [v] ss) : ∃ d' t, nodeFor v w = some (t.root, { w with page := d' }) ∧
      w.page.Extends d' ∧ d'.Stands none t ∧ d'.isFragment t.root = false ∧
      (∀ x : Nat, x ∈ t.ids → d.size ≤ x) ∧ t.tree = y.child := by
  obtain ⟨hfits, -⟩ := List.forall₂_cons.mp h.fits
  -- all but nodes become a new text node
  have htext (hv : nodeFor v = onPage (·.createText v.toText)) (hy : y.child = .text y.toText) :
      ∃ d' t, nodeFor v w = some (t.root, { w with page := d' }) ∧ w.page.Extends d' ∧
        d'.Stands none t ∧ d'.isFragment t.root = false ∧
        (∀ x : Nat, x ∈ t.ids → d.size ≤ x) ∧ t.tree = y.child := by
    have hnode : (w.page.create (.text v.toText)).2.node? w.page.size =
        some ⟨.text v.toText, none, []⟩ := by
      rw [node?_create, if_pos rfl]
    refine ⟨_, leaf w.page.size (.text v.toText), by rw [hv]; rfl,
      Extends.create h.ext.forest (.text v.toText), stands_leaf.mpr hnode, ?_, fun x hx => ?_, ?_⟩
    · rw [leaf, Plant.root, isFragment_of_node? hnode]
      rfl
    · have hxs : x = w.page.size := by simpa [ids, idsAll, leaf] using hx
      exact hxs ▸ h.ext.size_le
    · rw [hy, ← hfits.toText]
      rfl
  cases y with
  | element tree =>
    obtain ⟨id, rfl⟩ := hfits
    rcases h.bears with _ | _ | _ | _ | _ | ⟨ht, hnil⟩ | _
    rename_i ss t
    cases hnil
    refine ⟨w.page, t, rfl, Extends.refl h.ext.forest, h.rootless t (by simp [plants]), ht.1,
      fun x hx => h.young x (by simpa [plants, idsAll] using hx), ?_⟩
    have htrees := h.trees
    simpa [Yield.treesAll, Yield.trees, Seed.tree, Yield.child] using htrees
  | list items =>
    obtain ⟨vs, rfl⟩ := hfits
    exact htext rfl rfl
  | _ =>
    obtain rfl := Option.some.inj hfits
    exact htext rfl rfl

/-- A new element, and what is put into it. -/
theorem comes_element {ys : List Yield} {reads : List String} (name : String)
    {into : NodeId → Run Unit} (h : ∀ id, ComesBelow (into id) σ id ys reads) : Comes (do
      let id ← onPage (·.createElement name .html)
      into id
      pure (.node id)) σ ⟨.element (.element name .html [] (ys.map Yield.child)), reads⟩ := by
  intro w hforest hheld
  obtain ⟨w₁, hw₁⟩ : ∃ w₁ : World,
      w₁ = { w with page := (w.page.createElement name .html).2 } := ⟨_, rfl⟩
  have hmake : onPage (·.createElement name .html) w = some (w.page.size, w₁) := by
    rw [hw₁]
    rfl
  have hstirs₁ : Stirs w w₁ [] := hw₁ ▸ (Stirs.refl w).onPage _
  have hext₁ : w.page.Extends w₁.page := hw₁ ▸ Extends.create hforest _
  have hnode : w₁.page.node? w.page.size =
      some ⟨.element ⟨name, .html, [], [], []⟩, none, []⟩ := by
    rw [hw₁, createElement, node?_create, if_pos rfl]
  obtain ⟨w', ts, hrun, hstirs, hgrown, htrees⟩ := h w.page.size w₁ hext₁.forest
    (hstirs₁.held.trans hheld) (lt_size_of_node? hnode)
  rw [children_of_node? hnode] at hgrown
  have hext : w.page.Extends w'.page :=
    hgrown.keeps_base hext₁ (fun x hx => Nat.ne_of_lt hx) (by simp [idsAll])
  have hstand : w'.page.Stands none
      (Plant.node w.page.size (.element ⟨name, .html, [], [], []⟩) ts) := by
    obtain ⟨content, q, hbefore, hafter⟩ := hgrown.place
    rw [hnode] at hbefore
    obtain ⟨rfl, rfl, -⟩ := by simpa using hbefore
    exact ⟨by simpa using hafter, hgrown.stand⟩
  have hkind : w'.page.isFragment w.page.size = false := by
    rw [isFragment_of_node? hstand.node?_eq]
    rfl
  refine ⟨w', .node w.page.size, [.plant (Plant.node w.page.size _ ts)], ?_,
    hstirs₁.trans hstirs, ⟨hext, .cons ⟨_, rfl⟩ .nil, .node ⟨hkind, none, hstand⟩ .nil, ?_, ?_, ?_,
    ?_⟩⟩
  · rw [run_bind hmake, run_bind hrun]
    rfl
  · simp [Seed.tree, Yield.treesAll, Yield.trees, Plant.tree, htrees]
  · simpa [plants] using hstand
  · simpa [plants, idsAll] using hstand.nodup_ids hgrown.forest
  · intro x hx
    simp only [plants, idsAll, ids, List.append_nil, List.mem_cons] at hx
    rcases hx with rfl | hx
    · exact Nat.le_refl _
    · rcases hgrown.fresh x hx with hmem | hlarge
      · simp [idsAll] at hmem
      · exact Nat.le_trans hext₁.size_le hlarge

theorem propValue_comes (hserves : Serves c σ low) {ps : Props} {name : String} {x : Shown}
    (h : showProp low ps name = some x) : Comes (propValue c ps name) σ x := by
  rw [showProp] at h
  rw [propValue]
  rcases hget : ps.get? name with _ | e
  · rw [hget] at h
    obtain rfl := Option.some.inj h
    exact comes_scalar rfl
  · rw [hget] at h
    cases e with
    | immediate v =>
      obtain ⟨y, hy, rfl⟩ := Option.map_eq_some_iff.mp h
      refine comes_scalar ?_
      cases v <;> first | (obtain rfl := Option.some.inj hy; rfl) | cases hy
    | reactive r => exact hserves.read r x h

mutual

/-- A script brings what it comes to. -/
theorem buildScript_comes (hserves : Serves c σ low) (env : Option Props) :
    ∀ {code : Script} {x : Shown}, showScript σ low env code = some x →
      Comes (buildScript f c env code) σ x
  | .empty, _, h => by
    obtain rfl := Option.some.inj (by simpa [showScript] using h)
    exact comes_scalar rfl
  | .bool b, _, h => by
    obtain rfl := Option.some.inj (by simpa [showScript] using h)
    exact comes_scalar rfl
  | .number n, _, h => by
    obtain rfl := Option.some.inj (by simpa [showScript] using h)
    exact comes_scalar rfl
  | .text s, _, h => by
    obtain rfl := Option.some.inj (by simpa [showScript] using h)
    exact comes_scalar rfl
  | .list items, x, h => by
    rw [showScript] at h
    obtain ⟨z, hz, rfl⟩ := Option.map_eq_some_iff.mp h
    intro w hforest hheld
    obtain ⟨w', vs, ss, hrun, hstirs, hbrings⟩ :=
      buildScripts_comes hserves env hz w hforest hheld
    refine ⟨w', .list vs, ss, ?_, hstirs, hbrings.list⟩
    rw [buildScript, run_bind hrun]
    rfl
  | .peek name, x, h => by
    rw [showScript] at h
    obtain ⟨z, hz, rfl⟩ := of_map_after h
    have hbuild : Comes (c.build none (σ name)) σ z := hserves.build none (σ name) z hz
    rw [buildScript]
    exact comes_after hbuild
  | .choose name yes no, x, h => by
    rw [showScript] at h
    obtain ⟨z, hz, rfl⟩ := of_map_after h
    rw [buildScript]
    refine comes_after ?_
    split at hz
    · rename_i htrue
      rw [if_pos htrue]
      exact buildScript_comes hserves env hz
    · rename_i hfalse
      rw [if_neg hfalse]
      exact buildScript_comes hserves env hz
  | .note line next, x, h => by
    rw [showScript] at h
    rw [buildScript]
    exact comes_noted line (buildScript_comes hserves env h)
  | .join pieces, x, h => by
    rw [showScript] at h
    obtain ⟨z, hz, rfl⟩ := Option.map_eq_some_iff.mp h
    intro w hforest hheld
    obtain ⟨w', hrun, hstirs, hext⟩ := joinScripts_comes hserves env hz w hforest hheld
    obtain ⟨ss, hbrings⟩ := Brings.scalar_later hext
      (y := .text (String.join (z.1.map Yield.toText))) rfl
    refine ⟨w', _, ss, ?_, hstirs, hbrings⟩
    rw [buildScript, run_bind hrun]
    rfl
  | .element name children, x, h => by
    rw [showScript] at h
    obtain ⟨z, hz, rfl⟩ := Option.map_eq_some_iff.mp h
    rw [buildScript]
    exact comes_element name fun id => buildInto_comes hserves env hz
  | .prop name, x, h => by
    cases env with
    | none =>
      obtain rfl := Option.some.inj (by simpa [showScript] using h)
      exact comes_scalar rfl
    | some ps =>
      simp only [showScript] at h
      exact propValue_comes hserves h
  | .hasProp name, x, h => by
    cases env with
    | none =>
      obtain rfl := Option.some.inj (by simpa [showScript] using h)
      exact comes_scalar rfl
    | some ps =>
      obtain rfl := Option.some.inj (by simpa [showScript] using h)
      exact comes_scalar rfl
  | .handler _ _, _, h => by simp [showScript] at h
  | .ref _, _, h => by simp [showScript] at h
  | .func _ _, _, h => by simp [showScript] at h
  | .signal _, _, h => by simp [showScript] at h
  | .later _, _, h => by simp [showScript] at h
  | .write _ _ _, _, h => by simp [showScript] at h
  | .spread _, _, h => by simp [showScript] at h
  | .fragment _, _, h => by simp [showScript] at h
  | .comment _, _, h => by simp [showScript] at h
  | .stored _, _, h => by simp [showScript] at h
  | .container _, _, h => by simp [showScript] at h
  | .html _ _, _, h => by simp [showScript] at h
  | .children, _, h => by simp [showScript] at h
  | .dump, _, h => by simp [showScript] at h
  | .call _ _, _, h => by simp [showScript] at h

theorem buildScripts_comes (hserves : Serves c σ low) (env : Option Props) :
    ∀ {codes : List Script} {x : List Yield × List String}, showScripts σ low env codes = some x →
      ComesAll (buildScripts f c env codes) σ x.1 x.2
  | [], _, h => by
    obtain rfl := Option.some.inj (by simpa [showScripts] using h)
    intro w hforest _
    exact ⟨w, [], [], rfl, Stirs.refl w, Brings.nil hforest⟩
  | code :: rest, x, h => by
    rw [showScripts] at h
    obtain ⟨y, hy, h⟩ := Option.bind_eq_some_iff.mp h
    obtain ⟨z, hz, h⟩ := Option.bind_eq_some_iff.mp h
    obtain rfl := Option.some.inj h
    intro w hforest hheld
    obtain ⟨w₁, v, ss, hrun, hstirs, hbrings⟩ := buildScript_comes hserves env hy w hforest hheld
    obtain ⟨w', vs, ss', hrun', hstirs', hbrings'⟩ := buildScripts_comes hserves env hz w₁
      hbrings.ext.forest (hstirs.held.trans hheld)
    refine ⟨w', v :: vs, ss ++ ss', ?_, hstirs.trans hstirs', hbrings.append hbrings'⟩
    rw [buildScripts, run_bind hrun, run_bind hrun']
    rfl

theorem joinScripts_comes (hserves : Serves c σ low) (env : Option Props) :
    ∀ {codes : List Script} {x : List Yield × List String}, showScripts σ low env codes = some x →
      ComesText (joinScripts f c env codes) σ (String.join (x.1.map Yield.toText)) x.2
  | [], _, h => by
    obtain rfl := Option.some.inj (by simpa [showScripts] using h)
    intro w hforest _
    exact ⟨w, rfl, Stirs.refl w, Extends.refl hforest⟩
  | code :: rest, x, h => by
    rw [showScripts] at h
    obtain ⟨y, hy, h⟩ := Option.bind_eq_some_iff.mp h
    obtain ⟨z, hz, h⟩ := Option.bind_eq_some_iff.mp h
    obtain rfl := Option.some.inj h
    intro w hforest hheld
    obtain ⟨w₁, v, ss, hrun, hstirs, hbrings⟩ := buildScript_comes hserves env hy w hforest hheld
    obtain ⟨w', hrun', hstirs', hext'⟩ := joinScripts_comes hserves env hz w₁
      hbrings.ext.forest (hstirs.held.trans hheld)
    obtain ⟨hfits, -⟩ := List.forall₂_cons.mp hbrings.fits
    refine ⟨w', ?_, hstirs.trans hstirs', hbrings.ext.trans hext'⟩
    rw [joinScripts, run_bind hrun, run_bind (hserves.resolve v hfits.isReactive w₁),
      run_bind hrun', List.map_cons, String.join_cons, hfits.toText]
    rfl

theorem buildInto_comes (hserves : Serves c σ low) (env : Option Props) {id : Nat} :
    ∀ {codes : List Script} {x : List Yield × List String}, showScripts σ low env codes = some x →
      ComesBelow (buildInto f c env id codes) σ id x.1 x.2
  | [], _, h => by
    obtain rfl := Option.some.inj (by simpa [showScripts] using h)
    intro w hforest _ hid
    obtain ⟨n, hn⟩ := exists_node? hid
    refine ⟨w, [], rfl, Stirs.refl w, Regrown.refl hforest trivial ⟨n.content, n.parent, ?_⟩, rfl⟩
    rw [hn, children_of_node? hn]
    simp
  | code :: rest, x, h => by
    rw [showScripts] at h
    obtain ⟨y, hy, h⟩ := Option.bind_eq_some_iff.mp h
    obtain ⟨z, hz, h⟩ := Option.bind_eq_some_iff.mp h
    obtain rfl := Option.some.inj h
    intro w hforest hheld hid
    obtain ⟨w₁, v, ss, hrun, hstirs, hbrings⟩ := buildScript_comes hserves env hy w hforest hheld
    obtain ⟨d₂, t, hnode, hext₂, hstand, hkind, hyoung, htree⟩ := nodeFor_brings hbrings
    have hgrown := Regrown.add (hbrings.ext.trans hext₂) hid hstand hkind hyoung
    obtain ⟨w₃, hw₃⟩ : ∃ w₃ : World, w₃ = { w₁ with page := d₂.append id t.root } := ⟨_, rfl⟩
    have hpage₃ : w₃.page = d₂.append id t.root := by rw [hw₃]
    rw [← hpage₃] at hgrown
    have hstirs₃ : Stirs w w₃ y.reads := hw₃ ▸ hstirs.onPage _
    obtain ⟨w', ts, hrun', hstirs', hgrown', htrees⟩ := buildInto_comes hserves env hz w₃
      hgrown.forest (hstirs₃.held.trans hheld) (Nat.lt_of_lt_of_le hid hgrown.size_le)
    have hchildren : w₃.page.children id = w.page.children id ++ roots [t] := by
      obtain ⟨content, q, -, hafter⟩ := hgrown.place
      rw [children_of_node? hafter, List.append_nil]
    rw [hchildren] at hgrown'
    have hboth : w.page.Regrown w'.page id (w.page.children id) ([] ++ []) ([t] ++ ts) [] :=
      Regrown.append hforest trivial List.nodup_nil hgrown hgrown'
    refine ⟨w', [t] ++ ts, ?_, hstirs₃.trans hstirs', hboth, ?_⟩
    · rw [buildInto, run_bind hrun, run_bind hnode, run_bind (run_changePage _ _)]
      rw [hw₃] at hrun'
      exact hrun'
    · rw [List.singleton_append, Plant.trees, htrees, htree, List.map_cons]

end

theorem exists_reader {v : Value} (h : v.isReactive = true) : ∃ r, v = .reactive r := by
  cases v <;> first | exact ⟨_, rfl⟩ | cases h

/-- The pieces of an attribute have the text that they come to. -/
theorem joinPieces_comes (hserves : Serves c σ low) {vs : List Value} {x : String × List String}
    (h : showPieces low vs = some x) : ComesText (joinPieces c vs) σ x.1 x.2 := by
  induction vs generalizing x with
  | nil =>
    obtain rfl := Option.some.inj h
    intro w hforest _
    exact ⟨w, rfl, Stirs.refl w, Extends.refl hforest⟩
  | cons v vs ih =>
    by_cases hv : v.isReactive = true
    · obtain ⟨r, rfl⟩ := exists_reader hv
      rw [showPieces] at h
      obtain ⟨y, hy, h⟩ := Option.bind_eq_some_iff.mp h
      obtain ⟨z, hz, h⟩ := Option.bind_eq_some_iff.mp h
      obtain rfl := Option.some.inj h
      intro w hforest hheld
      obtain ⟨w₁, v, ss, hrun, hstirs, hbrings⟩ := hserves.resolveReader r y hy w hforest hheld
      obtain ⟨w', hrun', hstirs', hext'⟩ := ih hz w₁ hbrings.ext.forest
        (hstirs.held.trans hheld)
      obtain ⟨hfits, -⟩ := List.forall₂_cons.mp hbrings.fits
      refine ⟨w', ?_, hstirs.trans hstirs', hbrings.ext.trans hext'⟩
      rw [joinPieces, run_bind hrun, run_bind hrun', hfits.toText]
      rfl
    · have hplain : v.isReactive = false := by simpa using hv
      obtain ⟨z, hz, rfl⟩ : ∃ z, showPieces low vs = some z ∧ x = (v.toText ++ z.1, z.2) := by
        have hbind : showPieces low (v :: vs) = (showPieces low vs).bind fun y =>
            some (v.toText ++ y.1, y.2) := by
          cases v <;> first | rfl | simp [Value.isReactive] at hv
        rw [hbind] at h
        obtain ⟨z, hz, h⟩ := Option.bind_eq_some_iff.mp h
        exact ⟨z, hz, (Option.some.inj h).symm⟩
      intro w hforest hheld
      obtain ⟨w', hrun', hstirs', hext'⟩ := ih hz w hforest hheld
      refine ⟨w', ?_, hstirs', hext'⟩
      rw [joinPieces, run_bind (hserves.resolve v hplain w), run_bind hrun']
      rfl

end

/-! ### Readers -/

/-- A value that is no reader is what it is. -/
theorem resolve_plain (f : Factory) {n : Nat} (hn : 0 < n) {v : Value} (hv : v.isReactive = false)
    (w : World) : (machine f n).resolve v w = some (v, w) := by
  obtain ⟨k, rfl⟩ : ∃ k, n = k + 1 := ⟨n - 1, by omega⟩
  cases v <;> first | rfl | simp [Value.isReactive] at hv

/-- A reader resolved, one level further down. -/
theorem resolve_comes (f : Factory) {n : Nat} (hn : 0 < n) {σ : String → Script} {r : Reader}
    {x : Shown} (h : Comes ((machine f n).read r) σ x) :
    Comes ((machine f (n + 1)).resolve (.reactive r)) σ x := by
  intro w hforest hheld
  obtain ⟨w', v, ss, hrun, hstirs, hbrings⟩ := h w hforest hheld
  obtain ⟨hfits, -⟩ := List.forall₂_cons.mp hbrings.fits
  refine ⟨w', v, ss, ?_, hstirs, hbrings⟩
  have hresolve : (machine f (n + 1)).resolve (.reactive r) w =
      ((machine f n).read r >>= fun v => (machine f n).resolve v) w := rfl
  rw [hresolve, run_bind hrun, resolve_plain f hn hfits.isReactive]

/-- A reader brings what it comes to. -/
theorem readReader_comes (f : Factory) {σ : String → Script} (n : Nat) :
    ∀ {m : Nat} {r : Reader} {x : Shown}, 3 * n ≤ m → showReader σ n r = some x →
      Comes (readReader (machine f m) r) σ x := by
  induction n with
  | zero =>
    intro m r x _ h
    cases h
  | succ n ih =>
    have hserves {m : Nat} (hm : 3 * n + 2 ≤ m) : Serves (machine f m) σ (showReader σ n) := by
      obtain ⟨k, rfl⟩ : ∃ k, m = k + 2 := ⟨m - 2, by omega⟩
      refine ⟨fun r x hx => ih (m := k + 1) (by omega) hx, fun env code x hx => ?_,
        fun r x hx => ?_, fun v hv => resolve_plain f (by omega) hv⟩
      · exact ih (m := k + 2) (by omega) hx
      · exact resolve_comes f (by omega) (ih (m := k) (by omega) hx)
    intro m r x hm h
    obtain ⟨k, rfl⟩ : ∃ k, m = k + 1 := ⟨m - 1, by omega⟩
    cases r with
    | script env code => exact buildScript_comes (hserves (m := k) (by omega)) env h
    | signal name =>
      obtain ⟨z, hz, rfl⟩ := of_map_after h
      have hbuild : Comes ((machine f (k + 1)).build none (σ name)) σ z :=
        buildScript_comes (hserves (m := k) (by omega)) none hz
      exact comes_after hbuild
    | join pieces =>
      obtain ⟨z, hz, rfl⟩ := Option.map_eq_some_iff.mp h
      intro w hforest hheld
      obtain ⟨w', hrun, hstirs, hext⟩ :=
        joinPieces_comes (hserves (m := k + 1) (by omega)) hz w hforest hheld
      obtain ⟨ss, hbrings⟩ := Brings.scalar_later hext (y := .text z.1) rfl
      refine ⟨w', _, ss, ?_, hstirs, hbrings⟩
      rw [readReader, run_bind hrun]
      rfl
    | children source values slot nodes => cases h

end Render
end Stencil
