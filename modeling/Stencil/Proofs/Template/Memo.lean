/-
  Stencil/Proofs/Template/Memo.lean
  =================================
  **A literal is compiled on the first request for its key, and never again.**

  A cache serves any requests one after the other; each brings its own way of compiling,
  which may fail and which may change a state that all of them share.  So the state tells
  which of them have compiled, and when.

  The invariant (`Faithful`) is that the cache holds, for the key of every request so far,
  the outcome that this request was answered with.  What the next request gets is then
  decided by whether its key has been asked for before (`serve_once`).
-/
import Stencil.Template.Cache
import Mathlib.Data.List.Dedup
import Mathlib.Data.List.Induction

namespace Stencil.Cache

variable {κ σ : Type}

/-- A request to a cache: a key, and what compiling would give. -/
structure Request (κ σ : Type) where
  key : Option String
  compile : σ → Except TemplateError κ × σ

/-- What has come of some requests: their answers in order, the cache, and the state. -/
structure Served (κ σ : Type) where
  answers : List (Answer κ)
  cache : Cache κ
  state : σ

/-- One more request served. -/
def Served.next (v : Served κ σ) (r : Request κ σ) : Served κ σ :=
  let (answer, cache, state) := v.cache.getOrCompile r.key r.compile v.state
  ⟨v.answers ++ [answer], cache, state⟩

/-- Requests served in order by a cache that is empty at first. -/
def serve (s : σ) (rs : List (Request κ σ)) : Served κ σ :=
  rs.foldl Served.next ⟨[], .empty, s⟩

/-! ### Looking up -/

variable {c : Cache κ} {key : Option String}

theorem lookup_isSome : (c.lookup key).isSome ↔ key ∈ c.entries.map (·.1) := by
  simp [lookup]

theorem lookup_cons {outcome : Except TemplateError κ}
    {entries : List (Option String × Except TemplateError κ)} {key' : Option String} {n m : Nat} :
    (⟨(key, outcome) :: entries, n, m⟩ : Cache κ).lookup key' =
      if key = key' then some outcome else (⟨entries, n, m⟩ : Cache κ).lookup key' := by
  rw [lookup, lookup, List.find?_cons]
  by_cases h : key = key'
  · simp [h]
  · simp [h, beq_eq_false_iff_ne.mpr h]

variable {v : Served κ σ} {r : Request κ σ}

theorem Served.next_of_some {outcome : Except TemplateError κ}
    (h : v.cache.lookup r.key = some outcome) :
    v.next r =
      ⟨v.answers ++ [⟨outcome, false⟩], { v.cache with hits := v.cache.hits + 1 }, v.state⟩ := by
  rw [next, getOrCompile, h]

theorem Served.next_of_none (h : v.cache.lookup r.key = none) :
    v.next r = ⟨v.answers ++ [⟨(r.compile v.state).1, true⟩],
      ⟨(r.key, (r.compile v.state).1) :: v.cache.entries, v.cache.parses + 1, v.cache.hits⟩,
      (r.compile v.state).2⟩ := by
  rw [next, getOrCompile, h]

/-! ### What the cache knows of the requests so far -/

/-- The keys of the cache are those of the requests, with the outcomes that were answered. -/
structure Faithful (rs : List (Request κ σ)) (v : Served κ σ) : Prop where
  length : v.answers.length = rs.length
  nodup : (v.cache.entries.map (·.1)).Nodup
  keys : ∀ key, key ∈ v.cache.entries.map (·.1) ↔ key ∈ rs.map (·.key)
  parses : v.cache.parses = v.cache.size
  calls : v.cache.parses + v.cache.hits = rs.length
  outcome : ∀ (i : Nat) r a, rs[i]? = some r → v.answers[i]? = some a →
    v.cache.lookup r.key = some a.outcome

namespace Faithful

variable {rs : List (Request κ σ)}

theorem start (s : σ) : Faithful ([] : List (Request κ σ)) ⟨[], .empty, s⟩ where
  length := rfl
  nodup := List.nodup_nil
  keys _ := Iff.rfl
  parses := rfl
  calls := rfl
  outcome _ _ _ h := nomatch h

/-- A key is found if and only if it has been asked for. -/
theorem lookup_eq_none (h : Faithful rs v) : v.cache.lookup r.key = none ↔
    r.key ∉ rs.map (·.key) := by
  rw [← h.keys, ← lookup_isSome, Option.not_isSome_iff_eq_none]

/-- Outcomes stay right if the cache keeps what it has and answers the next request with what it
    has then. -/
theorem outcome_append (h : Faithful rs v) {c : Cache κ} {a : Answer κ}
    (hkeep : ∀ key outcome, v.cache.lookup key = some outcome → c.lookup key = some outcome)
    (ha : c.lookup r.key = some a.outcome) (i : Nat) (r' : Request κ σ) (a' : Answer κ)
    (hr : (rs ++ [r])[i]? = some r') (ha' : (v.answers ++ [a])[i]? = some a') :
    c.lookup r'.key = some a'.outcome := by
  by_cases hi : i < rs.length
  · rw [List.getElem?_append_left hi] at hr
    rw [List.getElem?_append_left (h.length ▸ hi)] at ha'
    exact hkeep _ _ (h.outcome i r' a' hr ha')
  · have hlt := (List.getElem?_eq_some_iff.mp hr).1
    rw [List.length_append, List.length_singleton] at hlt
    obtain rfl : i = rs.length := by omega
    rw [List.getElem?_concat_length] at hr
    rw [← h.length, List.getElem?_concat_length] at ha'
    rw [← Option.some.inj hr, ← Option.some.inj ha']
    exact ha

theorem next (h : Faithful rs v) (r : Request κ σ) : Faithful (rs ++ [r]) (v.next r) := by
  cases hlookup : v.cache.lookup r.key with
  | some outcome =>
    have hmem : r.key ∈ rs.map (·.key) := by
      rw [← h.keys, ← lookup_isSome, hlookup, Option.isSome_some]
    rw [Served.next_of_some hlookup]
    exact {
      length := by simp [h.length]
      nodup := h.nodup
      keys := fun key => by
        rw [h.keys, List.map_append, List.mem_append, List.map_singleton, List.mem_singleton]
        exact ⟨Or.inl, fun hor => hor.elim id fun heq => heq ▸ hmem⟩
      parses := h.parses
      calls := by simp [← h.calls, Nat.add_assoc]
      outcome := h.outcome_append (fun _ _ hkept => hkept) hlookup }
  | none =>
    have hnew : r.key ∉ v.cache.entries.map (·.1) := by
      rw [← lookup_isSome, hlookup, Option.isSome_none]
      exact Bool.false_ne_true
    rw [Served.next_of_none hlookup]
    exact {
      length := by simp [h.length]
      nodup := List.nodup_cons.mpr ⟨hnew, h.nodup⟩
      keys := fun key => by
        rw [List.map_cons, List.mem_cons, h.keys, List.map_append, List.mem_append,
          List.map_singleton, List.mem_singleton]
        exact or_comm
      parses := by simp [size, h.parses]
      calls := by simp [← h.calls]; omega
      outcome := by
        refine h.outcome_append (fun key outcome hkept => ?_) ?_
        · have hne : r.key ≠ key := by
            intro heq
            rw [heq, hkept] at hlookup
            cases hlookup
          rw [lookup_cons, if_neg hne]
          exact hkept
        · rw [lookup_cons, if_pos rfl] }

/-- The number of keys in the cache is the number of different keys asked for. -/
theorem size (h : Faithful rs v) : v.cache.size = (rs.map (·.key)).dedup.length := by
  have hperm : (v.cache.entries.map (·.1)).Perm (rs.map (·.key)).dedup := by
    rw [List.perm_ext_iff_of_nodup h.nodup (List.nodup_dedup _)]
    intro key
    rw [h.keys, List.mem_dedup]
  rw [Cache.size, ← hperm.length_eq, List.length_map]

end Faithful

theorem serve_append (s : σ) (rs : List (Request κ σ)) (r : Request κ σ) :
    serve s (rs ++ [r]) = (serve s rs).next r :=
  List.foldl_append

theorem serve_faithful (s : σ) (rs : List (Request κ σ)) : Faithful rs (serve s rs) := by
  induction rs using List.reverseRecOn with
  | nil => exact .start s
  | append_singleton rs r ih =>
    rw [serve_append]
    exact ih.next r

/-- At every point the cache has compiled as often as it has keys, which are the different keys
    asked for, and has counted every request.  The next request compiles if its key is new;
    otherwise it is answered with what an earlier request for the key was answered with, and nothing
    is compiled. -/
theorem serve_once (s : σ) (rs : List (Request κ σ)) :
    ((serve s rs).cache.parses = (serve s rs).cache.size ∧
      (serve s rs).cache.size = (rs.map (·.key)).dedup.length ∧
      (serve s rs).cache.parses + (serve s rs).cache.hits = rs.length) ∧
    ∀ r : Request κ σ,
      (r.key ∉ rs.map (·.key) →
        (serve s (rs ++ [r])).answers =
            (serve s rs).answers ++ [⟨(r.compile (serve s rs).state).1, true⟩] ∧
          (serve s (rs ++ [r])).state = (r.compile (serve s rs).state).2) ∧
      ∀ (i : Nat) r₀, rs[i]? = some r₀ → r₀.key = r.key →
        ∃ a, (serve s rs).answers[i]? = some a ∧
          (serve s (rs ++ [r])).answers = (serve s rs).answers ++ [⟨a.outcome, false⟩] ∧
          (serve s (rs ++ [r])).state = (serve s rs).state := by
  have h := serve_faithful s rs
  refine ⟨⟨h.parses, h.size, h.calls⟩, fun r => ⟨?_, ?_⟩⟩
  · intro hnew
    rw [serve_append, Served.next_of_none (h.lookup_eq_none.mpr hnew)]
    exact ⟨rfl, rfl⟩
  · intro i r₀ hr₀ hkey
    have hi : i < (serve s rs).answers.length := by
      rw [h.length]
      exact (List.getElem?_eq_some_iff.mp hr₀).1
    have ha := List.getElem?_eq_getElem hi
    have hlookup := h.outcome i r₀ _ hr₀ ha
    rw [hkey] at hlookup
    refine ⟨_, ha, ?_⟩
    rw [serve_append, Served.next_of_some hlookup]
    exact ⟨rfl, rfl⟩

/-- A request whose error is another one each time that it compiles. -/
def failing (name : String) : Request Unit Nat :=
  ⟨some name, fun n => (.error (.holeCount n 0), n + 1)⟩

theorem serve_once_failing :
    (serve 0 [failing "a", failing "b", failing "a"]).answers =
      (serve 0 [failing "a", failing "b"]).answers ++
        [⟨.error (.holeCount 0 0), false⟩] ∧
      (serve 0 [failing "a", failing "b", failing "a"]).state = 2 ∧
      (serve 0 [failing "a", failing "b"]).cache.size = 2 := by
  obtain ⟨⟨_, hsize, _⟩, hnext⟩ := serve_once 0 [failing "a", failing "b"]
  obtain ⟨a, ha, hanswers, hstate⟩ := (hnext (failing "a")).2 0 (failing "a") rfl rfl
  cases ha
  exact ⟨hanswers, hstate, hsize⟩

end Stencil.Cache
