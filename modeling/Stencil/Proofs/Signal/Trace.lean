/-
  Stencil/Proofs/Signal/Trace.lean
  ================================
  **Subscriptions are the innermost tracked readings.**

  A run of a program does one thing to the graph after the other: it reads and writes
  signals, opens and closes scopes and registers effects (`Act`).  `Course` tells which acts
  a program comes to, with the effects that it sets off and those that these set off in turn;
  every run has one (`exists_course`).

  The acts alone, without a look at the graph, tell which scopes are open at a point
  (`openScopes`) and which effect each reading so far counts for (`readers`).  One act after
  the other, the graph agrees: its scopes are those that are open, and the subscribers of a
  signal are its readers, each at the place of its first reading (`Faithful`).
-/
import Stencil.Proofs.Signal.Bracket
import Stencil.Proofs.Signal.Flow

namespace Stencil.Signal

variable {σ β : Type}

/-! ### Acts -/

/-- What happens to a graph in the course of a run. -/
inductive Act (σ β : Type) where
  | get (name : String)
  | peek (name : String)
  | set (name : String) (value : σ)
  | register (body : β)
  | start (id : Nat)
  | finish (id : Nat) (body : β)
  | openUntracked
  | closeUntracked

/-- The effect whose run is the innermost of the open scopes. -/
def innermost : List Scope → Option Nat
  | .effect id :: _ => some id
  | _ => none

namespace Act

/-- The graph after an act. -/
def apply (g : Graph σ β) : Act σ β → Graph σ β
  | get name => (g.read name).2
  | peek _ => g
  | set name value => (g.write name value).2
  | register body => (g.register body).2
  | start id => (g.start id).2
  | finish id body => g.finish id body
  | openUntracked => g.openUntracked
  | closeUntracked => g.closeScope

/-- An effect is started only if it is not running. -/
def Starts (g : Graph σ β) : Act σ β → Prop
  | start id => ∃ b, (g.start id).1 = some b
  | _ => True

/-- The scopes that are open after an act. -/
def scopes (stack : List Scope) : Act σ β → List Scope
  | start id => .effect id :: stack
  | openUntracked => .untracked :: stack
  | finish _ _ | closeUntracked => stack.tail
  | _ => stack

/-- The effect that an act counts for as a reading of a signal. -/
def reader? (x : String) (stack : List Scope) : Act σ β → Option Nat
  | get name => if name = x then innermost stack else none
  | _ => none

end Act

/-- The graph after several acts. -/
def replay (g : Graph σ β) (as : List (Act σ β)) : Graph σ β := as.foldl Act.apply g

/-- The scopes that are open after several acts. -/
def openScopes (as : List (Act σ β)) : List Scope := as.foldl Act.scopes []

/-- The effects that readings of a signal count for, in the order of the readings, where `stack` are
    the scopes that are open at the beginning. -/
def readers (x : String) : List Scope → List (Act σ β) → List Nat
  | _, [] => []
  | stack, a :: as => (a.reader? x stack).toList ++ readers x (a.scopes stack) as

/-! ### The graph and what has been done to it -/

/-- The acts so far tell the scopes of the graph and the subscribers of all its signals. -/
structure Faithful (past : List (Act σ β)) (g : Graph σ β) : Prop where
  scopes : g.scopes = openScopes past
  subscribers : ∀ x, (g.cell? x).isSome = true → g.subscribers x = (readers x [] past).eraseDups

variable {g g' : Graph σ β} {past as : List (Act σ β)}

theorem openScopes_concat (past : List (Act σ β)) (a : Act σ β) :
    openScopes (past ++ [a]) = a.scopes (openScopes past) := by
  rw [openScopes, List.foldl_append]
  rfl

theorem readers_concat (x : String) (stack : List Scope) (past : List (Act σ β)) (a : Act σ β) :
    readers x stack (past ++ [a]) =
      readers x stack past ++ (a.reader? x (past.foldl Act.scopes stack)).toList := by
  induction past generalizing stack with
  | nil => simp [readers]
  | cons b past ih =>
    rw [List.cons_append, readers, ih, readers, List.foldl_cons, List.append_assoc]

/-- A reader noted behind the others, unless it is among them. -/
def note (ids : List Nat) (reader : Option Nat) : List Nat :=
  ids ++ reader.toList.removeAll ids

theorem eraseDups_note (ids : List Nat) (reader : Option Nat) :
    (ids ++ reader.toList).eraseDups = note ids.eraseDups reader := by
  rw [List.eraseDups_append, note]
  cases reader with
  | none => rfl
  | some id => by_cases hid : id ∈ ids <;> simp [List.removeAll, hid, List.eraseDups_cons]

theorem subscribers_subscribe (c : Cell σ) (id : Nat) :
    (Graph.Cell.subscribe c id).subscribers = note c.subscribers (some id) := by
  rw [Graph.Cell.subscribe, note]
  by_cases hid : id ∈ c.subscribers <;> simp [List.removeAll, hid]

theorem observer?_eq_innermost (g : Graph σ β) : g.observer? = innermost g.scopes := by
  rw [Graph.observer?]
  rcases g.scopes with _ | ⟨_ | _, _⟩ <;> rfl

theorem isSome_cell?_of_cells (h : g'.cells = g.cells) (x : String) :
    (g'.cell? x).isSome = (g.cell? x).isSome := by
  rw [Graph.cell?, h, Graph.cell?]

theorem Act.isSome_cell?_apply (a : Act σ β) (g : Graph σ β) (x : String) :
    ((a.apply g).cell? x).isSome = (g.cell? x).isSome := by
  cases a with
  | get name => exact g.isSome_cell?_read name x
  | set name value => exact g.isSome_cell?_write name value x
  | start id => exact isSome_cell?_of_cells (g.cells_start id) x
  | _ => rfl

theorem isSome_cell?_replay (as : List (Act σ β)) (g : Graph σ β) (x : String) :
    ((replay g as).cell? x).isSome = (g.cell? x).isSome := by
  induction as generalizing g with
  | nil => rfl
  | cons a as ih => exact (ih _).trans (a.isSome_cell?_apply g x)

theorem Act.scopes_apply (a : Act σ β) (ha : a.Starts g) :
    (a.apply g).scopes = a.scopes g.scopes := by
  cases a with
  | get name =>
    rw [apply, Graph.read]
    split <;> rfl
  | start id =>
    obtain ⟨b, hb⟩ := ha
    exact (Graph.start_some hb).2.1
  | _ => rfl

theorem note_none (ids : List Nat) : note ids none = ids := List.append_nil ids

theorem subscribers_read_eq (g : Graph σ β) (name : String) {x : String}
    (hx : (g.cell? x).isSome = true) : (g.read name).2.subscribers x =
      note (g.subscribers x) (if name = x then innermost g.scopes else none) := by
  obtain ⟨c, hc⟩ := Option.isSome_iff_exists.mp hx
  rw [Graph.read, observer?_eq_innermost]
  cases innermost g.scopes with
  | none => rw [ite_self, note_none]
  | some id =>
    simp only [Graph.subscribers, Graph.cell?_updateCell, hc]
    by_cases hname : name = x
    · simp [hname, subscribers_subscribe]
    · simp [hname, Ne.symm hname, note_none]

/-- Only a reading makes a subscriber, and it makes the innermost scope one. -/
theorem Act.subscribers_apply (a : Act σ β) {x : String} (hx : (g.cell? x).isSome = true) :
    (a.apply g).subscribers x = note (g.subscribers x) (a.reader? x g.scopes) := by
  cases a with
  | get name => exact subscribers_read_eq g name hx
  | set name value => exact (g.subscribers_write name value x).trans (note_none _).symm
  | start id =>
    exact (Graph.subscribers_of_cells (g.cells_start id) x).trans (note_none _).symm
  | _ => exact (note_none _).symm

theorem Faithful.step (h : Faithful past g) {a : Act σ β} (ha : a.Starts g) :
    Faithful (past ++ [a]) (a.apply g) where
  scopes := by rw [a.scopes_apply ha, h.scopes, openScopes_concat]
  subscribers x hx := by
    rw [a.isSome_cell?_apply] at hx
    rw [a.subscribers_apply hx, h.subscribers x hx, readers_concat, eraseDups_note, h.scopes]
    rfl

/-- `Proceeds g as g'`: the acts lead from `g` to `g'`, and no effect is started that is running. -/
inductive Proceeds : Graph σ β → List (Act σ β) → Graph σ β → Prop where
  | nil (g : Graph σ β) : Proceeds g [] g
  | cons {g g' : Graph σ β} {a : Act σ β} {as : List (Act σ β)} (ha : a.Starts g)
      (hrest : Proceeds (a.apply g) as g') : Proceeds g (a :: as) g'

namespace Proceeds

theorem one {a : Act σ β} (ha : a.Starts g) : Proceeds g [a] (a.apply g) := .cons ha (.nil _)

theorem append {g₁ : Graph σ β} {as' : List (Act σ β)} (h : Proceeds g as g₁)
    (h' : Proceeds g₁ as' g') :
    Proceeds g (as ++ as') g' := by
  induction h with
  | nil => exact h'
  | cons ha _ ih => exact .cons ha (ih h')

theorem replay_eq (h : Proceeds g as g') : replay g as = g' := by
  induction h with
  | nil => rfl
  | cons _ _ ih => exact ih

/-- The graph is faithful at every point on the way. -/
theorem faithful (h : Proceeds g as g') (hpast : Faithful past g) {front : List (Act σ β)}
    (hfront : front <+: as) : Faithful (past ++ front) (replay g front) := by
  induction h generalizing past front with
  | nil =>
    rw [List.prefix_nil.mp hfront, List.append_nil]
    exact hpast
  | @cons g g' a as ha _ ih =>
    rcases List.prefix_cons_iff.mp hfront with rfl | ⟨front, rfl, hrest⟩
    · rw [List.append_nil]
      exact hpast
    · rw [List.append_cons]
      exact ih (hpast.step ha) hrest

end Proceeds

/-! ### The acts of programs -/

/-- What is to be run. -/
inductive Job where
  | program (p : Program)
  | effect (id : Nat)
  | effects (ids : List Nat)

/-- `Course t g as r g'`: the job leads from `g` to `g'` through the acts `as`, with the result `r`
    if it is a program. -/
inductive Course : Job → Graph Int Program → List (Act Int Program) → List Int →
    Graph Int Program → Prop where
  | done (r : List Int) (g : Graph Int Program) : Course (.program (.done r)) g [] r g
  | get {g g' : Graph Int Program} {x : String} {next : Int → Program} {as : List (Act Int Program)}
      {r : List Int} (hnext : Course (.program (next ((g.peek? x).getD 0))) (g.read x).2 as r g') :
      Course (.program (.get x next)) g (.get x :: as) r g'
  | peek {g g' : Graph Int Program} {x : String} {next : Int → Program}
      {as : List (Act Int Program)}
      {r : List Int} (hnext : Course (.program (next ((g.peek? x).getD 0))) g as r g') :
      Course (.program (.peek x next)) g (.peek x :: as) r g'
  /-- A write is followed by the runs of the subscribers. -/
  | set {g g₁ g' : Graph Int Program} {x : String} {v : Int} {next : Program}
      {as as' : List (Act Int Program)} {r : List Int}
      (hruns : Course (.effects (g.write x v).1) (g.write x v).2 as [] g₁)
      (hnext : Course (.program next) g₁ as' r g') :
      Course (.program (.set x v next)) g (.set x v :: (as ++ as')) r g'
  | untracked {g g₁ g' : Graph Int Program} {body : Program} {next : List Int → Program}
      {as as' : List (Act Int Program)} {r r' : List Int}
      (hbody : Course (.program body) g.openUntracked as r g₁)
      (hnext : Course (.program (next r)) g₁.closeScope as' r' g') :
      Course (.program (.untracked body next)) g
        (.openUntracked :: (as ++ .closeUntracked :: as')) r' g'
  | effect {g g₁ g' : Graph Int Program} {body next : Program} {as as' : List (Act Int Program)}
      {r : List Int} (hrun : Course (.effect (g.register body).1) (g.register body).2 as [] g₁)
      (hnext : Course (.program next) g₁ as' r g') :
      Course (.program (.effect body next)) g (.register body :: (as ++ as')) r g'
  | log {g g' : Graph Int Program} {line : String} {next : Program} {as : List (Act Int Program)}
      {r : List Int} (hnext : Course (.program next) g as r g') :
      Course (.program (.log line next)) g as r g'
  /-- An effect that is running is passed over. -/
  | pass {g : Graph Int Program} {id : Nat} (hstart : (g.start id).1 = none) :
      Course (.effect id) g [] [] g
  | run {g g₁ : Graph Int Program} {id : Nat} {body : Program} {as : List (Act Int Program)}
      {r : List Int} (hstart : (g.start id).1 = some body)
      (hbody : Course (.program body) (g.start id).2 as r g₁) :
      Course (.effect id) g (.start id :: (as ++ [.finish id body])) [] (g₁.finish id body)
  | none (g : Graph Int Program) : Course (.effects []) g [] [] g
  | each {g g₁ g' : Graph Int Program} {id : Nat} {ids : List Nat} {as as' : List (Act Int Program)}
      (hrun : Course (.effect id) g as [] g₁) (hrest : Course (.effects ids) g₁ as' [] g') :
      Course (.effects (id :: ids)) g (as ++ as') [] g'

namespace Course

variable {t : Job} {g g' : Graph Int Program} {as : List (Act Int Program)} {r : List Int}

theorem proceeds (h : Course t g as r g') : Proceeds g as g' := by
  induction h with
  | done r g => exact .nil g
  | get _ ih => exact .cons trivial ih
  | peek _ ih => exact .cons trivial ih
  | set _ _ ihruns ihnext => exact .cons trivial (ihruns.append ihnext)
  | untracked _ _ ihbody ihnext => exact .cons trivial (ihbody.append (.cons trivial ihnext))
  | effect _ _ ihrun ihnext => exact .cons trivial (ihrun.append ihnext)
  | log _ ih => exact ih
  | pass _ => exact .nil _
  | run hstart _ ih => exact .cons ⟨_, hstart⟩ (ih.append (.one trivial))
  | none g => exact .nil g
  | each _ _ ihrun ihrest => exact ihrun.append ihrest

/-- Whatever is run closes the scopes that it opens, and no others. -/
theorem scopes_eq (h : Course t g as r g') : g'.scopes = g.scopes := by
  induction h with
  | done | pass | none => rfl
  | @get g _ x _ _ _ _ ih => exact ih.trans (Act.scopes_apply (.get x) trivial)
  | peek _ ih => exact ih
  | set _ _ ihruns ihnext => exact ihnext.trans ihruns
  | untracked _ _ ihbody ihnext =>
    rw [ihnext, Graph.closeScope, ihbody]
    rfl
  | effect _ _ ihrun ihnext => exact ihnext.trans ihrun
  | log _ ih => exact ih
  | run hstart _ ih =>
    rw [Graph.finish, ih, (Graph.start_some hstart).2.1]
    rfl
  | each _ _ ihrun ihrest => exact ihrest.trans ihrun

end Course

/-- Every run of an effect has a course. -/
def Courses (exec : Nat → Net Unit) : Prop :=
  ∀ id n n', (exec id).run n = some ((), n') → ∃ as, Course (.effect id) n.graph as [] n'.graph

theorem Courses.executeAll {exec : Nat → Net Unit} (hexec : Courses exec) {ids : List Nat}
    {n n' : Network} (h : (executeAll exec ids).run n = some ((), n')) :
    ∃ as, Course (.effects ids) n.graph as [] n'.graph := by
  induction ids generalizing n with
  | nil =>
    cases h
    exact ⟨[], .none _⟩
  | cons id ids ih =>
    obtain ⟨⟨⟨⟩, n₁⟩, hrun, hrest⟩ := Option.bind_eq_some_iff.mp h
    obtain ⟨as, has⟩ := hexec id n n₁ hrun
    obtain ⟨as', has'⟩ := ih hrest
    exact ⟨as ++ as', .each has has'⟩

theorem Courses.runWith {exec : Nat → Net Unit} (hexec : Courses exec) (p : Program)
    {n n' : Network} {r : List Int} (h : (p.runWith exec).run n = some (r, n')) :
    ∃ as, Course (.program p) n.graph as r n'.graph := by
  induction p generalizing n n' r with
  | done result =>
    cases h
    exact ⟨[], .done _ _⟩
  | get x next ih =>
    obtain ⟨as, has⟩ := ih _ (n := ⟨(n.graph.read x).2, n.lines⟩) h
    exact ⟨_, .get has⟩
  | peek x next ih =>
    obtain ⟨as, has⟩ := ih _ (n := n) h
    exact ⟨_, .peek has⟩
  | set x v next ih =>
    obtain ⟨⟨⟨⟩, n₁⟩, hruns, hnext⟩ := Option.bind_eq_some_iff.mp h
    obtain ⟨as, has⟩ := hexec.executeAll (n := ⟨(n.graph.write x v).2, n.lines⟩) hruns
    obtain ⟨as', has'⟩ := ih hnext
    exact ⟨_, .set has has'⟩
  | untracked body next ihbody ihnext =>
    obtain ⟨⟨r₁, n₁⟩, hstretch, hnext⟩ := Option.bind_eq_some_iff.mp h
    obtain ⟨⟨r₀, n₀⟩, hbody, hclose⟩ := Option.bind_eq_some_iff.mp hstretch
    cases hclose
    obtain ⟨as, has⟩ := ihbody (n := ⟨n.graph.openUntracked, n.lines⟩) hbody
    obtain ⟨as', has'⟩ := ihnext _ hnext
    exact ⟨_, .untracked has has'⟩
  | effect body next _ ih =>
    obtain ⟨⟨⟨⟩, n₁⟩, hrun, hnext⟩ := Option.bind_eq_some_iff.mp h
    obtain ⟨as, has⟩ := hexec _ ⟨(n.graph.register body).2, n.lines⟩ n₁ hrun
    obtain ⟨as', has'⟩ := ih hnext
    exact ⟨_, .effect has has'⟩
  | log line next ih =>
    obtain ⟨as, has⟩ := ih (n := ⟨n.graph, n.lines ++ [line]⟩) h
    exact ⟨as, .log has⟩

theorem courses_exec (depth : Nat) : Courses (Program.exec depth) := by
  induction depth with
  | zero => nofun
  | succ depth ih =>
    intro id n n' h
    rw [Program.exec, Flow.run_execute_network] at h
    rcases hstart : n.graph.start id with ⟨started, g⟩
    have hbody : (n.graph.start id).1 = started := by rw [hstart]
    have hgraph : (n.graph.start id).2 = g := by rw [hstart]
    rw [hstart] at h
    cases started with
    | none =>
      cases h
      refine ⟨[], ?_⟩
      rw [← hgraph, Graph.start_none hbody]
      exact .pass hbody
    | some body =>
      obtain ⟨⟨_, n₁⟩, hrun, hfinish⟩ := Option.bind_eq_some_iff.mp h
      obtain ⟨⟨r, n₁⟩, hprogram, hkeeps⟩ := Option.bind_eq_some_iff.mp hrun
      cases hkeeps
      cases hfinish
      obtain ⟨as, has⟩ := ih.runWith body hprogram
      rw [← hgraph] at has
      exact ⟨_, .run hbody has⟩

theorem exists_course {p : Program} {depth : Nat} {n n' : Network} {r : List Int}
    (h : (p.run depth).run n = some (r, n')) : ∃ as, Course (.program p) n.graph as r n'.graph :=
  (courses_exec depth).runWith p h

theorem faithful_ofValues (values : List (String × σ)) :
    Faithful [] (.ofValues values : Graph σ β) where
  scopes := rfl
  subscribers x _ := Graph.subscribers_ofValues values x

/-- **A signal is watched by exactly the effects that have read it in their own scope.**  Programs
    nest effects, untracked stretches, readings and writes in any way.  A run leaves the scopes as
    they were.  At every point of a run that comes to an end, the scopes of the graph are those that
    the acts so far have opened and not closed, and the subscribers of a signal are the effects
    whose run was the innermost scope when it was read, each once, in the order of their first
    readings of it. -/
theorem subscriptions_exact (values : List (String × Int)) (p : Program) (depth : Nat) :
    (∀ n r n', (p.run depth).run n = some (r, n') → n'.graph.scopes = n.graph.scopes) ∧
      ∀ r n', (p.run depth).run (.ofValues values) = some (r, n') →
        ∃ as, Course (.program p) (.ofValues values) as r n'.graph ∧
          replay (.ofValues values) as = n'.graph ∧
          ∀ past, past <+: as →
            (replay (.ofValues values) past).scopes = openScopes past ∧
              ∀ x ∈ values.map (·.1),
                (replay (.ofValues values) past).subscribers x = (readers x [] past).eraseDups := by
  constructor
  · intro n r n' h
    obtain ⟨as, has⟩ := exists_course h
    exact has.scopes_eq
  · intro r n' h
    obtain ⟨as, has⟩ := exists_course h
    refine ⟨as, has, has.proceeds.replay_eq, fun past hpast => ?_⟩
    have hfaithful := has.proceeds.faithful (faithful_ofValues values) hpast
    refine ⟨hfaithful.scopes, fun x hx => hfaithful.subscribers x ?_⟩
    rw [isSome_cell?_replay]
    exact Graph.isSome_cell?_ofValues hx

/-- An effect reads a signal, and inside an untracked stretch it registers another one and looks at
    a second signal; later the first signal is set, which runs it again. -/
def nest : Program :=
  .effect
    (.get "a" fun _ =>
      .untracked
        (.effect (.get "b" fun _ => .done []) (.get "b" fun v => .done [v]))
        fun _ => .done [])
    (.set "a" 1 (.get "a" fun v => .done [v]))

theorem subscriptions_exact_nest : ∃ n as,
    (nest.run 3).run (.ofValues [("a", 0), ("b", 0)]) = some ([1], n) ∧
      Course (.program nest) (.ofValues [("a", 0), ("b", 0)]) as [1] n.graph ∧
      n.graph.subscribers "a" = [0] ∧ n.graph.subscribers "b" = [1, 2] ∧
      (readers "a" [] as).eraseDups = [0] ∧ (readers "b" [] as).eraseDups = [1, 2] := by
  have hsome : ((nest.run 3).run (.ofValues [("a", 0), ("b", 0)])).map (fun r =>
      (r.1, r.2.graph.subscribers "a", r.2.graph.subscribers "b")) = some ([1], [0], [1, 2]) := by
    decide +kernel
  obtain ⟨⟨r, n⟩, hrun, hresult⟩ := Option.map_eq_some_iff.mp hsome
  obtain ⟨rfl, ha, hb⟩ : r = [1] ∧ n.graph.subscribers "a" = [0] ∧
      n.graph.subscribers "b" = [1, 2] := by
    simpa only [Prod.mk.injEq] using hresult
  obtain ⟨-, hexact⟩ := subscriptions_exact [("a", 0), ("b", 0)] nest 3
  obtain ⟨as, hcourse, hreplay, hpoints⟩ := hexact [1] n hrun
  obtain ⟨-, hreaders⟩ := hpoints as List.prefix_rfl
  rw [hreplay] at hreaders
  refine ⟨n, as, hrun, hcourse, ha, hb, ?_, ?_⟩
  · rw [← hreaders "a" (by decide), ha]
  · rw [← hreaders "b" (by decide), hb]

end Stencil.Signal
