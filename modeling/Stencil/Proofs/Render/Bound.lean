/-
  Stencil/Proofs/Render/Bound.lean
  ================================
  **What a container looks like whose values are read.**

  The entries of the reading are the bindings of the container in the order in which they
  are made, each with the yield that it shows.  A hole with a reader is the content that
  looks like the yield, and its marker behind it; an element wears what its attributes
  write, where an attribute with a reader writes what the reader yields (`Worn`).

  `shows_alike` is what the reading is for.  If every binding shows what its reader yields
  now, the reading leaves nothing open but the order of attributes: two documents that
  are read in this way look alike.
-/
import Stencil.Proofs.Attribute.Write
import Stencil.Proofs.Render.Direct
import Stencil.Proofs.Render.Yield

namespace Stencil

open Document Document.Plant Markup

namespace Document

/-! ### Trees that look alike -/

mutual

/-- Trees that differ in the order of attributes at most. -/
def Tree.Alike : Tree → Tree → Prop
  | .element name space as ts, .element name' space' as' ts' =>
    name = name' ∧ space = space' ∧ (∀ k, findAttribute as k = findAttribute as' k) ∧
      AlikeAll ts ts'
  | .text value, .text value' => value = value'
  | .comment value, .comment value' => value = value'
  | .fragment ts, .fragment ts' => AlikeAll ts ts'
  | _, _ => False

/-- Lists of trees that look alike one by one. -/
def AlikeAll : List Tree → List Tree → Prop
  | [], [] => True
  | t :: ts, t' :: ts' => t.Alike t' ∧ AlikeAll ts ts'
  | _, _ => False

end

mutual

theorem Tree.Alike.refl : ∀ t : Tree, t.Alike t
  | .element _ _ _ ts => ⟨rfl, rfl, fun _ => rfl, AlikeAll.refl ts⟩
  | .text _ => rfl
  | .comment _ => rfl
  | .fragment ts => AlikeAll.refl ts

theorem AlikeAll.refl : ∀ ts : List Tree, AlikeAll ts ts
  | [] => trivial
  | t :: ts => ⟨Tree.Alike.refl t, AlikeAll.refl ts⟩

end

theorem AlikeAll.append {ts ts' us us' : List Tree} (h : AlikeAll ts ts') (h' : AlikeAll us us') :
    AlikeAll (ts ++ us) (ts' ++ us') := by
  induction ts generalizing ts' with
  | nil =>
    cases ts' with
    | nil => exact h'
    | cons t' ts' => exact h.elim
  | cons t ts ih =>
    cases ts' with
    | nil => exact h.elim
    | cons t' ts' => exact ⟨h.1, ih h.2⟩

end Document

namespace Render

/-! ### Bindings and what they show -/

/-- The reader of a binding. -/
def Binding.reader : Binding → Reader
  | .attribute _ _ _ r => r
  | .spread _ _ r => r
  | .content _ r _ => r

/-- A binding with the yield that it shows. -/
abbrev Bound := Binding × Yield

/-- A binding shows what its reader yields, and these signals have been read for it. -/
def Current (σ : String → Script) (n : Nat) (b : Bound) (reads : List String) : Prop :=
  showReader σ n b.1.reader = some ⟨b.2, reads⟩

/-- A value applied under an attribute name. -/
def writeOf (f : Factory) (name : String) (v : Value) : Write :=
  ⟨(f.policy.resolve name).1.setter, (f.policy.resolve name).2, v⟩

/-- What the fixed attributes of a tag write that its skeleton has already. -/
def preboundWrites (f : Factory) (tag : Tag) : List Write :=
  (f.preboundAttrs tag).filterMap fun a => a.name?.map fun name => writeOf f name a.fixedValue

/-- `Worn f values id as bs ws`: the attributes `as` of the element `id` have the bindings `bs`
    and write `ws`. -/
inductive Worn (f : Factory) (values : List Value) (id : NodeId) :
    List Attr → List Bound → List Write → Prop where
  | nil : Worn f values id [] [] []
  | still {a : Attr} {name : String} {as : List Attr} {bs : List Bound} {ws : List Write}
      (hname : a.name? = some name) (hvalue : (attrValue values a).isReactive = false)
      (h : Worn f values id as bs ws) :
      Worn f values id (a :: as) bs (writeOf f name (attrValue values a) :: ws)
  | moving {a : Attr} {name : String} {r : Reader} {y : Yield} {v : Value} {as : List Attr}
      {bs : List Bound} {ws : List Write} (hname : a.name? = some name)
      (hvalue : attrValue values a = .reactive r) (hy : y.scalar? = some v)
      (h : Worn f values id as bs ws) :
      Worn f values id (a :: as)
        ((.attribute id (writeOf f name v).setter (writeOf f name v).name r, y) :: bs)
        (writeOf f name v :: ws)

/-- The reading of a container whose values are read. -/
def liveReading (f : Factory) (values : List Value) : Reading Bound where
  hole i ts bs :=
    match valueAt values i with
    | .reactive r => ∃ m cur y, ts = cur ++ [leaf m (.comment "")] ∧
        bs = [(.content m r (roots cur), y)] ∧ Plant.trees cur = y.trees
    | v => bs = [] ∧ Plant.trees ts = v.shownTexts.map .text
  element tag id e bs :=
    e.name = tag.name ∧ e.space = (if tag.svg then .svg else .html) ∧
      ∃ ws, Worn f values id (f.boundAttrs tag) bs ws ∧
        Wears f.config (ws ++ preboundWrites f tag) e.attributes
  component _ _ _ _ := False

/-! ### Attributes -/

/-- The attribute that an attribute of a tag writes. -/
def targetOf (f : Factory) (a : Attr) : Option String :=
  a.name?.bind fun name => (f.policy.resolve name).1.setter.target? (f.policy.resolve name).2

theorem targets_worn {f : Factory} {values : List Value} {id : NodeId} {as : List Attr}
    {bs : List Bound} {ws : List Write} (h : Worn f values id as bs ws) :
    ws.filterMap Write.target? = as.filterMap (targetOf f) := by
  induction h with
  | nil => rfl
  | @still a name as bs ws hname hvalue _ ih =>
    have hone : (writeOf f name (attrValue values a)).target? = targetOf f a := by
      rw [targetOf, hname]
      rfl
    rw [List.filterMap_cons, List.filterMap_cons, hone, ih]
  | @moving a name r y v as bs ws hname hvalue _ _ ih =>
    have hone : (writeOf f name v).target? = targetOf f a := by
      rw [targetOf, hname]
      rfl
    rw [List.filterMap_cons, List.filterMap_cons, hone, ih]

theorem worn_append {f : Factory} {values : List Value} {id : NodeId} {as as' : List Attr}
    {bs bs' : List Bound} {ws ws' : List Write} (h : Worn f values id as bs ws)
    (h' : Worn f values id as' bs' ws') : Worn f values id (as ++ as') (bs ++ bs') (ws ++ ws') := by
  induction h with
  | nil => exact h'
  | still hname hvalue _ ih => exact .still hname hvalue ih
  | moving hname hvalue hy _ ih => exact .moving hname hvalue hy ih

/-- What is worn depends on what the readers yield only. -/
theorem worn_unique {f : Factory} {values : List Value} {id id' : NodeId} {as : List Attr}
    {bs bs' : List Bound} {ws ws' : List Write} {σ : String → Script} {n n' : Nat}
    (h : Worn f values id as bs ws) (h' : Worn f values id' as bs' ws')
    (hbs : ∀ b ∈ bs, ∃ reads, Current σ n b reads)
    (hbs' : ∀ b ∈ bs', ∃ reads, Current σ n' b reads) : ws = ws' := by
  induction h generalizing bs' ws' with
  | nil =>
    cases h'
    rfl
  | still hname hvalue _ ih =>
    cases h' with
    | still hname' _ h' =>
      obtain rfl := Option.some.inj (hname.symm.trans hname')
      rw [ih h' hbs hbs']
    | moving hname' hvalue' _ h' =>
      rw [hvalue'] at hvalue
      cases hvalue
  | moving hname hvalue hy _ ih =>
    cases h' with
    | still hname' hvalue' h' =>
      rw [hvalue] at hvalue'
      cases hvalue'
    | moving hname' hvalue' hy' h' =>
      obtain ⟨⟨reads, hself⟩, hrest⟩ := List.forall_mem_cons.mp hbs
      obtain ⟨⟨reads', hself'⟩, hrest'⟩ := List.forall_mem_cons.mp hbs'
      obtain rfl := Option.some.inj (hname.symm.trans hname')
      obtain rfl : _ = _ := Value.reactive.inj (hvalue.symm.trans hvalue')
      have heq := showReader_unique hself hself'
      obtain ⟨rfl, -⟩ := by simpa using heq
      obtain rfl := Option.some.inj (hy.symm.trans hy')
      rw [ih h' hrest hrest']

/-- One of the readers yields something else. -/
theorem worn_split {f : Factory} {values : List Value} {id : NodeId} {as : List Attr}
    {bs pre post : List Bound} {x : Bound} {ws : List Write} (h : Worn f values id as bs ws)
    (hbs : bs = pre ++ x :: post) :
    ∃ a ∈ as, ∃ name r v front back, a.name? = some name ∧ attrValue values a = .reactive r ∧
      x.1 = .attribute id (writeOf f name v).setter (writeOf f name v).name r ∧
      ws = front ++ writeOf f name v :: back ∧
      ∀ y' v', y'.scalar? = some v' → Worn f values id as (pre ++ (x.1, y') :: post)
        (front ++ writeOf f name v' :: back) := by
  induction h generalizing pre with
  | nil => simp at hbs
  | @still a name as bs ws hname hvalue h ih =>
    obtain ⟨b, hb, name', r, v, front, back, hname', hvalue', hx, rfl, hnext⟩ := ih hbs
    exact ⟨b, List.mem_cons_of_mem _ hb, name', r, v, _ :: front, back, hname', hvalue', hx, rfl,
      fun y' v' hy' => .still hname hvalue (hnext y' v' hy')⟩
  | @moving a name r y v as bs ws hname hvalue hy h ih =>
    cases pre with
    | nil =>
      obtain ⟨rfl, rfl⟩ := by simpa using hbs
      exact ⟨a, List.mem_cons_self, name, r, v, [], ws, hname, hvalue, rfl, rfl,
        fun y' v' hy' => .moving hname hvalue hy' h⟩
    | cons b pre =>
      rw [List.cons_append] at hbs
      obtain ⟨rfl, hrest⟩ := List.cons.inj hbs
      obtain ⟨b, hb, name', r', v', front, back, hname', hvalue', hx, rfl, hnext⟩ := ih hrest
      exact ⟨b, List.mem_cons_of_mem _ hb, name', r', v', _ :: front, back, hname', hvalue',
        hx, rfl, fun y'' v'' hy'' => .moving hname hvalue hy (hnext y'' v'' hy'')⟩

/-! ### Documents that look alike -/

/-- Two documents that show what the readers yield look alike. -/
theorem shows_alike {f : Factory} {values : List Value} {ns : List Node}
    {ts ts' : List (Plant Value Action)} {bs bs' : List Bound} {σ : String → Script} {n n' : Nat}
    (h : Shows f.toSetup (liveReading f values) ns ts bs)
    (h' : Shows f.toSetup (liveReading f values) ns ts' bs')
    (hbs : ∀ b ∈ bs, ∃ reads, Current σ n b reads)
    (hbs' : ∀ b ∈ bs', ∃ reads, Current σ n' b reads) :
    AlikeAll (Plant.trees ts) (Plant.trees ts') := by
  induction h generalizing ts' bs' with
  | nil =>
    cases h'
    trivial
  | text id value _ ih =>
    cases h' with
    | text id' _ h' => exact ⟨rfl, ih h' hbs hbs'⟩
  | @hole i ns us ts as bs hi _ ih =>
    cases h' with
    | @hole _ _ us' ts' as' bs' hi' h' =>
      obtain ⟨hbs₁, hbs₂⟩ := List.forall_mem_append.mp hbs
      obtain ⟨hbs₁', hbs₂'⟩ := List.forall_mem_append.mp hbs'
      rw [trees_append, trees_append]
      refine AlikeAll.append ?_ (ih h' hbs₂ hbs₂')
      have hplain (v : Value) (hv : valueAt values i = v) (hreader : v.isReactive = false) :
          Plant.trees us = Plant.trees us' := by
        have hone : Plant.trees us = v.shownTexts.map .text := by
          cases v <;> simp only [liveReading, hv] at hi <;>
            first | exact hi.2 | cases hreader
        have htwo : Plant.trees us' = v.shownTexts.map .text := by
          cases v <;> simp only [liveReading, hv] at hi' <;>
            first | exact hi'.2 | cases hreader
        rw [hone, htwo]
      have hsame : Plant.trees us = Plant.trees us' := by
        rcases hv : valueAt values i with _ | _ | _ | _ | _ | _ | r | _ | _ | _ | _
        case reactive =>
          simp only [liveReading, hv] at hi hi'
          obtain ⟨m, cur, y, rfl, rfl, htrees⟩ := hi
          obtain ⟨m', cur', y', rfl, rfl, htrees'⟩ := hi'
          obtain ⟨reads, hself⟩ := hbs₁ _ List.mem_cons_self
          obtain ⟨reads', hself'⟩ := hbs₁' _ List.mem_cons_self
          have heq := showReader_unique hself hself'
          obtain ⟨rfl, -⟩ := by simpa using heq
          rw [trees_append, trees_append, htrees, htrees']
          rfl
        all_goals exact hplain _ hv rfl
      rw [hsame]
      exact AlikeAll.refl _
  | component hc hcomponent _ _ => exact hcomponent.elim
  | @element tag id e children ns cs ts as bs' bs hc htag _ _ ihchildren ih =>
    cases h' with
    | component hc' _ _ =>
      rw [hc] at hc'
      cases hc'
    | element hc' htag' hchildren' h' =>
      obtain ⟨hbs₁, hbs₂⟩ := List.forall_mem_append.mp hbs
      obtain ⟨hbs₁', hbs₂'⟩ := List.forall_mem_append.mp hbs'
      obtain ⟨hself, hbelow⟩ := List.forall_mem_append.mp hbs₁
      obtain ⟨hself', hbelow'⟩ := List.forall_mem_append.mp hbs₁'
      obtain ⟨hname, hspace, ws, hworn, hwears⟩ := htag
      obtain ⟨hname', hspace', ws', hworn', hwears'⟩ := htag'
      obtain rfl := worn_unique hworn hworn' hself hself'
      exact ⟨⟨hname.trans hname'.symm, hspace.trans hspace'.symm, hwears.unique hwears',
        ihchildren hchildren' hbelow hbelow'⟩, ih h' hbs₂ hbs₂'⟩

end Render
end Stencil
