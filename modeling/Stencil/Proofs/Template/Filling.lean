/-
  Stencil/Proofs/Template/Filling.lean
  ====================================
  **When compiling succeeds, and which skeletons it makes.**

  A capitalized element without a component is looked for only where the container around
  it has a skeleton.  No such element gets by: it is itself an element that no component
  renders, so the container around it has one.  What comes of building some nodes is
  therefore decided by the first of their elements that is refused (`ends_buildNodes`).

  The skeletons lie in a table with a place for each slot.  Building nodes fills in the
  slots of the components among them whose content needs a skeleton, and leaves all
  other places as they are (`fills_of_numbered`).

  `materialize_spec` is both, for the tree of a list of tokens.
-/
import Mathlib.Data.List.Find
import Stencil.Proofs.Markup.Structure
import Stencil.Proofs.Template.Skeleton

namespace Stencil.Setup

open Document Markup

variable {κ α β : Type} {s : Setup κ}

/-! ### How building ends -/

/-- The action ends in the error, if one is given, and in a result with `Q` if not. -/
def Ends (x : Making α) : Option TemplateError → (α → Prop) → Prop
  | none, Q => ∀ w, ∃ a w', x.run w = (.ok a, w') ∧ Q a
  | some e, _ => ∀ w, ∃ w', x.run w = (.error e, w')

theorem making_bind_error {x : Making α} {w w₁ : Workshop} {e : TemplateError}
    (h : x.run w = (.error e, w₁)) (g : α → Making β) : (x >>= g).run w = (.error e, w₁) := by
  change (match x.run w with | (r, w₁) => ExceptT.bindCont g r w₁) = _
  rw [h]
  rfl

namespace Ends

/-- Of two actions, the error of the first one counts if it has one. -/
theorem bind {x : Making α} {g : α → Making β} {e e' : Option TemplateError} {Q : α → Prop}
    {R : β → Prop} (h : Ends x e Q) (h' : ∀ a, Q a → Ends (g a) e' R) :
    Ends (x >>= g) (e.or e') R := by
  cases e with
  | some e =>
    intro w
    obtain ⟨w', hrun⟩ := h w
    exact ⟨w', making_bind_error hrun g⟩
  | none =>
    rw [Option.none_or]
    cases e' with
    | some e' =>
      intro w
      obtain ⟨a, w₁, hrun, ha⟩ := h w
      rw [making_bind hrun]
      exact h' a ha w₁
    | none =>
      intro w
      obtain ⟨a, w₁, hrun, ha⟩ := h w
      rw [making_bind hrun]
      exact h' a ha w₁

theorem of_succeeds {x : Making α} (h : Succeeds x) : Ends x none fun _ => True := fun w =>
  let ⟨a, w', hrun⟩ := h w
  ⟨a, w', hrun, trivial⟩

theorem pure {a : α} {Q : α → Prop} (ha : Q a) : Ends (Pure.pure a) none Q :=
  fun w => ⟨a, w, rfl, ha⟩

end Ends

/-- A container without a skeleton has no element that needs one. -/
def Suits (s : Setup κ) (ns : List Node) (parent : Option NodeId) : Prop :=
  parent = none → s.needsSkeleton ns = false

namespace Suits

variable {parent : Option NodeId} {n : Node} {ns : List Node}

theorem head (h : s.Suits (n :: ns) parent) : s.Suits [n] parent := fun hnone => by
  have hboth := h hnone
  rw [needsSkeleton_cons, Bool.or_eq_false_iff] at hboth
  rw [needsSkeleton_cons, hboth.1]
  rfl

theorem tail (h : s.Suits (n :: ns) parent) : s.Suits ns parent := fun hnone => by
  have hboth := h hnone
  rw [needsSkeleton_cons, Bool.or_eq_false_iff] at hboth
  exact hboth.2

theorem some (ns : List Node) (p : NodeId) : s.Suits ns (some p) := nofun

/-- Only components stand directly in a container without a skeleton. -/
theorem isComponent {tag : Tag} {children : List Node}
    (h : s.Suits [.element tag children] none) : s.registry.isComponent tag = true := by
  simpa [needsSkeleton, isPlainElement] using h rfl

end Suits

/-- Whether an element ends compiling: it has a slot and no component, and components are
    strict. -/
def refuses (s : Setup κ) (tag : Tag) : Bool :=
  tag.slot.isSome && !s.registry.isComponent tag && s.config.strict

/-- The error of the first element that is refused. -/
def refusal? (s : Setup κ) (elements : List (Tag × List Node)) : Option TemplateError :=
  (elements.find? fun e => s.refuses e.1).map fun e => .unknownComponent e.1.name

theorem refusal?_cons (e : Tag × List Node) (es : List (Tag × List Node)) :
    s.refusal? (e :: es) =
      (if s.refuses e.1 then some (.unknownComponent e.1.name) else none).or (s.refusal? es) := by
  rw [refusal?, List.find?_cons]
  cases s.refuses e.1 <;> rfl

theorem refusal?_append (es es' : List (Tag × List Node)) :
    s.refusal? (es ++ es') = (s.refusal? es).or (s.refusal? es') := by
  rw [refusal?, List.find?_append, Option.map_or]
  rfl

theorem refuses_of_isComponent {tag : Tag} (h : s.registry.isComponent tag = true) :
    s.refuses tag = false := by
  simp [refuses, h]

theorem isSome_slot_of_isComponent {tag : Tag} (h : s.registry.isComponent tag = true) :
    tag.slot.isSome = true := by
  by_contra hno
  simp [Registry.isComponent, Registry.componentFor?, hno] at h

theorem ends_checkComponent (tag : Tag) :
    Ends (s.checkComponent tag)
      (if s.refuses tag then some (.unknownComponent tag.name) else none) fun _ => True := by
  unfold checkComponent refuses
  split
  · exact fun w => ⟨w, rfl⟩
  · exact .pure trivial

theorem ends_makeTop (ns : List Node) : Ends (s.makeTop ns) none (s.Suits ns) := by
  rw [makeTop]
  split
  · exact fun w => ⟨_, _, rfl, Suits.some ns _⟩
  · rename_i hno
    exact .pure fun _ => by simpa using hno

theorem ends_buildSlot {slot : Option Nat} {children : List Node} {e : Option TemplateError}
    (h : ∀ top, s.Suits children top → Ends (s.buildNodes top children) e fun _ => True) :
    Ends (s.buildSlot slot children) e fun _ => True := by
  have hbody (top : Option NodeId) (hsuits : s.Suits children top) :
      Ends (do s.buildNodes top children; fillSlot slot top) e fun _ => True := by
    have hboth := (h top hsuits).bind fun _ _ => Ends.of_succeeds (succeeds_fillSlot slot top)
    rwa [Option.or_none] at hboth
  exact (ends_makeTop children).bind hbody

mutual

/-- Building a node ends in the refusal of its first element that is refused, if there is one. -/
theorem ends_buildNode (s : Setup κ) : ∀ (parent : Option NodeId) (n : Node), s.Suits [n] parent →
    Ends (s.buildNode parent n) (s.refusal? (elementsOf n)) fun _ => True
  | none, .text _, _ => .pure trivial
  | some p, .text _, _ => .of_succeeds ((succeeds_makeIn p _).bind fun _ => Succeeds.pure _)
  | none, .hole _, _ => .pure trivial
  | some p, .hole _, _ => .of_succeeds ((succeeds_makeIn p _).bind fun _ => Succeeds.pure _)
  | parent, .element tag children, h => by
    -- the content of a component is built into its slot
    have hslot (hc : s.registry.isComponent tag = true) : Ends (if tag.slot.isSome = true then do
          let top ← s.makeTop children
          s.buildNodes top children
          fillSlot tag.slot top
        else pure ()) (s.refusal? (elementsOfAll children)) fun _ => True := by
      rw [if_pos (isSome_slot_of_isComponent hc)]
      exact ends_buildSlot fun top => ends_buildNodes s top children
    unfold buildNode
    rw [elementsOf, refusal?_cons]
    cases parent with
    | none =>
      have hc := h.isComponent
      rw [refuses_of_isComponent hc]
      refine (Ends.pure (Q := fun inner => inner = none) rfl).bind fun inner hnone => ?_
      subst hnone
      exact hslot hc
    | some p =>
      refine (ends_checkComponent tag).bind fun _ _ => ?_
      have hplace (c : Content Value Action) : Ends (makeIn p c) none fun _ => True :=
        .of_succeeds (succeeds_makeIn p c)
      split
      · rename_i hc
        refine (hplace _).bind fun _ _ => ?_
        refine (Ends.pure (Q := fun inner => inner = none) rfl).bind fun inner hnone => ?_
        subst hnone
        exact hslot hc
      · refine (hplace _).bind fun id _ => ?_
        refine (Ends.pure (Q := fun inner => inner = some id) rfl).bind fun inner hsome => ?_
        subst hsome
        exact ends_buildNodes s (some id) children (Suits.some _ id)

theorem ends_buildNodes (s : Setup κ) : ∀ (parent : Option NodeId) (ns : List Node),
    s.Suits ns parent →
      Ends (s.buildNodes parent ns) (s.refusal? (elementsOfAll ns)) fun _ => True
  | _, [], _ => .pure trivial
  | parent, n :: ns, h => by
    rw [elementsOfAll, refusal?_append, buildNodes]
    exact (ends_buildNode s parent n h.head).bind fun _ _ => ends_buildNodes s parent ns h.tail

end

/-! ### Which slots are filled in -/

/-- A component among some nodes has the slot `k`, and its content needs a skeleton. -/
def Fitted (s : Setup κ) (ns : List Node) (k : Nat) : Prop :=
  ∃ e ∈ elementsOfAll ns, s.registry.isComponent e.1 = true ∧ e.1.slot = some k ∧
    s.needsSkeleton e.2 = true

theorem fitted_append {ns ms : List Node} {k : Nat} :
    s.Fitted (ns ++ ms) k ↔ s.Fitted ns k ∨ s.Fitted ms k := by
  simp only [Fitted, elementsOfAll_append, List.mem_append, or_and_right, exists_or]

theorem fitted_element {tag : Tag} {children : List Node} {k : Nat} :
    s.Fitted [.element tag children] k ↔
      s.registry.isComponent tag = true ∧ tag.slot = some k ∧ s.needsSkeleton children = true ∨
        s.Fitted children k := by
  simp [Fitted, elementsOfAll, elementsOf]

theorem Fitted.between {k j m : Nat} {ns : List Node} (h : s.Fitted ns m) (hnum : Numbered k ns j) :
    k ≤ m ∧ m < j := by
  obtain ⟨e, he, -, hslot, -⟩ := h
  have hmem : m ∈ (elementsOfAll ns).filterMap (·.1.slot) := List.mem_filterMap.mpr ⟨e, he, hslot⟩
  rw [hnum.slots_eq, List.mem_range'_1] at hmem
  omega

/-- What has come of the table while the nodes `ns`, with the slots from `k` up to `j`, were
    built. -/
structure Fills (s : Setup κ) (w w' : Workshop) (k j : Nat) (ns : List Node) : Prop where
  length_eq : w'.skeletons.length = w.skeletons.length
  others : ∀ m, m < k ∨ j ≤ m → w'.skeleton? m = w.skeleton? m
  filled : (∀ m, k ≤ m → m < j → w.skeleton? m = none) → ∀ m, k ≤ m → m < j →
    ((w'.skeleton? m).isSome = true ↔ s.Fitted ns m)

namespace Fills

variable {w w₁ w' : Workshop} {k i j : Nat} {ns ms : List Node}

/-- Only the document has changed, and there is no slot. -/
theorem of_skeletons_eq (h : w'.skeletons = w.skeletons) : Fills s w w' k k ns :=
  ⟨by rw [h], fun m _ => by rw [Workshop.skeleton?, h]; rfl, fun _ m hk hm => by omega⟩

/-- Only the table counts of what was there before. -/
theorem of_eq (h : Fills s w₁ w' k j ns) (heq : w₁.skeletons = w.skeletons) :
    Fills s w w' k j ns := by
  have hlook (m : Nat) : w.skeleton? m = w₁.skeleton? m := by
    rw [Workshop.skeleton?, ← heq]
    rfl
  refine ⟨h.length_eq.trans (by rw [heq]), fun m hm => by rw [hlook, h.others m hm],
    fun hempty => ?_⟩
  exact h.filled fun m hk hm => by rw [← hlook, hempty m hk hm]

theorem append (h : Fills s w w₁ k i ns) (h' : Fills s w₁ w' i j ms) (hnum : Numbered k ns i)
    (hnum' : Numbered i ms j) : Fills s w w' k j (ns ++ ms) := by
  have hki := hnum.le
  have hij := hnum'.le
  refine ⟨h'.length_eq.trans h.length_eq, fun m hm => ?_, fun hempty m hk hm => ?_⟩
  · rw [h'.others m (by omega), h.others m (by omega)]
  · rw [fitted_append]
    by_cases hmi : m < i
    · have hno : ¬ s.Fitted ms m := fun hfit => by
        have := hfit.between hnum'
        omega
      rw [h'.others m (Or.inl hmi), h.filled (fun m hk hm => hempty m hk (by omega)) m hk hmi]
      simp only [hno, or_false]
    · have hno : ¬ s.Fitted ns m := fun hfit => by
        have := hfit.between hnum
        omega
      have hrest : ∀ m, i ≤ m → m < j → w₁.skeleton? m = none := fun m hi hm => by
        rw [h.others m (Or.inr hi), hempty m (by omega) hm]
      rw [h'.filled hrest m (by omega) hm]
      simp only [hno, false_or]

end Fills

/-- Building the nodes fills in their slots, wherever they are built. -/
def Filling (s : Setup κ) (k j : Nat) (ns : List Node) : Prop :=
  ∀ {parent : Option NodeId} {w w' : Workshop}, s.Suits ns parent →
    (s.buildNodes parent ns).run w = (.ok (), w') → j ≤ w.skeletons.length → Fills s w w' k j ns

/-- A fragment is made for a container if it needs one, and the table stays. -/
theorem makeTop_ok {ns : List Node} {top : Option NodeId} {w w' : Workshop}
    (h : (s.makeTop ns).run w = (.ok top, w')) :
    top.isSome = s.needsSkeleton ns ∧ w'.skeletons = w.skeletons := by
  rw [makeTop] at h
  cases hneeds : s.needsSkeleton ns with
  | true =>
    rw [hneeds] at h
    have heq : ((Except.ok (some w.page.size), { w with page := (w.page.create .fragment).2 }) :
        Except TemplateError (Option NodeId) × Workshop) = (.ok top, w') := h
    obtain ⟨rfl, rfl⟩ := by simpa using heq
    exact ⟨rfl, rfl⟩
  | false =>
    rw [hneeds] at h
    obtain ⟨rfl, rfl⟩ := making_pure_ok h
    exact ⟨rfl, rfl⟩

theorem suits_of_isSome_eq {ns : List Node} {top : Option NodeId}
    (h : top.isSome = s.needsSkeleton ns) : s.Suits ns top := fun hnone => by
  rw [← h, hnone]
  rfl

theorem makeIn_ok {p id : NodeId} {c : Content Value Action} {w w' : Workshop}
    (h : (makeIn p c).run w = (.ok id, w')) : w'.skeletons = w.skeletons := by
  rw [run_makeIn] at h
  obtain ⟨-, rfl⟩ := by simpa using h
  rfl

/-- The slot of a container gets its skeleton after the slots in the container. -/
theorem fills_buildSlot {k j : Nat} {children : List Node} (h : s.Filling (k + 1) j children)
    (hnum : Numbered (k + 1) children j) {w w' : Workshop}
    (hrun : (s.buildSlot (some k) children).run w = (.ok (), w')) (hlen : j ≤ w.skeletons.length) :
    w'.skeletons.length = w.skeletons.length ∧
      (∀ m, m < k ∨ j ≤ m → w'.skeleton? m = w.skeleton? m) ∧
      ((∀ m, k ≤ m → m < j → w.skeleton? m = none) → ∀ m, k ≤ m → m < j →
        ((w'.skeleton? m).isSome = true ↔
          m = k ∧ s.needsSkeleton children = true ∨ s.Fitted children m)) := by
  have hkj := hnum.le
  rw [buildSlot] at hrun
  obtain ⟨top, w₁, htop, hrun⟩ := making_bind_ok hrun
  obtain ⟨_, w₂, hbuild, hfill⟩ := making_bind_ok hrun
  obtain ⟨hneeds, hsame⟩ := makeTop_ok htop
  obtain rfl : w' = { w₂ with skeletons := w₂.skeletons.set k top } :=
    (congrArg Prod.snd hfill).symm
  have hfills := (h (suits_of_isSome_eq hneeds) hbuild (by rwa [hsame])).of_eq hsame
  have hlength := hfills.length_eq
  have hset (m : Nat) : Workshop.skeleton? { w₂ with skeletons := w₂.skeletons.set k top } m =
      if m = k then top else w₂.skeleton? m := by
    by_cases hm : m = k
    · subst hm
      have hlt : m < w₂.skeletons.length := by omega
      simp [Workshop.skeleton?, hlt]
    · simp only [Workshop.skeleton?, List.getElem?_set, if_neg (Ne.symm hm), if_neg hm]
  refine ⟨by simpa using hlength, fun m hm => ?_, fun hempty m hk hm => ?_⟩
  · rw [hset, if_neg (by omega), hfills.others m (by omega)]
  · rw [hset]
    by_cases heq : m = k
    · subst heq
      have hno : ¬ s.Fitted children m := fun hfit => by
        have := hfit.between hnum
        omega
      rw [if_pos rfl, hneeds]
      simp only [hno, or_false, true_and]
    · rw [if_neg heq, hfills.filled (fun m hk hm => hempty m (by omega) hm) m (by omega) hm]
      simp only [heq, false_and, false_or]

theorem fills_component {k j : Nat} {tag : Tag} {children : List Node}
    (hc : s.registry.isComponent tag = true) (hslot : tag.slot = some k)
    (h : s.Filling (k + 1) j children) (hnum : Numbered (k + 1) children j) {w w' : Workshop}
    (hrun : (s.buildSlot tag.slot children).run w = (.ok (), w'))
    (hlen : j ≤ w.skeletons.length) : Fills s w w' k j [.element tag children] := by
  rw [hslot] at hrun
  obtain ⟨hlength, hothers, hfilled⟩ := fills_buildSlot h hnum hrun hlen
  refine ⟨hlength, hothers, fun hempty m hk hm => ?_⟩
  rw [hfilled hempty m hk hm, fitted_element, hslot, Option.some.injEq, eq_comm (a := m)]
  simp only [hc, true_and]

/-- The slot of an element that is no component stays empty. -/
theorem fills_plain {k i j : Nat} {tag : Tag} {children : List Node} {w w' : Workshop}
    (hc : s.registry.isComponent tag = false) (hki : k ≤ i) (hnum : Numbered i children j)
    (h : Fills s w w' i j children) : Fills s w w' k j [.element tag children] := by
  refine ⟨h.length_eq, fun m hm => h.others m (by have := hnum.le; omega), fun hempty m hk hm => ?_⟩
  rw [fitted_element]
  simp only [hc, Bool.false_eq_true, false_and, false_or]
  by_cases hmi : m < i
  · have hno : ¬ s.Fitted children m := fun hfit => by
      have := hfit.between hnum
      omega
    rw [h.others m (Or.inl hmi), hempty m hk hm]
    simp only [hno, Option.isSome_none, Bool.false_eq_true]
  · exact h.filled (fun m hi hm => hempty m (by omega) hm) m (by omega) hm

theorem fills_element {parent : Option NodeId} {w w' : Workshop} {k i : Nat} {tag : Tag}
    {children : List Node} (hsuits : s.Suits [.element tag children] parent)
    (htag : tag.slot = if Text.startsCapital tag.name then some k else none)
    (h : s.Filling (Phrase.slotAfter tag.name k) i children)
    (hnum : Numbered (Phrase.slotAfter tag.name k) children i)
    (hrun : (s.buildNode parent (.element tag children)).run w = (.ok (), w'))
    (hlen : i ≤ w.skeletons.length) : Fills s w w' k i [.element tag children] := by
  -- a component goes to its slot, in whatever container it stands
  have hcomponent (hc : s.registry.isComponent tag = true) {w₁ : Workshop}
      (hsame : w₁.skeletons = w.skeletons)
      (hrun : (if tag.slot.isSome = true then do
          let top ← s.makeTop children
          s.buildNodes top children
          fillSlot tag.slot top
        else pure () : Making Unit).run w₁ = (.ok (), w')) :
      Fills s w w' k i [.element tag children] := by
    have hisSome := isSome_slot_of_isComponent hc
    rw [if_pos hisSome] at hrun
    have hcapital : Text.startsCapital tag.name = true := by
      by_contra hno
      rw [htag, if_neg hno] at hisSome
      cases hisSome
    rw [if_pos hcapital] at htag
    rw [Phrase.slotAfter, if_pos hcapital] at h hnum
    exact (fills_component hc htag h hnum hrun (by rwa [hsame])).of_eq hsame
  unfold buildNode at hrun
  cases parent with
  | none =>
    obtain ⟨inner, w₁, hinner, hrun⟩ := making_bind_ok hrun
    obtain ⟨rfl, rfl⟩ := making_pure_ok hinner
    exact hcomponent hsuits.isComponent rfl hrun
  | some p =>
    obtain ⟨_, w₁, hcheck, hmaking⟩ := making_bind_ok hrun
    obtain rfl := checkComponent_ok hcheck
    by_cases hc : s.registry.isComponent tag = true
    · rw [if_pos hc] at hmaking
      obtain ⟨_, w₂, hmake, hbelow⟩ := making_bind_ok hmaking
      obtain ⟨inner, w₃, hinner, hslot⟩ := making_bind_ok hbelow
      obtain ⟨rfl, rfl⟩ := making_pure_ok hinner
      exact hcomponent hc (makeIn_ok hmake) hslot
    · rw [if_neg hc] at hmaking
      obtain ⟨id, w₂, hmake, hpure⟩ := making_bind_ok hmaking
      obtain ⟨inner, w₃, hinner, hbelow⟩ := making_bind_ok hpure
      obtain ⟨rfl, rfl⟩ := making_pure_ok hinner
      have hsame := makeIn_ok hmake
      have hfills := h (Suits.some children id) hbelow (by rwa [hsame])
      have hk : k ≤ Phrase.slotAfter tag.name k := by
        rw [Phrase.slotAfter]
        split <;> omega
      exact fills_plain (by simpa using hc) hk hnum (hfills.of_eq hsame)

/-- One node first, and then the others. -/
theorem Filling.cons {k i j : Nat} {n : Node} {ns : List Node} (hn : Numbered k [n] i)
    (hns : Numbered i ns j) (htail : s.Filling i j ns)
    (hhead : ∀ {parent : Option NodeId} {w w' : Workshop}, s.Suits [n] parent →
      (s.buildNode parent n).run w = (.ok (), w') → i ≤ w.skeletons.length →
        Fills s w w' k i [n]) : s.Filling k j (n :: ns) := by
  intro parent w w' hsuits hrun hlen
  have hij := hns.le
  rw [buildNodes] at hrun
  obtain ⟨_, w₁, hfirst, hrest⟩ := making_bind_ok hrun
  have hfills := hhead hsuits.head hfirst (by omega)
  exact hfills.append (htail hsuits.tail hrest (hfills.length_eq ▸ hlen)) hn hns

/-- Building nodes whose slots are counted through fills in the slots of the components that need
    a skeleton. -/
theorem fills_of_numbered {k j : Nat} {ns : List Node} (hnum : Numbered k ns j) :
    s.Filling k j ns := by
  induction hnum with
  | nil =>
    intro parent w w' _ hrun _
    rw [buildNodes] at hrun
    obtain ⟨-, rfl⟩ := making_pure_ok hrun
    exact .of_skeletons_eq rfl
  | text value hnum ih =>
    refine Filling.cons (.text value .nil) hnum ih fun {parent w w'} _ hrun _ => ?_
    cases parent with
    | none =>
      obtain ⟨-, rfl⟩ := making_pure_ok hrun
      exact .of_skeletons_eq rfl
    | some p =>
      obtain rfl := (congrArg Prod.snd hrun).symm
      exact .of_skeletons_eq rfl
  | hole i hnum ih =>
    refine Filling.cons (.hole i .nil) hnum ih fun {parent w w'} _ hrun _ => ?_
    cases parent with
    | none =>
      obtain ⟨-, rfl⟩ := making_pure_ok hrun
      exact .of_skeletons_eq rfl
    | some p =>
      obtain rfl := (congrArg Prod.snd hrun).symm
      exact .of_skeletons_eq rfl
  | element htag hchildren hnum ihchildren ih =>
    exact Filling.cons (.element htag hchildren .nil) hnum ih fun hsuits hrun hlen =>
      fills_element hsuits htag ihchildren hchildren hrun hlen

/-! ### The whole tree -/

/-- The skeletons of a parsed literal, made in a document. -/
def materialize (s : Setup κ) (t : Template) (d : Page) : Except TemplateError Compiled × Page :=
  let (outcome, w) := (s.build t).run ⟨d, List.replicate t.slotCount none⟩
  (outcome, w.page)

/-- A literal is compiled by parsing it and making the skeletons of its tree. -/
theorem compile_eq_materialize (s : Setup κ) (l : Literal) (d : Page) :
    s.compile l d = match l.parse s.config with
      | .error e => (.error (.parse e), d)
      | .ok t => s.materialize t d := by
  rw [compile]
  cases l.parse s.config <;> rfl

/-- Whether a component is registered for an element. -/
def isRegistered (s : Setup κ) (tag : Tag) : Bool :=
  tag.isCapitalized && s.registry.contains tag.name

/-- Whether an element calls for a component that is not registered. -/
def isUnknown (s : Setup κ) (tag : Tag) : Bool := tag.isCapitalized && !s.registry.contains tag.name

/-- One of the nodes is an element that no component renders. -/
def HasPlainChild (s : Setup κ) (ns : List Node) : Prop :=
  ∃ tag children, .element tag children ∈ ns ∧ s.isRegistered tag = false

/-- The containers of a literal with their slots: the literal itself, and the content of each
    registered component. -/
def containers (s : Setup κ) (t : Template) : List (Nat × List Node) :=
  (rootSlot, t.children) :: (elementsOfAll t.children).filterMap fun e =>
    if s.isRegistered e.1 then e.1.slot.map (·, e.2) else none

/-- A compiled literal whose table has a skeleton for each container that needs one. -/
structure Filled (s : Setup κ) (t : Template) (source : Compiled) : Prop where
  tree_eq : source.tree = t
  length_eq : source.skeletons.length = t.slotCount
  /-- No slot lies outside the table. -/
  slot_lt : ∀ k ∈ rootSlot :: t.tags.filterMap (·.slot), k < t.slotCount
  /-- No two containers share a slot. -/
  nodup : ((s.containers t).map (·.1)).Nodup
  isSome_iff : ∀ k, (source.skeleton? k).isSome = true ↔
    ∃ c ∈ s.containers t, c.1 = k ∧ s.HasPlainChild c.2

variable {t : Template} {tag : Tag} {ns : List Node}

theorem isComponent_eq (h : tag.slot.isSome = true ↔ tag.isCapitalized = true) :
    s.registry.isComponent tag = s.isRegistered tag := by
  rw [Registry.isComponent, Registry.componentFor?, isRegistered, Registry.contains,
    ← Bool.eq_iff_iff.mpr h]
  cases tag.slot.isSome <;> rfl

theorem refuses_eq (h : tag.slot.isSome = true ↔ tag.isCapitalized = true) :
    s.refuses tag = (s.config.strict && s.isUnknown tag) := by
  rw [refuses, isComponent_eq h, isRegistered, isUnknown, Bool.eq_iff_iff.mpr h]
  cases tag.isCapitalized <;> cases s.registry.contains tag.name <;> cases s.config.strict <;> rfl

/-- A container needs a skeleton if an element in it is not rendered by a component. -/
theorem needsSkeleton_iff
    (h : ∀ e ∈ elementsOfAll ns, e.1.slot.isSome = true ↔ e.1.isCapitalized = true) :
    s.needsSkeleton ns = true ↔ s.HasPlainChild ns := by
  have hplain {tag : Tag} {children : List Node} (hmem : .element tag children ∈ ns) :
      s.isPlainElement (.element tag children) = true ↔ s.isRegistered tag = false := by
    rw [isPlainElement, isComponent_eq (h _ (mem_elementsOfAll_of_mem hmem)), Bool.not_eq_true']
  rw [needsSkeleton, List.any_eq_true]
  constructor
  · rintro ⟨n, hmem, hn⟩
    cases n with
    | element tag children => exact ⟨tag, children, hmem, (hplain hmem).mp hn⟩
    | text value => cases hn
    | hole i => cases hn
  · rintro ⟨tag, children, hmem, hno⟩
    exact ⟨_, hmem, (hplain hmem).mpr hno⟩

/-- The first refusal is that of the first unknown element. -/
theorem refusal?_eq_some_iff {t : Template} {e : TemplateError}
    (h : ∀ e ∈ elementsOfAll t.children, e.1.slot.isSome = true ↔ e.1.isCapitalized = true) :
    s.refusal? (elementsOfAll t.children) = some e ↔ s.config.strict = true ∧
      ∃ tag, t.tags.find? s.isUnknown = some tag ∧ e = .unknownComponent tag.name := by
  have hfind : (elementsOfAll t.children).find? (fun e => s.refuses e.1) =
      (elementsOfAll t.children).find? (fun e => s.config.strict && s.isUnknown e.1) :=
    List.find?_congr fun e he => refuses_eq (h e he)
  rw [refusal?, hfind, t.tags_eq, List.find?_map]
  cases s.config.strict with
  | false =>
    rw [List.find?_eq_none.mpr (by simp)]
    simp
  | true => simp [eq_comm]

/-- What holds of some container holds of the whole literal or of the content of a component. -/
theorem exists_container_iff {t : Template} {k : Nat} {P : List Node → Prop} :
    (∃ c ∈ s.containers t, c.1 = k ∧ P c.2) ↔ k = rootSlot ∧ P t.children ∨
      ∃ e ∈ elementsOfAll t.children, s.isRegistered e.1 = true ∧ e.1.slot = some k ∧ P e.2 := by
  simp only [containers, List.mem_cons, or_and_right, exists_or, exists_eq_left]
  rw [eq_comm (a := k)]
  refine or_congr Iff.rfl ⟨?_, ?_⟩
  · rintro ⟨c, hc, rfl, hP⟩
    obtain ⟨e, he, heq⟩ := List.mem_filterMap.mp hc
    obtain ⟨hreg, heq⟩ := Option.ite_none_right_eq_some.mp heq
    obtain ⟨k, hslot, rfl⟩ := Option.map_eq_some_iff.mp heq
    exact ⟨e, he, hreg, hslot, hP⟩
  · rintro ⟨e, he, hreg, hslot, hP⟩
    refine ⟨(k, e.2), List.mem_filterMap.mpr ⟨e, he, ?_⟩, rfl, hP⟩
    rw [if_pos hreg, hslot]
    rfl

/-- The slots of the containers are among all slots, in the same order. -/
theorem slots_containers (s : Setup κ) (t : Template) :
    ((s.containers t).map (·.1)).Sublist (rootSlot :: t.tags.filterMap (·.slot)) := by
  have hslots : ((elementsOfAll t.children).filterMap fun e =>
      if s.isRegistered e.1 then e.1.slot.map (·, e.2) else none).map (·.1) =
        ((elementsOfAll t.children).filter (s.isRegistered ·.1)).filterMap (·.1.slot) := by
    rw [List.map_filterMap, List.filterMap_filter]
    refine List.filterMap_congr fun e _ => ?_
    cases s.isRegistered e.1 <;> simp [Function.comp_def]
  rw [containers, List.map_cons, hslots, t.tags_eq, List.filterMap_map]
  exact (List.filter_sublist.filterMap _).cons_cons _

/-- The skeletons of a tree are made by building the literal as a container of its own. -/
theorem build_eq (s : Setup κ) (t : Template) :
    s.build t = s.buildSlot (some rootSlot) t.children >>= fun _ => do
      return ⟨t, (← get).skeletons⟩ := by
  simp only [build, buildSlot, bind_assoc]

theorem ends_build (s : Setup κ) (t : Template) :
    Ends (s.build t) (s.refusal? (elementsOfAll t.children)) fun _ => True := by
  rw [build_eq, ← Option.or_none (o := s.refusal? _)]
  refine (ends_buildSlot fun top => ends_buildNodes s top t.children).bind fun _ _ => ?_
  exact fun w => ⟨_, _, rfl, trivial⟩

/-- A tree whose slots are counted through and lie on the capitalized elements has its table filled
    in. -/
theorem filled_of_materialize (hnum : Numbered (rootSlot + 1) t.children t.slotCount)
    (hslotted : ∀ e ∈ elementsOfAll t.children, e.1.slot.isSome = true ↔ e.1.isCapitalized = true)
    {d : Page} {source : Compiled} (hok : (s.materialize t d).1 = .ok source) :
    s.Filled t source := by
  obtain ⟨w', hbuild, rfl⟩ : ∃ w', (s.buildSlot (some rootSlot) t.children).run
      ⟨d, List.replicate t.slotCount none⟩ = (.ok (), w') ∧ source = ⟨t, w'.skeletons⟩ := by
    rcases hrun : (s.build t).run ⟨d, List.replicate t.slotCount none⟩ with ⟨outcome, w₁⟩
    rw [materialize, hrun] at hok
    obtain rfl : outcome = .ok source := hok
    rw [build_eq] at hrun
    obtain ⟨_, w', hbuild, hreturn⟩ := making_bind_ok hrun
    have heq : ((Except.ok ⟨t, w'.skeletons⟩, w') : Except TemplateError Compiled × Workshop) =
        (.ok source, w₁) := hreturn
    obtain ⟨rfl, -⟩ := by simpa using heq
    exact ⟨w', hbuild, rfl⟩
  have hall : rootSlot :: t.tags.filterMap (·.slot) = List.range' rootSlot t.slotCount := by
    have hpos : 1 ≤ t.slotCount := hnum.le
    have hcount : t.slotCount = t.slotCount - 1 + 1 := by omega
    rw [t.tags_eq, List.filterMap_map, hcount, List.range'_succ]
    exact congrArg _ hnum.slots_eq
  have hlt : ∀ k ∈ rootSlot :: t.tags.filterMap (·.slot), k < t.slotCount := by
    rw [hall]
    intro k hk
    simpa [rootSlot] using hk
  obtain ⟨hlength, -, hfilled⟩ := fills_buildSlot (fills_of_numbered hnum) hnum hbuild (by simp)
  have hempty (m : Nat) : Workshop.skeleton? ⟨d, List.replicate t.slotCount none⟩ m = none := by
    rw [Workshop.skeleton?, List.getElem?_replicate]
    split <;> rfl
  refine ⟨rfl, by simpa using hlength, hlt, ?_, fun k => ?_⟩
  · refine (s.slots_containers t).nodup ?_
    rw [hall]
    exact List.nodup_range'
  · rw [exists_container_iff]
    by_cases hk : k < t.slotCount
    · refine (hfilled (fun m _ _ => hempty m) k (Nat.zero_le k) hk).trans (or_congr ?_ ?_)
      · exact and_congr Iff.rfl (needsSkeleton_iff hslotted)
      · refine exists_congr fun e => and_congr_right fun he => ?_
        rw [isComponent_eq (hslotted e he),
          needsSkeleton_iff fun e' he' => hslotted e' (mem_elementsOfAll he he')]
    · have hnone : Compiled.skeleton? ⟨t, w'.skeletons⟩ k = none := by
        rw [Compiled.skeleton?, List.getElem?_eq_none]
        · rfl
        · rw [hlength]
          simpa using hk
      rw [hnone]
      refine iff_of_false (by simp) ?_
      rintro (⟨rfl, -⟩ | ⟨e, he, -, hslot, -⟩)
      · exact hk (hlt _ List.mem_cons_self)
      · refine hk (hlt k (List.mem_cons_of_mem _ ?_))
        rw [t.tags_eq, List.filterMap_map]
        exact List.mem_filterMap.mpr ⟨e, he, hslot⟩

/-- **When making the skeletons of a parsed literal succeeds, and what it makes.**  Under strict
    components it fails if and only if some capitalized element of the tree, wherever it
    stands, is not registered, and the error names the first one in document order; without
    strict components it never fails.  If it succeeds, then the table has a place for each
    slot, all slots lie in it, and it has a skeleton for exactly those containers in which
    an element stands that no component renders. -/
theorem materialize_spec {void : NameSet} {ts : List Token} {t : Template}
    (h : parseTokens void ts = .ok t) (s : Setup κ) (d : Page) :
    (∀ e, (s.materialize t d).1 = .error e ↔ s.config.strict = true ∧
      ∃ tag, t.tags.find? s.isUnknown = some tag ∧ e = .unknownComponent tag.name) ∧
    (s.config.strict = false → ∃ source, (s.materialize t d).1 = .ok source) ∧
    (∀ source, (s.materialize t d).1 = .ok source → s.Filled t source) := by
  have hslotted := (wellMade_of_parseTokens h).slotted
  have hnum := numbered_of_parseTokens h
  have hends := ends_build s t
  have herror (e : TemplateError) : (s.materialize t d).1 = .error e ↔
      s.refusal? (elementsOfAll t.children) = some e := by
    rw [materialize]
    cases hrefusal : s.refusal? (elementsOfAll t.children) with
    | none =>
      rw [hrefusal] at hends
      obtain ⟨source, w', hrun, -⟩ := hends ⟨d, List.replicate t.slotCount none⟩
      simp [hrun]
    | some e' =>
      rw [hrefusal] at hends
      obtain ⟨w', hrun⟩ := hends ⟨d, List.replicate t.slotCount none⟩
      simp [hrun]
  refine ⟨fun e => (herror e).trans (refusal?_eq_some_iff hslotted), fun hlenient => ?_,
    fun source hok => ?_⟩
  · rcases hmade : (s.materialize t d).1 with e | source
    · obtain ⟨hstrict, -⟩ := (refusal?_eq_some_iff hslotted).mp ((herror e).mp hmade)
      rw [hlenient] at hstrict
      cases hstrict
    · exact ⟨source, rfl⟩
  · exact filled_of_materialize hnum hslotted hok

/-- A card with nothing but text and a box, which holds a paragraph. -/
def nestedTokens : List Token :=
  tokenize .rawTextElements ["<Card>a<Box><p></p></Box></Card>"]

/-- A factory with strict components and the given components. -/
def strictly (names : List String) : Setup Unit :=
  ⟨.usual, .usual, .ofList (names.map (·, ()))⟩

/-- With both components only the box needs a skeleton.  Without the box the card needs one, and
    the box is refused. -/
theorem materialize_spec_nested :
    ∃ t, parseTokens .voidElements nestedTokens = .ok t ∧
      (∃ source, ((strictly ["Card", "Box"]).materialize t .empty).1 = .ok source ∧
        (strictly ["Card", "Box"]).Filled t source ∧
        source.skeletons.map Option.isSome = [false, false, true]) ∧
      ((strictly ["Card"]).materialize t .empty).1 = .error (.unknownComponent "Box") := by
  have hparse : (parseTokens .voidElements nestedTokens).toOption.map (fun t =>
      (((strictly ["Card", "Box"]).materialize t .empty).1.toOption.map
          fun source => source.skeletons.map Option.isSome,
        (t.tags.find? (strictly ["Card"]).isUnknown).map (·.name))) =
      some (some [false, false, true], some "Box") := by
    decide +kernel
  cases h : parseTokens .voidElements nestedTokens with
  | error e =>
    rw [h] at hparse
    cases hparse
  | ok t =>
    rw [h] at hparse
    obtain ⟨hboth, hbox⟩ := Prod.ext_iff.mp (Option.some.inj hparse)
    refine ⟨t, rfl, ?_, ?_⟩
    · cases hmade : ((strictly ["Card", "Box"]).materialize t .empty).1 with
      | error e =>
        simp only [hmade] at hboth
        cases hboth
      | ok source =>
        simp only [hmade] at hboth
        exact ⟨source, rfl, (materialize_spec h _ .empty).2.2 source hmade, Option.some.inj hboth⟩
    · obtain ⟨tag, htag, hname⟩ := Option.map_eq_some_iff.mp hbox
      exact ((materialize_spec h (strictly ["Card"]) .empty).1 _).mpr
        ⟨rfl, tag, htag, by rw [hname]⟩

end Stencil.Setup
