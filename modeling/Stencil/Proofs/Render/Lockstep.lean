/-
  Stencil/Proofs/Render/Lockstep.lean
  ===================================
  **The points of a container and the nodes of its copy, step by step together.**

  Going over the nodes of a container gives its points, and going over the elements and
  comments of a copy of its skeleton gives the nodes where they belong.  The two agree
  because the skeleton has sprouted from these nodes (`forall₂_meets`): there are as many
  of the one as of the other, and the point at each place is of the kind of the node.

  What binding does to a copy is said by a `Reading`: which plants stand for a hole, for
  an element and for a component in the end.  `Shows` extends a reading to all nodes of a
  container, and `bindPoints_shows` reduces binding a container to binding its points:
  if each point does what the reading says, to the plants that stand for it and to
  nothing else, then the container as a whole does.
-/
import Stencil.Render.Container
import Stencil.Proofs.Template.Skeleton
import Stencil.Proofs.Render.Insert
import Mathlib.Data.List.Forall2

namespace Stencil.Render

open Document Document.Plant Markup

/-! ### Points and stations -/

/-- Whether a node is one where something may have to be done. -/
def isStation : Content Value Action → Bool
  | .element _ => true
  | .comment _ => true
  | _ => false

mutual

/-- The elements and comments of a plant, in document order. -/
def stationsOf : Plant Value Action → List NodeId
  | .node id c cs => (if isStation c then [id] else []) ++ stationsOfAll cs

/-- The elements and comments of several plants. -/
def stationsOfAll : List (Plant Value Action) → List NodeId
  | [] => []
  | t :: ts => stationsOf t ++ stationsOfAll ts

end

theorem filter_stations {d : Page} {parent : Option NodeId} {ts : List (Plant Value Action)}
    (h : d.AllStand parent ts) :
    (idsAll ts).filter (fun n => d.kind n == some .element || d.kind n == some .comment) =
      stationsOfAll ts := by
  induction ts using Plant.induct generalizing parent with
  | nil => rfl
  | cons id c cs ts ihc iht =>
    obtain ⟨⟨hnode, hcs⟩, hts⟩ := h
    have hkind : d.kind id = some c.kind := by rw [kind, hnode]; rfl
    rw [idsAll, ids, List.cons_append, List.filter_cons, List.filter_append, ihc hcs, iht hts,
      hkind, stationsOfAll, stationsOf]
    cases c <;> simp [Content.kind, isStation]

/-- The stations of a copy are those of the plants in it. -/
theorem stations_eq {d : Page} {root : NodeId} {ts : List (Plant Value Action)}
    (h : d.Stands none (node root .fragment ts)) (hforest : d.IsForest) :
    stations d root = stationsOfAll ts := by
  have hsubtree := h.subtree_eq hforest
  rw [Plant.root] at hsubtree
  rw [stations, hsubtree, ids, List.drop_one, List.tail_cons, filter_stations h.below]

/-- What a station holds before its point is bound. -/
def Meets (d : Page) (look : Tag → ElementState) (pt : Point) (id : NodeId) : Prop :=
  match pt with
  | .element tag => d.element? id = some (look tag)
  | _ => d.kind id = some .comment

/-- Points and stations agree, one by one. -/
theorem forall₂_meets {f : Factory} {look : Tag → ElementState} {ns : List Node}
    {ts : List (Plant Value Action)} (h : Sprouts f.toSetup look ns ts) {d : Page}
    {parent : Option NodeId} (hstand : d.AllStand parent ts) :
    List.Forall₂ (Meets d look) (pointsOfAll f ns) (stationsOfAll ts) := by
  have hcomment {id : NodeId} {ts : List (Plant Value Action)} {parent : Option NodeId}
      (h : d.AllStand parent (leaf id (.comment "") :: ts)) : d.kind id = some .comment := by
    rw [kind, stands_leaf.mp h.1]
    rfl
  induction h generalizing parent with
  | nil => exact .nil
  | text id value _ ih => exact ih hstand.2
  | hole id i _ ih => exact .cons (hcomment hstand) (ih hstand.2)
  | component id hc _ ih =>
    rw [pointsOfAll, pointsOf, if_pos hc]
    exact .cons (hcomment hstand) (ih hstand.2)
  | @element tag children ns cs ts id hc _ _ ihchildren ih =>
    obtain ⟨⟨hnode, hcs⟩, hts⟩ := hstand
    have hself : Meets d look (.element tag) id := by
      rw [Meets, element?, hnode]
    rw [pointsOfAll, pointsOf, if_neg (by simp [hc]), List.cons_append]
    exact .cons hself (List.rel_append (ihchildren hcs) (ih hts))

/-- There are as many stations as points. -/
theorem length_stations {f : Factory} {look : Tag → ElementState} {ns : List Node}
    {ts : List (Plant Value Action)} (h : Sprouts f.toSetup look ns ts) :
    (pointsOfAll f ns).length = (stationsOfAll ts).length := by
  induction h with
  | nil => rfl
  | text id value _ ih => exact ih
  | hole id i _ ih =>
    simp [pointsOfAll, pointsOf, ih, stationsOfAll, stationsOf, leaf, isStation]
  | component id hc _ ih =>
    simp [pointsOfAll, pointsOf, hc, ih, stationsOfAll, stationsOf, leaf, isStation]
  | element id hc _ _ ihchildren ih =>
    rw [pointsOfAll, pointsOf, if_neg (by simp [hc]), stationsOfAll, stationsOf]
    simp only [List.length_append, List.length_cons, ihchildren, ih, isStation, if_true,
      List.singleton_append]

/-! ### Readings -/

/-- What a container is to come to, said point by point: the plants that stand for a hole or a
    component, what an element holds, and what of `β` each of them leaves behind. -/
structure Reading (β : Type) where
  hole : Nat → List (Plant Value Action) → List β → Prop
  element : Tag → NodeId → ElementState → List β → Prop
  component : Tag → List Node → List (Plant Value Action) → List β → Prop

/-- A reading of all nodes of a container. -/
inductive Shows {κ β : Type} (s : Setup κ) (K : Reading β) :
    List Node → List (Plant Value Action) → List β → Prop where
  | nil : Shows s K [] [] []
  | text {ns : List Node} {ts : List (Plant Value Action)} {bs : List β} (id : NodeId)
      (value : String) (h : Shows s K ns ts bs) :
      Shows s K (.text value :: ns) (leaf id (.text value) :: ts) bs
  | hole {i : Nat} {ns : List Node} {us ts : List (Plant Value Action)} {as bs : List β}
      (hi : K.hole i us as) (h : Shows s K ns ts bs) :
      Shows s K (.hole i :: ns) (us ++ ts) (as ++ bs)
  | component {tag : Tag} {children ns : List Node} {us ts : List (Plant Value Action)}
      {as bs : List β} (hc : s.registry.isComponent tag = true)
      (hcomponent : K.component tag children us as) (h : Shows s K ns ts bs) :
      Shows s K (.element tag children :: ns) (us ++ ts) (as ++ bs)
  | element {tag : Tag} {id : NodeId} {e : ElementState} {children ns : List Node}
      {cs ts : List (Plant Value Action)} {as bs' bs : List β}
      (hc : s.registry.isComponent tag = false) (htag : K.element tag id e as)
      (hchildren : Shows s K children cs bs') (h : Shows s K ns ts bs) :
      Shows s K (.element tag children :: ns) (node id (.element e) cs :: ts) (as ++ bs' ++ bs)

/-! ### One point of a reading -/

/-- The part of a reading that is about one point, as a relation between the plants that stand
    for it and what it leaves behind.  What stands below an element is no matter of that
    element. -/
inductive Part {β : Type} (K : Reading β) :
    Point → (List (Plant Value Action) → List β → Prop) → Prop where
  | hole (i : Nat) : Part K (.hole i) (K.hole i)
  | element (tag : Tag) (id : NodeId) (cs : List (Plant Value Action)) :
      Part K (.element tag) fun us as =>
        ∃ e, us = [node id (.element e) cs] ∧ K.element tag id e as
  | component (tag : Tag) (children : List Node) :
      Part K (.component tag children) (K.component tag children)

/-- An element of one of two lists put together. -/
theorem append_eq_append_cons {β : Type} {as bs pre post : List β} {x : β}
    (h : as ++ bs = pre ++ x :: post) : (∃ c, pre = as ++ c ∧ bs = c ++ x :: post) ∨
      ∃ c, as = pre ++ x :: c ∧ post = c ++ bs := by
  rcases List.append_eq_append_iff.mp h with ⟨c, rfl, rfl⟩ | ⟨c, rfl, hc⟩
  · exact Or.inl ⟨c, rfl, rfl⟩
  · cases c with
    | nil => exact Or.inl ⟨[], by simp, by simpa using hc.symm⟩
    | cons y c =>
      obtain ⟨rfl, rfl⟩ := by simpa using hc
      exact Or.inr ⟨c, rfl, rfl⟩

/-- `Locates f K ns d p front ts back pre x post`: in the reading of `ns` by the plants `ts`, the
    entry `x` between `pre` and `post` belongs to one point.  Whatever else may stand for that
    point can take its place, and the reading is one of the same nodes again. -/
def Locates {β : Type} (f : Factory) (K : Reading β) (ns : List Node) (d : Page) (p : NodeId)
    (front : List NodeId) (ts : List (Plant Value Action)) (back : List NodeId) (pre : List β)
    (x : β) (post : List β) : Prop :=
  ∃ pt ∈ pointsOfAll f ns, ∃ Q, Part K pt Q ∧ ∃ p' front' back' us as as' pre' post',
    pre = pre' ++ as ∧ post = as' ++ post' ∧ Q us (as ++ x :: as') ∧
    d.AllStand (some p') us ∧
    (∃ c q, d.node? p' = some ⟨c, q, front' ++ roots us ++ back'⟩) ∧
    ∀ d' vs bs, Q vs bs → d.Regrown d' p' front' us vs back' →
      ∃ ts', Shows f.toSetup K ns ts' (pre' ++ bs ++ post') ∧ d.Regrown d' p front ts ts' back

section

variable {β : Type} {f : Factory} {K : Reading β} {d : Page} {p : NodeId} {front back : List NodeId}

/-- A point behind what stands for one node. -/
theorem Locates.behind {n : Node} {ns : List Node} {us ts : List (Plant Value Action)}
    {as pre post : List β} {x : β} (hforest : d.IsForest)
    (hstand : d.AllStand (some p) (us ++ ts)) (hroots : (roots (us ++ ts)).Nodup)
    (hns : ∀ {ts' bs'}, Shows f.toSetup K ns ts' bs' →
      Shows f.toSetup K (n :: ns) (us ++ ts') (as ++ bs'))
    (h : Locates f K ns d p (front ++ roots us) ts back pre x post) :
    Locates f K (n :: ns) d p front (us ++ ts) back (as ++ pre) x post := by
  obtain ⟨pt, hpt, Q, hQ, p', front', back', vs, cs, cs', pre', post', rfl, rfl, hx, hvs, hplace,
    hnext⟩ := h
  refine ⟨pt, List.mem_append_right _ hpt, Q, hQ, p', front', back', vs, cs, cs', as ++ pre',
    post', by simp, rfl, hx, hvs, hplace, fun d' vs' bs' hbs' hgrown => ?_⟩
  obtain ⟨ts', hshows, hwhole⟩ := hnext d' vs' bs' hbs' hgrown
  exact ⟨us ++ ts', by simpa using hns hshows, hwhole.back_part hforest hstand hroots⟩

/-- Every entry of a reading belongs to a point. -/
theorem Shows.locates {ns : List Node} {ts : List (Plant Value Action)} {bs pre post : List β}
    {x : β} (h : Shows f.toSetup K ns ts bs) (hbs : bs = pre ++ x :: post) (hforest : d.IsForest)
    (hstand : d.AllStand (some p) ts)
    (hplace : ∃ c q, d.node? p = some ⟨c, q, front ++ roots ts ++ back⟩) :
    Locates f K ns d p front ts back pre x post := by
  -- the plants of a stretch are different
  have hnodup {p : NodeId} {front back : List NodeId} {ts : List (Plant Value Action)}
      (hplace : ∃ c q, d.node? p = some ⟨c, q, front ++ roots ts ++ back⟩) : (roots ts).Nodup := by
    obtain ⟨c, q, hnode⟩ := hplace
    have hchildren := hforest.nodup_children p
    rw [children_of_node? hnode, List.append_assoc] at hchildren
    obtain ⟨-, hchildren, -⟩ := List.nodup_append.mp hchildren
    exact (List.nodup_append.mp hchildren).1
  -- the entry belongs to the plants that stand for a node of its own
  have hhere {n : Node} {ns : List Node} {us ts : List (Plant Value Action)} {as bs : List β}
      {pt : Point} {Q : List (Plant Value Action) → List β → Prop} {p : NodeId}
      {front back : List NodeId} {pre c : List β} (hQ : Part K pt Q) (hpt : pt ∈ pointsOf f n)
      (hus : Q us as) (has : as = pre ++ x :: c) (hstand : d.AllStand (some p) (us ++ ts))
      (hplace : ∃ c q, d.node? p = some ⟨c, q, front ++ roots (us ++ ts) ++ back⟩)
      (hns : ∀ {us' as'}, Q us' as' → Shows f.toSetup K (n :: ns) (us' ++ ts) (as' ++ bs)) :
      Locates f K (n :: ns) d p front (us ++ ts) back pre x (c ++ bs) := by
    refine ⟨pt, List.mem_append_left _ hpt, Q, hQ, p, front, roots ts ++ back, us, pre, c, [], bs,
      rfl, rfl, has ▸ hus, (allStand_append.mp hstand).1, ?_, fun d' vs bs' hbs' hgrown => ?_⟩
    · obtain ⟨c, q, hnode⟩ := hplace
      exact ⟨c, q, by rw [hnode]; simp⟩
    · exact ⟨vs ++ ts, hns hbs', hgrown.front_part hforest hstand (hnodup hplace)⟩
  have hafter {us ts : List (Plant Value Action)} {p : NodeId} {front back : List NodeId}
      (hplace : ∃ c q, d.node? p = some ⟨c, q, front ++ roots (us ++ ts) ++ back⟩) :
      ∃ c q, d.node? p = some ⟨c, q, front ++ roots us ++ roots ts ++ back⟩ := by
    obtain ⟨c, q, hnode⟩ := hplace
    exact ⟨c, q, by rw [hnode]; simp⟩
  induction h generalizing p front back pre post with
  | nil => simp at hbs
  | @text ns ts bs id value h ih =>
    have hstand' : d.AllStand (some p) ([leaf id (.text value)] ++ ts) := hstand
    have hplace' : ∃ c q, d.node? p =
        some ⟨c, q, front ++ roots ([leaf id (.text value)] ++ ts) ++ back⟩ := hplace
    have hrest := ih hbs (allStand_append.mp hstand').2 (hafter hplace')
    have hall : Locates f K (.text value :: ns) d p front ([leaf id (.text value)] ++ ts) back
        ([] ++ pre) x post :=
      hrest.behind hforest hstand' (hnodup hplace) fun h => .text id value h
    exact hall
  | @hole i ns us ts as bs hi h ih =>
    rcases append_eq_append_cons hbs with ⟨c, rfl, hbs'⟩ | ⟨c, has, rfl⟩
    · have hrest := ih hbs' (allStand_append.mp hstand).2 (hafter hplace)
      exact hrest.behind hforest hstand (hnodup hplace) fun h => .hole hi h
    · exact hhere (.hole i) (by simp [pointsOf]) hi has hstand hplace fun hi' => .hole hi' h
  | @component tag children ns us ts as bs hc hcomponent h ih =>
    rcases append_eq_append_cons hbs with ⟨c, rfl, hbs'⟩ | ⟨c, has, rfl⟩
    · have hrest := ih hbs' (allStand_append.mp hstand).2 (hafter hplace)
      exact hrest.behind hforest hstand (hnodup hplace) fun h => .component hc hcomponent h
    · exact hhere (.component tag children) (by simp [pointsOf, hc]) hcomponent has hstand hplace
        fun h' => .component hc h' h
  | @element tag id e children ns cs ts as bs' bs hc htag hchildren h ihchildren ih =>
    have hstand' : d.AllStand (some p) ([node id (.element e) cs] ++ ts) := hstand
    have hplace₀ : ∃ c q, d.node? p =
        some ⟨c, q, front ++ roots ([node id (.element e) cs] ++ ts) ++ back⟩ := hplace
    rcases append_eq_append_cons hbs with ⟨c, rfl, hbs'⟩ | ⟨c, has, rfl⟩
    · have hrest := ih hbs' (allStand_append.mp hstand').2 (hafter hplace₀)
      exact hrest.behind hforest hstand' (hnodup hplace) fun h => .element hc htag hchildren h
    · rcases append_eq_append_cons has with ⟨c', rfl, hbelow⟩ | ⟨c', has', rfl⟩
      · -- below the element
        obtain ⟨hnode, hcs⟩ := hstand.1
        have hbelowid : ∃ c q, d.node? id = some ⟨c, q, [] ++ roots cs ++ []⟩ :=
          ⟨_, _, by rw [hnode, List.nil_append, List.append_nil]⟩
        obtain ⟨pt, hpt, Q, hQ, p', front', back', vs, es, es', pre', post', rfl, rfl, hx, hvs,
          hplace', hnext⟩ := ihchildren hbelow hcs hbelowid
        refine ⟨pt, ?_, Q, hQ, p', front', back', vs, es, es', as ++ pre', post' ++ bs, by simp,
          by simp, hx, hvs, hplace', fun d' vs' as' has' hgrown => ?_⟩
        · refine List.mem_append_left _ ?_
          rw [pointsOf, if_neg (by simp [hc])]
          exact List.mem_cons_of_mem _ hpt
        · obtain ⟨cs', hshows, hinner⟩ := hnext d' vs' as' has' hgrown
          obtain ⟨b, q, hp⟩ := hplace
          have hself : d.Regrown d' p front [node id (.element e) cs] [node id (.element e) cs']
              (roots ts ++ back) :=
            Regrown.inside hforest hstand.1 ⟨b, q, by rw [hp]; simp [Plant.root]⟩ (Nat.le_refl _)
              hnode (fun _ _ _ => rfl) hinner
          refine ⟨node id (.element e) cs' :: ts, ?_,
            hself.front_part hforest hstand' (hnodup ⟨b, q, hp⟩)⟩
          have hall := Shows.element hc htag hshows h
          simpa using hall
      · have hpt : Point.element tag ∈ pointsOf f (.element tag children) := by simp [pointsOf, hc]
        have hall : Locates f K (.element tag children :: ns) d p front
            ([node id (.element e) cs] ++ ts) back pre x (c' ++ (bs' ++ bs)) :=
          hhere (Part.element tag id cs) hpt ⟨e, rfl, htag⟩ has' hstand' hplace₀ fun h' => by
            obtain ⟨e', rfl, htag'⟩ := h'
            have hall := Shows.element hc htag' hchildren h
            rwa [List.append_assoc] at hall
        rwa [← List.append_assoc] at hall

end

/-! ### Binding a container -/

section

variable {β : Type} (base : Page) (inv : World → Prop) (step : World → World → List β → Prop)

/-- `Fills … act shown`: in a world with `inv`, the action puts plants as `shown` in the place
    of a marker that is younger than `base`, and the worlds before and after it are related
    by `step`. -/
def Fills (act : NodeId → Run Unit) (shown : List (Plant Value Action) → List β → Prop) : Prop :=
  ∀ (w : World) (p m : Nat) (front back : List NodeId), inv w → base.Extends w.page →
    base.size ≤ p → base.size ≤ m → w.page.Stands (some p) (leaf m (.comment "")) →
    (∃ c parent, w.page.node? p = some ⟨c, parent, front ++ [m] ++ back⟩) →
    ∃ w' ts bs, act m w = some ((), w') ∧ inv w' ∧ step w w' bs ∧ shown ts bs ∧
      w.page.Regrown w'.page p front [leaf m (.comment "")] ts back

/-- `Dresses … act e shown`: the action makes an element that holds `e` hold what is `shown`,
    and changes no other old node. -/
def Dresses (act : NodeId → Run Unit) (e : ElementState)
    (shown : NodeId → ElementState → List β → Prop) : Prop :=
  ∀ (w : World) (p : NodeId) (id : Nat) (cs : List NodeId), inv w → base.Extends w.page →
    base.size ≤ id → w.page.node? id = some ⟨.element e, some p, cs⟩ →
    ∃ w' e' bs, act id w = some ((), w') ∧ inv w' ∧ step w w' bs ∧ shown id e' bs ∧
      w'.page.IsForest ∧ w.page.size ≤ w'.page.size ∧
      w'.page.node? id = some ⟨.element e', some p, cs⟩ ∧
      ∀ x : Nat, x < w.page.size → x ≠ id → w'.page.node? x = w.page.node? x

variable (f : Factory) (c : Calls) (source : Compiled) (values : List Value)
  (look : Tag → ElementState) (K : Reading β)

/-- A point does what the reading says. -/
def PointShows : Point → Prop
  | .hole i =>
    Fills base inv step (fun m => bindPoint f c source values m (.hole i)) (K.hole i)
  | .element tag =>
    Dresses base inv step (fun id => bindPoint f c source values id (.element tag)) (look tag)
      (K.element tag)
  | .component tag children =>
    Fills base inv step (fun m => bindPoint f c source values m (.component tag children))
      (K.component tag children)

end

theorem bindPoints_append {f : Factory} {c : Calls} {source : Compiled} {values : List Value}
    {w w₁ : World} {front : List (Point × NodeId)}
    (h : bindPoints f c source values front w = some ((), w₁)) (back : List (Point × NodeId)) :
    bindPoints f c source values (front ++ back) w = bindPoints f c source values back w₁ := by
  induction front generalizing w with
  | nil =>
    have heq : some ((), w) = some ((), w₁) := h
    obtain rfl : w = w₁ := by simpa using heq
    rfl
  | cons pt front ih =>
    obtain ⟨point, id⟩ := pt
    rw [bindPoints] at h
    rcases hpoint : bindPoint f c source values id point w with _ | ⟨u, w₂⟩
    · have hnone : (bindPoint f c source values id point >>= fun _ =>
          bindPoints f c source values front) w = none := by
        change (bindPoint f c source values id point w).bind _ = none
        rw [hpoint]
        rfl
      rw [hnone] at h
      cases h
    · rw [run_bind hpoint] at h
      rw [List.cons_append, bindPoints, run_bind hpoint]
      exact ih h

section

variable {β : Type} {base : Page} {inv : World → Prop} {step : World → World → List β → Prop}
  {f : Factory} {c : Calls} {source : Compiled} {values : List Value}
  {look : Tag → ElementState} {K : Reading β}

/-- `Binds … ns ts`: the points of `ns` bound to the stations of `ts` put plants as the reading
    says in the place of `ts`. -/
def Binds (base : Page) (inv : World → Prop) (step : World → World → List β → Prop) (f : Factory)
    (c : Calls) (source : Compiled) (values : List Value) (K : Reading β) (ns : List Node)
    (ts : List (Plant Value Action)) : Prop :=
  ∀ (w : World) (p : Nat) (front back : List NodeId), inv w → base.Extends w.page →
    base.size ≤ p → (∀ x : Nat, x ∈ idsAll ts → base.size ≤ x) → w.page.AllStand (some p) ts →
    (∃ content q, w.page.node? p = some ⟨content, q, front ++ roots ts ++ back⟩) →
    ∃ w' us bs,
      bindPoints f c source values ((pointsOfAll f ns).zip (stationsOfAll ts)) w =
        some ((), w') ∧
      inv w' ∧ step w w' bs ∧ Shows f.toSetup K ns us bs ∧
      w.page.Regrown w'.page p front ts us back

/-- One plant has been bound, and then the others are. -/
theorem Binds.rest (hstep : ∀ {w w₁ w' as bs}, step w w₁ as → step w₁ w' bs → step w w' (as ++ bs))
    {ns : List Node} {t : Plant Value Action} {ts : List (Plant Value Action)}
    (h : Binds base inv step f c source values K ns ts) {w w₁ : World} {p : Nat}
    {front back : List NodeId} {us : List (Plant Value Action)} {as : List β}
    (hext : base.Extends w.page) (hp : base.size ≤ p)
    (hyoung : ∀ x : Nat, x ∈ idsAll (t :: ts) → base.size ≤ x)
    (hstand : w.page.AllStand (some p) (t :: ts))
    (hplace : ∃ content q, w.page.node? p = some ⟨content, q, front ++ roots (t :: ts) ++ back⟩)
    (hinv : inv w₁) (has : step w w₁ as)
    (hgrown : w.page.Regrown w₁.page p front [t] us (roots ts ++ back)) :
    ∃ w' us' bs,
      bindPoints f c source values ((pointsOfAll f ns).zip (stationsOfAll ts)) w₁ =
        some ((), w') ∧
      inv w' ∧ step w w' (as ++ bs) ∧ Shows f.toSetup K ns us' bs ∧
      w.page.Regrown w'.page p front (t :: ts) (us ++ us') back := by
  have hroots : (roots ([t] ++ ts)).Nodup := by
    obtain ⟨content, q, hnode⟩ := hplace
    have hchildren := hext.forest.nodup_children p
    rw [children_of_node? hnode, List.append_assoc] at hchildren
    exact (List.nodup_append.mp (List.nodup_append.mp hchildren).2.1).1
  have hbase₁ : base.Extends w₁.page := hgrown.keeps_base hext
    (fun x hx heq => absurd hx (Nat.not_lt.mpr (heq ▸ hp)))
    fun x hx => hyoung x (by simp only [idsAll, List.append_nil] at hx ⊢; simp [hx])
  have hstand' : w.page.AllStand (some p) ([t] ++ ts) := hstand
  obtain ⟨hts, hplace'⟩ := Regrown.next hext.forest hstand' hroots hgrown
  obtain ⟨w', us', bs, hrun, hinv', hbs, hshows, hgrown'⟩ :=
    h _ p _ _ hinv hbase₁ hp (fun x hx => hyoung x (List.mem_append_right _ hx)) hts hplace'
  exact ⟨w', us', bs, hrun, hinv', hstep has hbs, hshows,
    Regrown.append hext.forest hstand' hroots hgrown hgrown'⟩

/-- A marker and its point, and then the others. -/
theorem Binds.marker
    (hstep : ∀ {w w₁ w' as bs}, step w w₁ as → step w₁ w' bs → step w w' (as ++ bs))
    {n : Node} {ns : List Node} {pt : Point} {id : NodeId} {ts : List (Plant Value Action)}
    {shown : List (Plant Value Action) → List β → Prop} (hpt : pointsOf f n = [pt])
    (hfills : Fills base inv step (fun m => bindPoint f c source values m pt) shown)
    (hshown : ∀ {us us' as bs}, shown us as → Shows f.toSetup K ns us' bs →
      Shows f.toSetup K (n :: ns) (us ++ us') (as ++ bs))
    (h : Binds base inv step f c source values K ns ts) :
    Binds base inv step f c source values K (n :: ns) (leaf id (.comment "") :: ts) := by
  intro w p front back hinv hext hp hyoung hstand hplace
  obtain ⟨w₁, us, as, hrun, hinv₁, has, hus, hgrown⟩ :=
    hfills w p id front (roots ts ++ back) hinv hext hp
      (hyoung id (List.mem_append_left _ List.mem_cons_self)) hstand.1
      (by simpa [leaf, Plant.root] using hplace)
  obtain ⟨w', us', bs, hrun', hinv', hbs, hshows, hgrown'⟩ :=
    h.rest hstep hext hp hyoung hstand hplace hinv₁ has hgrown
  refine ⟨w', us ++ us', as ++ bs, ?_, hinv', hbs, hshown hus hshows, hgrown'⟩
  have hzip : (pointsOfAll f (n :: ns)).zip (stationsOfAll (leaf id (.comment "") :: ts)) =
      (pt, id) :: (pointsOfAll f ns).zip (stationsOfAll ts) := by
    rw [pointsOfAll, hpt]
    rfl
  rw [hzip, bindPoints, run_bind hrun]
  exact hrun'

/-- Binding a container does what the reading says, if binding each of its points does.  The
    points and the stations are taken together by induction on how the stations have
    sprouted, so that every point meets its own. -/
theorem bindPoints_shows (hnone : ∀ w, step w w [])
    (hstep : ∀ {w w₁ w' as bs}, step w w₁ as → step w₁ w' bs → step w w' (as ++ bs))
    {ns : List Node} {ts : List (Plant Value Action)} (hsprouts : Sprouts f.toSetup look ns ts)
    (hpoints : ∀ pt ∈ pointsOfAll f ns, PointShows base inv step f c source values look K pt) :
    Binds base inv step f c source values K ns ts := by
  induction hsprouts with
  | nil =>
    intro w p front back hinv hext _ _ _ hplace
    exact ⟨w, [], [], rfl, hinv, hnone w, .nil, Regrown.refl hext.forest trivial hplace⟩
  | @text ns ts id value _ ih =>
    intro w p front back hinv hext hp hyoung hstand hplace
    have hsame : w.page.Regrown w.page p front [leaf id (.text value)] [leaf id (.text value)]
        (roots ts ++ back) :=
      Regrown.refl hext.forest ⟨hstand.1, trivial⟩ (by simpa [leaf, Plant.root] using hplace)
    have hbinds : Binds base inv step f c source values K ns ts := ih hpoints
    obtain ⟨w', us, bs, hrun, hinv', hbs, hshows, hgrown⟩ :=
      hbinds.rest hstep hext hp hyoung hstand hplace hinv (hnone w) hsame
    exact ⟨w', _, _, hrun, hinv', hbs, .text id value hshows, hgrown⟩
  | @hole ns ts id i _ ih =>
    have hpt : PointShows base inv step f c source values look K (.hole i) :=
      hpoints _ (List.mem_append_left _ List.mem_cons_self)
    exact Binds.marker hstep rfl hpt .hole
      (ih fun pt hmem => hpoints pt (List.mem_append_right _ hmem))
  | @component tag children ns ts id hc _ ih =>
    have hpointsOf : pointsOf f (.element tag children) = [.component tag children] := by
      rw [pointsOf, if_pos hc]
    have hpt : PointShows base inv step f c source values look K (.component tag children) :=
      hpoints _ (by rw [pointsOfAll, hpointsOf]; exact List.mem_cons_self)
    refine Binds.marker hstep hpointsOf hpt (.component hc)
      (ih fun pt hmem => hpoints pt ?_)
    rw [pointsOfAll]
    exact List.mem_append_right _ hmem
  | @element tag children ns cs ts id hc hchildren hsprouts ihchildren ih =>
    have hpointsOf : pointsOf f (.element tag children) =
        .element tag :: pointsOfAll f children := by
      rw [pointsOf, if_neg (by simp [hc])]
    rw [pointsOfAll, hpointsOf] at hpoints
    have hpt : PointShows base inv step f c source values look K (.element tag) :=
      hpoints _ List.mem_cons_self
    intro w p front back hinv hext hp hyoung hstand hplace
    have hid : base.size ≤ id := hyoung id (List.mem_append_left _ List.mem_cons_self)
    have hnode := hstand.1.node?_eq
    obtain ⟨w₁, e, as, hrun₁, hinv₁, has, he, hforest₁, hsize₁, hid₁, hkeep₁⟩ :=
      hpt w p id _ hinv hext hid hnode
    have hself : id ∉ idsAll cs := hstand.1.below.not_mem_parent hext.forest
    have hcs : w₁.page.AllStand (some id) cs := hstand.1.below.congr fun x hx =>
      hkeep₁ x (hstand.1.below.lt_size hx) fun heq => hself (heq ▸ hx)
    have hext₁ : base.Extends w₁.page := by
      refine ⟨hforest₁, Nat.le_trans hext.size_le hsize₁, fun x hx => ?_⟩
      rw [hkeep₁ x (Nat.lt_of_lt_of_le hx hext.size_le)
        (fun heq => absurd hx (Nat.not_lt.mpr (heq ▸ hid))), hext.same x hx]
    have hyoung₁ (x : Nat) (hx : x ∈ idsAll cs) : base.size ≤ x :=
      hyoung x (List.mem_append_left _ (List.mem_cons_of_mem _ hx))
    have hbinds : Binds base inv step f c source values K children cs :=
      ihchildren fun pt hmem => hpoints pt (List.mem_append_left _ (List.mem_cons_of_mem _ hmem))
    obtain ⟨w₂, us, bs₂, hrun₂, hinv₂, hbs₂, hshows₂, hgrown₂⟩ :=
      hbinds w₁ id [] [] hinv₁ hext₁ hid hyoung₁ hcs ⟨_, _, by simpa using hid₁⟩
    have hinside : w.page.Regrown w₂.page p front [node id (.element (look tag)) cs]
        [node id (.element e) us] (roots ts ++ back) :=
      Regrown.inside hext.forest hstand.1 (by simpa [Plant.root] using hplace) hsize₁ hid₁ hkeep₁
        hgrown₂
    have hsiblings : Binds base inv step f c source values K ns ts :=
      ih fun pt hmem => hpoints pt (List.mem_append_right _ hmem)
    obtain ⟨w', us', bs, hrun', hinv', hbs, hshows, hgrown⟩ :=
      hsiblings.rest hstep hext hp hyoung hstand hplace hinv₂ (hstep has hbs₂) hinside
    refine ⟨w', _, _, ?_, hinv', hbs, .element hc he hshows₂ hshows, hgrown⟩
    have hzip : (pointsOfAll f (.element tag children :: ns)).zip
        (stationsOfAll (node id (.element (look tag)) cs :: ts)) =
        (.element tag, id) :: ((pointsOfAll f children).zip (stationsOfAll cs) ++
          (pointsOfAll f ns).zip (stationsOfAll ts)) := by
      rw [pointsOfAll, hpointsOf, stationsOfAll, stationsOf, ← List.zip_append
        (length_stations hchildren)]
      rfl
    rw [hzip, bindPoints, run_bind hrun₁, bindPoints_append hrun₂]
    exact hrun'

/-- Several values as one have the same to show. -/
theorem bears_ofList {d : Page} {vs : List Value} {ss : List Seed} (h : Bears d vs ss) :
    Bears d [Value.ofList vs] ss := by
  match vs, h with
  | [], h =>
    cases h
    exact .empty .nil
  | [v], h => exact h
  | v :: v' :: vs, h =>
    have hlist := Bears.list h .nil
    rwa [List.append_nil] at hlist

theorem bears_nodes {d : Page} {ts : List (Plant Value Action)} (h : ∀ t ∈ ts, Loose d t) :
    Bears d ((roots ts).map Value.node) (ts.map Seed.plant) := by
  induction ts with
  | nil => exact .nil
  | cons t ts ih =>
    exact .node (h t List.mem_cons_self) (ih fun u hu => h u (List.mem_cons_of_mem _ hu))

theorem plants_map (ts : List (Plant Value Action)) : Seed.plants (ts.map Seed.plant) = ts := by
  induction ts with
  | nil => rfl
  | cons t ts ih => rw [List.map_cons, Seed.plants, ih]

theorem grow_map (base : Nat) (ts : List (Plant Value Action)) :
    Seed.grow base (ts.map Seed.plant) = ts := by
  induction ts with
  | nil => rfl
  | cons t ts ih => rw [List.map_cons, Seed.grow, ih]

theorem loose_of_allStand {d : Page} {p : NodeId} {ts : List (Plant Value Action)}
    (h : d.AllStand (some p) ts) (hforest : d.IsForest) : ∀ t ∈ ts, Loose d t := by
  intro t ht
  have hstand := allStand_iff.mp h t ht
  obtain ⟨id, content, cs⟩ := t
  refine ⟨?_, _, hstand⟩
  rw [Plant.root, isFragment_of_node? hstand.node?_eq]
  simpa using hstand.alone.kind_ne hforest

/-- A container with a skeleton: a copy of it is bound, and what comes out are the plants of
    the copy. -/
theorem renderContainer_copy {inv : World → Prop} {step : World → World → List β → Prop}
    {slot : Nat} {root : NodeId} {ns : List Node} {w : World}
    (hpage : ∀ w d, step w { w with page := d } [])
    (hkeep : ∀ w d, inv w → inv { w with page := d })
    (hstep : ∀ {w w₁ w' as bs}, step w w₁ as → step w₁ w' bs → step w w' (as ++ bs))
    (hskeleton : source.skeleton? slot = some root)
    (hfurnished : Furnished f.toSetup 0 w.page (some root) ns)
    (hpoints : ∀ pt ∈ pointsOfAll f ns,
      PointShows w.page inv step f c source values (Sprouts.copied f.elementOf) K pt)
    (hforest : w.page.IsForest) (hinv : inv w) :
    ∃ w' us bs, renderContainer f c source values slot ns w =
        some (Value.ofList ((roots us).map Value.node), w') ∧
      inv w' ∧ step w w' bs ∧ Shows f.toSetup K ns us bs ∧ w.page.Extends w'.page ∧
      (∃ q, w'.page.AllStand (some q) us) ∧ (idsAll us).Nodup ∧
      ∀ x : Nat, x ∈ idsAll us → w.page.size ≤ x := by
  obtain ⟨ss, hstand, hsprouts, -⟩ := hfurnished
  obtain ⟨d, hcopy, hforest', hsize, hcopied, hsame⟩ := copy_spec hforest hstand
  rw [Plant.root] at hcopy
  have hext : w.page.Extends d := ⟨hforest', by omega, hsame⟩
  obtain ⟨hroot, hbelow⟩ := hcopied
  have hyoung (x : Nat) (hx : x ∈ idsAll (copyAllAt (w.page.size + 1) ss)) : w.page.size ≤ x := by
    rw [idsAll_copyAllAt, List.mem_range'_1] at hx
    omega
  have hbinds : Binds w.page inv step f c source values K ns (copyAllAt (w.page.size + 1) ss) :=
    bindPoints_shows (fun w => hpage w w.page) hstep (hsprouts.copyAllAt _) hpoints
  obtain ⟨w', us, bs, hrun, hinv', hbs, hshows, hgrown⟩ :=
    hbinds { w with page := d } w.page.size [] [] (hkeep w d hinv) hext (Nat.le_refl _) hyoung
      hbelow ⟨_, _, by simpa using hroot⟩
  obtain ⟨content, q, hbefore, hafter⟩ := hgrown.place
  have hchildren : w'.page.children w.page.size = roots us := by
    rw [children_of_node? hafter]
    simp
  refine ⟨w', us, bs, ?_, hinv', hstep (hpage w d) hbs, hshows, ?_, ⟨_, hgrown.stand⟩,
    hgrown.nodup_new, fun x hx => ?_⟩
  · rw [renderContainer, hskeleton]
    simp only
    rw [run_bind (run_onPage _ w), hcopy, run_bind (run_page _),
      stations_eq ⟨hroot, hbelow⟩ hforest', run_bind hrun, run_bind (run_page _), hchildren]
    rfl
  · exact hgrown.keeps_base hext (fun x hx => Nat.ne_of_lt hx) hyoung
  · rcases hgrown.fresh x hx with hx | hx
    · exact hyoung x hx
    · exact Nat.le_trans hext.size_le hx

end

/-! ### Compiled literals -/

theorem run_compile_new {f : Factory} {l : Literal} {w : World} (h : w.cache.lookup l.key = none) :
    compile f l w = some ((f.compile l w.page).1, { w with
      cache := ⟨(l.key, (f.compile l w.page).1) :: w.cache.entries, w.cache.parses + 1,
        w.cache.hits⟩
      page := (f.compile l w.page).2 }) := by
  rw [compile]
  simp only [modifyGetThe, MonadStateOf.modifyGet, StateT.modifyGet, Cache.getOrCompile, h]
  rfl

theorem run_compile_hit {f : Factory} {l : Literal} {w : World}
    {outcome : Except TemplateError Compiled} (h : w.cache.lookup l.key = some outcome) :
    compile f l w =
      some (outcome, { w with cache := { w.cache with hits := w.cache.hits + 1 } }) := by
  rw [compile]
  simp only [modifyGetThe, MonadStateOf.modifyGet, StateT.modifyGet, Cache.getOrCompile, h]
  rfl

/-- A literal is compiled and the outcome kept, or the cache has the outcome. -/
theorem compile_cases {f : Factory} {l : Literal} {w w' : World}
    {outcome : Except TemplateError Compiled} (h : compile f l w = some (outcome, w')) :
    (w.cache.lookup l.key = none ∧ (f.compile l w.page).1 = outcome ∧ w' = { w with
        cache := ⟨(l.key, outcome) :: w.cache.entries, w.cache.parses + 1, w.cache.hits⟩
        page := (f.compile l w.page).2 }) ∨
      w.cache.lookup l.key = some outcome ∧
        w' = { w with cache := { w.cache with hits := w.cache.hits + 1 } } := by
  rcases hlookup : w.cache.lookup l.key with _ | known
  · obtain ⟨rfl, rfl⟩ := Prod.mk.inj (Option.some.inj ((run_compile_new hlookup).symm.trans h))
    exact Or.inl ⟨rfl, rfl, rfl⟩
  · obtain ⟨rfl, rfl⟩ := Prod.mk.inj (Option.some.inj ((run_compile_hit hlookup).symm.trans h))
    exact Or.inr ⟨rfl, rfl⟩

/-- The page is a forest, and the literal, if it is compiled already, has its skeletons in it. -/
structure Sound (f : Factory) (l : Literal) (w : World) : Prop where
  forest : w.page.IsForest
  stocked : ∀ source, w.cache.lookup l.key = some (.ok source) →
    l.parse f.config = .ok source.tree ∧ Setup.Stocked f.toSetup w.page source

theorem sound_initial (f : Factory) (l : Literal) (signals : List (String × Script)) :
    Sound f l (World.initial signals) where
  forest := isForest_empty
  stocked source h := by cases h

/-- A world stays sound as long as the nodes in fragments are as they were. -/
theorem Sound.of_frame {f : Factory} {l : Literal} {w w' : World} (h : Sound f l w)
    (hcache : w'.cache = w.cache) (hforest : w'.page.IsForest)
    (hsame : ∀ x : Nat, InFragment w.page x → w'.page.node? x = w.page.node? x) :
    Sound f l w' where
  forest := hforest
  stocked source hlookup := by
    rw [hcache] at hlookup
    obtain ⟨hparse, hfurnished, hready⟩ := h.stocked source hlookup
    have hnum : Markup.Numbered (Markup.rootSlot + 1) source.tree.children source.tree.slotCount :=
      numbered_of_parseTokens hparse
    exact ⟨hparse, hfurnished.mono (Nat.le_refl _) fun x _ hx => hsame x hx,
      hready.mono hnum (Nat.le_refl _) (fun x _ hx => hsame x hx) fun _ _ _ => rfl⟩

theorem Sound.of_extends {f : Factory} {l : Literal} {w w' : World} (h : Sound f l w)
    (hcache : w'.cache = w.cache) (hext : w.page.Extends w'.page) : Sound f l w' :=
  h.of_frame hcache hext.forest fun x hx => hext.same x hx.lt_size

/-- A literal compiled, now or before, has its skeletons. -/
theorem compile_sound {f : Factory} {l : Literal} {w w' : World} {source : Compiled}
    (h : Sound f l w) (hrun : compile f l w = some (.ok source, w')) :
    l.parse f.config = .ok source.tree ∧ Setup.Stocked f.toSetup w'.page source ∧
      w.page.Extends w'.page ∧ Sound f l w' ∧ ∃ cache,
      w' = { w with cache := cache, page := w'.page } := by
  rcases compile_cases hrun with ⟨-, houtcome, rfl⟩ | ⟨hlookup, rfl⟩
  · obtain ⟨hparse, hext, hstocked⟩ := Setup.compile_spec (Prod.ext houtcome rfl) h.forest
    refine ⟨hparse, hstocked, hext, ⟨hext.forest, fun source' hlookup' => ?_⟩, _, rfl⟩
    have hsource : source' = source := by
      simpa [Cache.lookup, eq_comm] using hlookup'
    rw [hsource]
    exact ⟨hparse, hstocked⟩
  · obtain ⟨hparse, hstocked⟩ := h.stocked source hlookup
    exact ⟨hparse, hstocked, Extends.refl h.forest, ⟨h.forest, h.stocked⟩, _, rfl⟩

/-- What a literal compiles to is known from its tree. -/
theorem exists_of_compiled {f : Factory} {l : Literal} {w : World} {tree : Markup.Template}
    (h : (compile f l w).map (fun r => r.1.toOption.map Compiled.tree) = some (some tree)) :
    ∃ skeletons w', compile f l w = some (.ok ⟨tree, skeletons⟩, w') := by
  obtain ⟨⟨outcome, w'⟩, hrun, htree⟩ := Option.map_eq_some_iff.mp h
  cases outcome with
  | error e => cases htree
  | ok source =>
    obtain rfl : source.tree = tree := Option.some.inj htree
    exact ⟨source.skeletons, w', hrun⟩

/-- Compiling is no matter of the signals. -/
theorem compile_keeps {f : Factory} {l : Literal} {w w' : World}
    {r : Except TemplateError Compiled} (hrun : compile f l w = some (r, w')) :
    w'.graph = w.graph ∧ w'.live = w.live := by
  rcases compile_cases hrun with ⟨-, -, rfl⟩ | ⟨-, rfl⟩
  · exact ⟨rfl, rfl⟩
  · exact ⟨rfl, rfl⟩

/-- Once compiled, a literal compiles to the same for good. -/
theorem compile_again {f : Factory} {l : Literal} {w w' w₁ : World} {source : Compiled}
    (hrun : compile f l w = some (.ok source, w')) (hcache : w₁.cache = w'.cache) :
    ∃ w₂, compile f l w₁ = some (.ok source, w₂) := by
  have hkept : w₁.cache.lookup l.key = some (.ok source) := by
    rw [hcache]
    rcases compile_cases hrun with ⟨-, -, rfl⟩ | ⟨hlookup, rfl⟩
    · simp [Cache.lookup]
    · exact hlookup
  exact ⟨_, run_compile_hit hkept⟩

end Stencil.Render
