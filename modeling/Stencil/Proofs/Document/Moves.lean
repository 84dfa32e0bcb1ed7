/-
  Stencil/Proofs/Document/Moves.lean
  ==================================
  **What moving nodes leaves alone.**

  Moving nodes changes what stands where and nothing that a node holds
  (`content?_insertBefore`).  And it stays among the nodes that it is asked to move: when
  the nodes of a document are coloured so that children have the colour of their parent
  (`Colouring.Sorted`), nodes of one colour can be moved about without a node of another
  colour being touched (`Stays`).  Some nodes may be open: below them every colour is
  allowed, so that what is of one colour can be put beside what is of another.

  Both are true of any document, forest or not.
-/
import Stencil.Proofs.Document.Forest

namespace Stencil.Document

variable {π η : Type} {d d₁ d' : Document π η}

/-! ### What nodes hold -/

/-- What a node holds. -/
def content? (d : Document π η) (id : NodeId) : Option (Content π η) := (d.node? id).map (·.content)

theorem content?_update {f : NodeData π η → NodeData π η} (hf : ∀ n, (f n).content = n.content)
    (d : Document π η) (id x : NodeId) : (d.update id f).content? x = d.content? x := by
  rw [content?, node?_update, content?]
  split
  · rw [Option.map_map]
    congr 1
    funext n
    exact hf n
  · rfl

theorem content?_detach (d : Document π η) (id x : NodeId) :
    (d.detach id).content? x = d.content? x := by
  rw [detach]
  split
  · rfl
  · rename_i p _
    have hout : (d.update id fun n => { n with parent := none }).content? x = d.content? x :=
      content?_update (by intro n; rfl) d id x
    exact (content?_update (by intro n; rfl) _ p x).trans hout

theorem content?_insertNode (d : Document π η) (p c : NodeId) (reference : Option NodeId)
    (x : NodeId) : (d.insertNode p c reference).content? x = d.content? x := by
  rw [insertNode]
  split
  · rfl
  · have hin : ((d.detach c).update p fun n =>
        { n with children := insertAt n.children c reference }).content? x = d.content? x :=
      (content?_update (by intro n; rfl) _ p x).trans (content?_detach d c x)
    exact (content?_update (by intro n; rfl) _ c x).trans hin

theorem content?_insertBefore (d : Document π η) (p c : NodeId) (reference : Option NodeId)
    (x : NodeId) : (d.insertBefore p c reference).content? x = d.content? x := by
  rw [insertBefore]
  split
  · split
    · rfl
    · have hfold (cs : List NodeId) (d : Document π η) : (cs.foldl (fun d c =>
          (d.update c fun n => { n with parent := none }).insertNode p c reference) d).content? x =
          d.content? x := by
        induction cs generalizing d with
        | nil => rfl
        | cons c cs ih =>
          rw [List.foldl_cons, ih, content?_insertNode]
          exact content?_update (by intro n; rfl) d c x
      rw [hfold]
      exact content?_update (by intro n; rfl) d c x
  · exact content?_insertNode d p c reference x

theorem element?_eq_some {id : NodeId} {e : ElementData π η} :
    d.element? id = some e ↔ d.content? id = some (.element e) := by
  rw [element?, content?]
  rcases d.node? id with _ | ⟨c, p, cs⟩
  · simp
  · cases c <;> simp

theorem kind_eq_map_content? (d : Document π η) (id : NodeId) :
    d.kind id = (d.content? id).map (·.kind) := by
  rw [Document.kind, content?, Option.map_map]
  rfl

/-- A node that holds what it held is the element that it was. -/
theorem element?_congr {id : NodeId} (h : d'.content? id = d.content? id) :
    d'.element? id = d.element? id := by
  apply Option.ext
  intro e
  rw [element?_eq_some, element?_eq_some, h]

/-! ### What changes of one node leave alone -/

theorem isFragment_congr {id : NodeId} (h : d'.content? id = d.content? id) :
    d'.isFragment id = d.isFragment id := by
  rw [isFragment, isFragment, kind_eq_map_content?, kind_eq_map_content?, h]

theorem isFragment_updateElement (d : Document π η) (id x : NodeId)
    (f : ElementData π η → ElementData π η) :
    (d.updateElement id f).isFragment x = d.isFragment x := by
  rw [isFragment, isFragment, Document.kind, Document.kind, node?_updateElement]
  rcases d.node? x with _ | ⟨c, p, cs⟩
  · rfl
  · cases c with
    | element e => by_cases h : id = x <;> simp [h, Content.kind]
    | _ => rfl

theorem isFragment_setText (d : Document π η) (id x : NodeId) (value : String) :
    (d.setText id value).isFragment x = d.isFragment x := by
  rw [isFragment, isFragment, Document.kind, Document.kind, node?_setText]
  rcases d.node? x with _ | ⟨c, p, cs⟩
  · rfl
  · cases c with
    | element e => rfl
    | fragment => rfl
    | _ => by_cases h : id = x <;> simp [h, Content.kind]

theorem element?_setText (d : Document π η) (id x : NodeId) (value : String) :
    (d.setText id value).element? x = d.element? x := by
  rw [element?, element?, node?_setText]
  rcases d.node? x with _ | ⟨c, p, cs⟩
  · rfl
  · cases c with
    | element e => rfl
    | fragment => rfl
    | _ => by_cases h : id = x <;> simp [h]

/-- An element that is changed is an element afterwards. -/
theorem element?_updateElement {id : NodeId} {e : ElementData π η} (h : d.element? id = some e)
    (f : ElementData π η → ElementData π η) : (d.updateElement id f).element? id = some (f e) := by
  obtain ⟨⟨c, q, cs⟩, hn, hcontent⟩ := Option.map_eq_some_iff.mp (element?_eq_some.mp h)
  obtain rfl : c = .element e := hcontent
  rw [element?_eq_some, content?, node?_updateElement, hn]
  simp

/-- An element after a change is one that it was before, changed or not. -/
theorem of_element?_updateElement {id x : NodeId} {f : ElementData π η → ElementData π η}
    {e : ElementData π η} (h : (d.updateElement id f).element? x = some e) :
    ∃ e', d.element? x = some e' ∧ (e = e' ∨ id = x ∧ e = f e') := by
  rw [element?, node?_updateElement] at h
  rcases hn : d.node? x with _ | ⟨c, p, cs⟩
  · simp [hn] at h
  · rw [hn] at h
    cases c with
    | element e' =>
      refine ⟨e', by rw [element?, hn], ?_⟩
      by_cases hid : id = x
      · simp [hid] at h
        exact Or.inr ⟨hid, h.symm⟩
      · simp [hid] at h
        exact Or.inl h.symm
    | _ => simp at h

/-! ### Colours -/

/-- Colours for nodes, where not every node has one, and the nodes that are open. -/
structure Colouring (ι : Type) where
  colour : NodeId → Option ι
  opened : NodeId → Prop
  coloured : ∀ id, opened id → colour id ≠ none

variable {ι : Type} {g : Colouring ι} {k : ι}

namespace Colouring

/-- `c` may stand below `p`. -/
def Links (g : Colouring ι) (p c : NodeId) : Prop :=
  g.colour c = g.colour p ∨ g.opened p ∧ g.colour c ≠ none

/-- The links of a node are between nodes that may be linked. -/
def Fits (g : Colouring ι) (x : NodeId) (n : NodeData π η) : Prop :=
  (∀ p, n.parent = some p → g.Links p x) ∧ ∀ c ∈ n.children, g.Links x c

def Sorted (g : Colouring ι) (d : Document π η) : Prop := ∀ x n, d.node? x = some n → g.Fits x n

/-- A node below which something of colour `k` may be put. -/
def Takes (g : Colouring ι) (k : ι) (x : NodeId) : Prop := g.colour x = some k ∨ g.opened x

theorem Links.takes {p c : NodeId} (h : g.Links p c) (hc : g.colour c = some k) : g.Takes k p :=
  h.imp (fun heq => heq.symm.trans hc) fun h => h.1

theorem Takes.links {p c : NodeId} (h : g.Takes k p) (hc : g.colour c = some k) : g.Links p c :=
  h.imp (fun hp => hc.trans hp.symm) fun hp => ⟨hp, by simp [hc]⟩

theorem Takes.ne_none {x : NodeId} (h : g.Takes k x) : g.colour x ≠ none := by
  rcases h with h | h
  · simp [h]
  · exact g.coloured x h

theorem Sorted.parent (h : g.Sorted d) {x p : NodeId} (hp : d.parent? x = some p) :
    g.Links p x := by
  obtain ⟨n, hn, hparent⟩ := Option.bind_eq_some_iff.mp hp
  exact (h x n hn).1 p hparent

theorem Sorted.child (h : g.Sorted d) {x c : NodeId} (hc : c ∈ d.children x) : g.Links x c := by
  rw [children] at hc
  rcases hx : d.node? x with _ | n
  · simp [hx] at hc
  · exact (h x n hx).2 c (by simpa [hx] using hc)

/-- Below a node without a colour there is none with one. -/
theorem Sorted.child_none (h : g.Sorted d) {x c : NodeId} (hx : g.colour x = none)
    (hc : c ∈ d.children x) : g.colour c = none := by
  rcases h.child hc with heq | ⟨hopen, -⟩
  · exact heq.trans hx
  · exact absurd hx (g.coloured x hopen)

theorem Sorted.child_some (h : g.Sorted d) {x c : NodeId} (hx : g.colour x = some k)
    (hopen : ¬ g.opened x) (hc : c ∈ d.children x) : g.colour c = some k :=
  ((h.child hc).resolve_right fun h => hopen h.1).trans hx

end Colouring

/-- Nothing was done to nodes that colour `k` has nothing to do with, and the links are as they
    have to be. -/
structure Stays (g : Colouring ι) (k : ι) (d d' : Document π η) : Prop where
  sorted : g.Sorted d'
  same : ∀ x, ¬ g.Takes k x → d'.node? x = d.node? x
  size : d'.size = d.size

namespace Stays

theorem refl (h : g.Sorted d) : Stays g k d d := ⟨h, fun _ _ => rfl, rfl⟩

theorem trans (h : Stays g k d d₁) (h' : Stays g k d₁ d') : Stays g k d d' :=
  ⟨h'.sorted, fun x hx => (h'.same x hx).trans (h.same x hx), h'.size.trans h.size⟩

theorem update (h : g.Sorted d) {id : NodeId} (hid : g.Takes k id)
    {f : NodeData π η → NodeData π η} (hf : ∀ n, g.Fits id n → g.Fits id (f n)) :
    Stays g k d (d.update id f) where
  sorted x n hn := by
    rw [node?_update] at hn
    split at hn
    · rename_i heq
      obtain ⟨m, hm, rfl⟩ := Option.map_eq_some_iff.mp hn
      subst heq
      exact hf m (h id m hm)
    · exact h x n hn
  same x hx := by
    rw [node?_update, if_neg]
    rintro rfl
    exact hx hid
  size := size_update d id f

theorem detach (h : g.Sorted d) {id : NodeId} (hid : g.colour id = some k) :
    Stays g k d (d.detach id) := by
  rw [Document.detach]
  rcases hp : d.parent? id with _ | p
  · exact refl h
  · have hfirst : Stays g k d (d.update id fun n => { n with parent := none }) :=
      update h (Or.inl hid) fun n hn => ⟨fun q hq => (by cases hq), hn.2⟩
    refine hfirst.trans (update hfirst.sorted ((h.parent hp).takes hid) fun n hn => ⟨hn.1, ?_⟩)
    intro c hc
    exact hn.2 c (List.mem_of_mem_filter hc)

theorem insertNode (h : g.Sorted d) {p c : NodeId} (hp : g.Takes k p) (hc : g.colour c = some k)
    (reference : Option NodeId) : Stays g k d (d.insertNode p c reference) := by
  rw [Document.insertNode]
  split
  · exact refl h
  · have hout := detach h hc
    have hbelow : Stays g k d ((d.detach c).update p fun n =>
        { n with children := insertAt n.children c reference }) := by
      refine hout.trans (update hout.sorted hp fun n hn => ⟨hn.1, fun x hx => ?_⟩)
      rcases mem_insertAt.mp hx with rfl | hx
      · exact hp.links hc
      · exact hn.2 x hx
    refine hbelow.trans (update hbelow.sorted (Or.inl hc) fun n hn => ⟨fun q hq => ?_, hn.2⟩)
    obtain rfl := Option.some.inj hq
    exact hp.links hc

/-- What is moved out of a fragment has its colour, if the fragment is not open. -/
theorem insertBefore (h : g.Sorted d) {p c : NodeId} (hp : g.Takes k p) (hc : g.colour c = some k)
    (hclosed : d.isFragment c = true → ¬ g.opened c) (reference : Option NodeId) :
    Stays g k d (d.insertBefore p c reference) := by
  rw [Document.insertBefore]
  split
  · rename_i hfragment
    split
    · exact refl h
    · have hmoved : ∀ x ∈ d.children c, g.colour x = some k := fun x hx =>
        h.child_some hc (hclosed hfragment) hx
      have hfold : ∀ (cs : List NodeId) {d : Document π η}, g.Sorted d →
          (∀ x ∈ cs, g.colour x = some k) → Stays g k d (cs.foldl (fun d c =>
            (d.update c fun n => { n with parent := none }).insertNode p c reference) d) := by
        intro cs
        induction cs with
        | nil => exact fun h _ => refl h
        | cons c cs ih =>
          intro d h hcs
          obtain ⟨hc, hcs⟩ := List.forall_mem_cons.mp hcs
          have hfree : Stays g k d (d.update c fun n => { n with parent := none }) :=
            update h (Or.inl hc) fun n hn => ⟨fun q hq => (by cases hq), hn.2⟩
          have hin := hfree.trans (insertNode hfree.sorted hp hc reference)
          exact hin.trans (ih hin.sorted hcs)
      have hempty : Stays g k d (d.update c fun n => { n with children := [] }) :=
        update h (Or.inl hc) fun n hn => ⟨hn.1, fun x hx => absurd hx List.not_mem_nil⟩
      exact hempty.trans (hfold _ hempty.sorted hmoved)
  · exact insertNode h hp hc reference

theorem setText (h : g.Sorted d) {id : NodeId} (hid : g.colour id = some k) (value : String) :
    Stays g k d (d.setText id value) := by
  refine update h (Or.inl hid) fun n hn => ?_
  cases n.content <;> exact hn

theorem updateElement (h : g.Sorted d) {id : NodeId} (hid : g.colour id = some k)
    (f : ElementData π η → ElementData π η) : Stays g k d (d.updateElement id f) := by
  refine update h (Or.inl hid) fun n hn => ?_
  cases n.content <;> exact hn

end Stays

/-- No node is made or lost by a move. -/
theorem size_moved (d : Document π η) (p c : NodeId) (reference : Option NodeId) :
    (d.insertBefore p c reference).size = d.size := by
  have hfits (x : NodeId) (n : NodeData π η) :
      (⟨fun _ => some (), fun _ => False, fun _ h => h.elim⟩ : Colouring Unit).Fits x n :=
    ⟨fun _ _ => Or.inl rfl, fun _ _ => Or.inl rfl⟩
  exact (Stays.insertBefore (d := d) (p := p) (c := c) (k := ()) (fun x n _ => hfits x n)
    (Or.inl rfl) rfl (fun _ h => h) reference).size

end Stencil.Document
