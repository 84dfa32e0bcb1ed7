/-
  Stencil/Proofs/Document/History.lean
  ====================================
  **Which listeners stand on an element, told from what was done to the document.**

  A document in reach has a history, the operations that have made it (`perform`).  Of all
  operations only the registration of a listener on an element touches listeners, and it
  puts the new one behind the others; nothing takes one away, moving and removing a node
  included, and a new node has none, a copy included (`Operation.wiring?_apply`).

  So the listeners of an element are those that the history has registered on it, in the
  order of their registration (`listenersFor_history`).
-/
import Stencil.Document.Event
import Stencil.Proofs.Document.Replica

namespace Stencil.Document

variable {π η : Type} {d d' : Document π η} {os os' : List (Operation π η)}

/-! ### Histories -/

/-- The document after several operations; none if one of them is about a node that does not
    exist. -/
def perform (d : Document π η) : List (Operation π η) → Option (Document π η)
  | [] => some d
  | o :: os => if ∀ x ∈ o.subjects, x < d.size then perform (o.apply d) os else none

theorem perform_append (d : Document π η) (os os' : List (Operation π η)) :
    d.perform (os ++ os') = (d.perform os).bind fun d₁ => d₁.perform os' := by
  induction os generalizing d with
  | nil => rfl
  | cons o os ih =>
    rw [List.cons_append, perform, perform]
    split
    · exact ih _
    · rfl

theorem perform_trans {d₁ : Document π η} (h : d.perform os = some d₁)
    (h' : d₁.perform os' = some d') :
    d.perform (os ++ os') = some d' := by
  rw [perform_append, h]
  exact h'

theorem Reachable.perform (h : Reachable d) (hos : d.perform os = some d') : Reachable d' := by
  induction os generalizing d with
  | nil =>
    obtain rfl := Option.some.inj hos
    exact h
  | cons o os ih =>
    rw [Document.perform] at hos
    split at hos
    · next ho => exact ih (h.step o ho) hos
    · cases hos

/-- The listener that an operation registers on a node, if it registers one. -/
def Operation.added (x : NodeId) : Operation π η → List (Listener η)
  | listen id l => if id = x then [l] else []
  | _ => []

/-- The listeners that operations register on a node, in order. -/
def registered (os : List (Operation π η)) (x : NodeId) : List (Listener η) :=
  os.flatMap (·.added x)

/-! ### Listeners -/

def Content.listeners : Content π η → List (Listener η)
  | element e => e.listeners
  | _ => []

/-- The kind of a node and the listeners that stand on it. -/
def wiring? (d : Document π η) (x : NodeId) : Option (Kind × List (Listener η)) :=
  (d.content? x).map fun c => (c.kind, c.listeners)

theorem listenersFor_eq (d : Document π η) (x : NodeId) (event : String) :
    d.listenersFor x event = ((d.wiring? x).map fun w =>
      w.2.filter (·.event == event)).getD [] := by
  rw [listenersFor, element?, wiring?, content?]
  rcases d.node? x with _ | ⟨c, p, cs⟩
  · rfl
  · cases c <;> rfl

theorem kind_eq_map_wiring? (d : Document π η) (x : NodeId) :
    d.kind x = (d.wiring? x).map (·.1) := by
  rw [kind_eq_map_content?, wiring?, Option.map_map]
  rfl

theorem wiring?_of_size_le {x : Nat} (hx : d.size ≤ x) : d.wiring? x = none := by
  rw [wiring?, content?, node?_of_size_le hx]
  rfl

theorem wiring?_congr {x : NodeId} (h : d'.content? x = d.content? x) :
    d'.wiring? x = d.wiring? x := by
  rw [wiring?, h, wiring?]

/-- A change of one node that keeps its kind and its listeners. -/
theorem wiring?_update {f : NodeData π η → NodeData π η}
    (hkind : ∀ n, (f n).content.kind = n.content.kind)
    (hlisteners : ∀ n, (f n).content.listeners = n.content.listeners)
    (d : Document π η) (id x : NodeId) : (d.update id f).wiring? x = d.wiring? x := by
  rw [wiring?, content?, node?_update, wiring?, content?]
  split
  · simp only [Option.map_map]
    congr 1
    funext n
    exact Prod.ext (hkind n) (hlisteners n)
  · rfl

theorem wiring?_updateElement {f : ElementData π η → ElementData π η}
    (hf : ∀ e, (f e).listeners = e.listeners) (d : Document π η) (id x : NodeId) :
    (d.updateElement id f).wiring? x = d.wiring? x := by
  apply wiring?_update
  · rintro ⟨c, p, cs⟩
    cases c <;> rfl
  · rintro ⟨c, p, cs⟩
    cases c with
    | element e => exact hf e
    | _ => rfl

theorem wiring?_addListener (d : Document π η) (id x : NodeId) (l : Listener η) :
    (d.addListener id l).wiring? x = (d.wiring? x).map fun w =>
      (w.1, if w.1 = .element ∧ id = x then w.2 ++ [l] else w.2) := by
  rw [addListener, wiring?, content?, node?_updateElement, wiring?, content?]
  rcases d.node? x with _ | ⟨c, p, cs⟩
  · rfl
  · cases c with
    | element e => by_cases hid : id = x <;> simp [hid, Content.kind, Content.listeners]
    | _ => rfl

/-! ### What operations do to listeners -/

theorem Change.wiring?_apply (how : Change π) (d : Document π η) (id x : NodeId) :
    (how.apply d id).wiring? x = d.wiring? x := by
  have hattributes (f : Attributes → Attributes) :
      (d.updateAttributes id f).wiring? x = d.wiring? x :=
    wiring?_updateElement (by intro e; rfl) d id x
  cases how with
  | append child => exact wiring?_congr (content?_insertBefore d id child none x)
  | insert child reference => exact wiring?_congr (content?_insertBefore d id child reference x)
  | setText value =>
    apply wiring?_update
    · rintro ⟨c, p, cs⟩
      cases c <;> rfl
    · rintro ⟨c, p, cs⟩
      cases c <;> rfl
  | setAttribute space name value => exact hattributes _
  | removeAttribute name => exact hattributes _
  | setProperty name value =>
    rw [Change.apply, Document.setProperty]
    exact wiring?_updateElement (by intro e; rfl) d id x
  | toggleClass name on => exact hattributes _
  | setStyle property value => exact hattributes _

theorem wiring?_create (d : Document π η) (c : Content π η) (x : NodeId) :
    (d.create c).2.wiring? x = if x = d.size then some (c.kind, c.listeners) else d.wiring? x := by
  rw [wiring?, content?, node?_create, wiring?, content?]
  split <;> rfl

/-- Old nodes keep their listeners when a node is made, and new ones have none. -/
theorem Blueprint.wiring?_build (h : d.IsForest) (b : Blueprint)
    (hsource : ∀ x ∈ b.source?, x < d.size) (x : Nat) :
    (x < d.size → (b.build d).2.wiring? x = d.wiring? x) ∧
      (d.size ≤ x → ∀ w, (b.build d).2.wiring? x = some w → w.2 = []) := by
  have hcreate (c : Content π η) (hc : c.listeners = []) :
      (x < d.size → (d.create c).2.wiring? x = d.wiring? x) ∧
        (d.size ≤ x → ∀ w, (d.create c).2.wiring? x = some w → w.2 = []) := by
    rw [wiring?_create]
    constructor
    · intro hx
      rw [if_neg (Nat.ne_of_lt hx)]
    · intro hx w hw
      split at hw
      · obtain rfl := Option.some.inj hw
        exact hc
      · rw [wiring?_of_size_le hx] at hw
        cases hw
  cases b with
  | element name space => exact hcreate _ rfl
  | text value => exact hcreate _ rfl
  | comment value => exact hcreate _ rfl
  | fragment => exact hcreate _ rfl
  | copy id =>
    obtain ⟨-, hreplica⟩ := h.copy_replica (hsource id rfl)
    constructor
    · intro hx
      rw [Blueprint.build, wiring?, content?, hreplica.old x hx, wiring?, content?]
    · intro hx w hw
      obtain ⟨c', hc', rfl⟩ := Option.map_eq_some_iff.mp hw
      obtain ⟨c, hbared⟩ := hreplica.bared hx hc'
      cases hbared with
      | element _ _ _ _ hlisteners => exact hlisteners
      | _ => rfl

/-- An operation puts the listener that it registers behind the others; all other listeners stay,
    and a new node has none. -/
theorem Operation.wiring?_apply (h : d.IsForest) (o : Operation π η)
    (ho : ∀ x ∈ o.subjects, x < d.size) (x : Nat) :
    (x < d.size → (o.apply d).wiring? x =
        (d.wiring? x).map fun w => (w.1, if w.1 = .element then w.2 ++ o.added x else w.2)) ∧
      (d.size ≤ x → ∀ w, (o.apply d).wiring? x = some w → w.2 = []) := by
  have hkeeps {d' : Document π η} (hadded : o.added x = []) (hsame : d'.wiring? x = d.wiring? x) :
      d'.wiring? x =
        (d.wiring? x).map fun w => (w.1, if w.1 = .element then w.2 ++ o.added x else w.2) := by
    rw [hsame, hadded]
    cases d.wiring? x <;> simp
  have hnew {d' : Document π η} (hsame : d'.wiring? x = d.wiring? x) (hx : d.size ≤ x)
      (w : Kind × List (Listener η)) (hw : d'.wiring? x = some w) : w.2 = [] := by
    rw [hsame, wiring?_of_size_le hx] at hw
    cases hw
  cases o with
  | make b =>
    obtain ⟨hold, hyoung⟩ := b.wiring?_build h (fun y hy => ho y (by simpa [subjects] using hy)) x
    exact ⟨fun hx => hkeeps rfl (hold hx), hyoung⟩
  | change id how =>
    have hsame := how.wiring?_apply d id x
    exact ⟨fun _ => hkeeps rfl hsame, hnew hsame⟩
  | remove id =>
    have hsame := wiring?_congr (content?_detach d id x)
    exact ⟨fun _ => hkeeps rfl hsame, hnew hsame⟩
  | listen id l =>
    rw [Operation.apply, wiring?_addListener]
    constructor
    · intro _
      rw [added]
      by_cases hid : id = x <;> simp [hid]
    · intro hx w hw
      rw [wiring?_of_size_le hx] at hw
      cases hw

/-- The listeners of an element are those that have been registered on it, in order. -/
def Recorded (os : List (Operation π η)) (d : Document π η) : Prop :=
  (∀ x : Nat, ∀ w, d.wiring? x = some w → w.2 = if w.1 = .element then registered os x else []) ∧
    ∀ x : Nat, d.size ≤ x → registered os x = []

theorem Operation.size_le_apply (h : d.IsForest) (o : Operation π η)
    (ho : ∀ x ∈ o.subjects, x < d.size) : d.size ≤ (o.apply d).size := by
  cases o with
  | make b =>
    cases b with
    | copy id =>
      obtain ⟨-, hreplica⟩ := h.copy_replica (ho id (by simp [subjects, Blueprint.source?]))
      have hsize := hreplica.size
      rw [Operation.apply, Blueprint.build]
      omega
    | _ => exact Nat.le_of_lt (by simp [Operation.apply, Blueprint.build, createElement, createText,
        createComment, createFragment])
  | change id how =>
    cases how with
    | append child => exact Nat.le_of_eq (size_moved d id child none).symm
    | insert child reference => exact Nat.le_of_eq (size_moved d id child reference).symm
    | _ => exact Nat.le_of_eq (size_update ..).symm
  | remove id => exact Nat.le_of_eq (size_detach id).symm
  | listen id l => exact Nat.le_of_eq (size_update ..).symm

/-- A registration is on a node that exists. -/
theorem Operation.added_eq_nil (o : Operation π η) (ho : ∀ x ∈ o.subjects, x < d.size) {x : Nat}
    (hx : d.size ≤ x) : o.added x = [] := by
  cases o with
  | listen id l =>
    have hid : id < d.size := ho id (by simp [subjects])
    rw [added, if_neg (Nat.ne_of_lt (Nat.lt_of_lt_of_le hid hx))]
  | _ => rfl

theorem Recorded.step (h : Recorded os d) (hforest : d.IsForest) (o : Operation π η)
    (ho : ∀ x ∈ o.subjects, x < d.size) : Recorded (os ++ [o]) (o.apply d) := by
  obtain ⟨hlisteners, hfuture⟩ := h
  have hregistered (x : NodeId) : registered (os ++ [o]) x = registered os x ++ o.added x := by
    simp [registered]
  constructor
  · intro x w hw
    obtain ⟨hold, hnew⟩ := Operation.wiring?_apply hforest o ho x
    rw [hregistered]
    by_cases hx : x < d.size
    · rw [hold hx] at hw
      obtain ⟨w₀, hw₀, rfl⟩ := Option.map_eq_some_iff.mp hw
      have hbefore := hlisteners x w₀ hw₀
      by_cases hkind : w₀.1 = .element
      · simp only [hkind, if_true] at hbefore ⊢
        rw [hbefore]
      · simp only [hkind, if_false] at hbefore ⊢
        exact hbefore
    · have hle := Nat.le_of_not_lt hx
      rw [hnew hle w hw, hfuture x hle, Operation.added_eq_nil o ho hle]
      simp
  · intro x hx
    have hle : d.size ≤ x := Nat.le_trans (Operation.size_le_apply hforest o ho) hx
    rw [hregistered, hfuture x hle, Operation.added_eq_nil o ho hle]
    rfl

theorem Recorded.perform (h : Recorded os d) (hreachable : Reachable d)
    (hos : d.perform os' = some d') : Recorded (os ++ os') d' := by
  induction os' generalizing d os with
  | nil =>
    obtain rfl := Option.some.inj hos
    rw [List.append_nil]
    exact h
  | cons o os' ih =>
    rw [Document.perform] at hos
    split at hos
    · next ho =>
      have hrest := ih (h.step hreachable.isForest o ho) (hreachable.step o ho) hos
      rwa [List.append_assoc, List.singleton_append] at hrest
    · cases hos

theorem listenersFor_history (h : empty.perform os = some d) (x : NodeId) (event : String) :
    d.listenersFor x event =
      if d.kind x = some .element then (registered os x).filter (·.event == event) else [] := by
  have hempty : Recorded ([] : List (Operation π η)) empty := by
    refine ⟨fun x w hw => ?_, fun _ _ => rfl⟩
    rw [wiring?_of_size_le (Nat.zero_le x)] at hw
    cases hw
  obtain ⟨hlisteners, -⟩ := hempty.perform .empty h
  rw [listenersFor_eq, kind_eq_map_wiring?]
  rcases hw : d.wiring? x with _ | ⟨k, ls⟩
  · simp
  · have hls := hlisteners x (k, ls) hw
    rw [List.nil_append] at hls
    simp only at hls
    by_cases hk : k = .element <;> simp [hk, hls]

end Stencil.Document
