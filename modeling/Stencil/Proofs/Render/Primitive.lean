/-
  Stencil/Proofs/Render/Primitive.lean
  ====================================
  **What is done to a world in one go.**

  The renderer changes a world in few ways: it makes a node or a copy, reads a signal,
  asks for a container or for something stored.  Here is what each of them comes to, as an
  equation.  Whatever is made is new through and through: a copy of a skeleton has no old
  node in it (`stations_copy`).
-/
import Stencil.Proofs.Document.Copy
import Stencil.Proofs.Document.Regrow
import Stencil.Proofs.Document.Replica
import Stencil.Proofs.Render.Insert
import Stencil.Proofs.Render.Yield
import Stencil.Proofs.Template.Outcome
import Stencil.Proofs.Value.Within

namespace Stencil

open Document Document.Plant

/-! ### Copies -/

namespace Document

variable {π η : Type} {d d' : Document π η} {root : Nat}

/-- A copy as a plant of new nodes. -/
theorem exists_copy (h : d.IsForest) (hroot : root < d.size) :
    ∃ t : Plant π η, (d.copy root).1 = d.size ∧ d.Extends (d.copy root).2 ∧
      d.size < (d.copy root).2.size ∧ (d.copy root).2.Stands none (t.copyAt d.size) := by
  obtain ⟨t, rfl, hstand⟩ := h.exists_stands hroot
  obtain ⟨d', hcopy, hforest, hsize, hcopied, hsame⟩ := copy_spec h hstand
  have hext : d.Extends d' := ⟨hforest, by omega, hsame⟩
  have hnode := hcopied.parent?_eq
  have hnew : d.size < d'.size := by
    have hmem := root_mem_ids t
    have hpos := List.length_pos_of_mem hmem
    omega
  rw [hcopy]
  exact ⟨t, rfl, hext, hnew, hcopied⟩

/-- The numbers of a copy are consecutive. -/
theorem ids_copyAt (base : Nat) (t : Plant π η) :
    (t.copyAt base).ids = List.range' base t.ids.length := by
  have hall := idsAll_copyAllAt base [t]
  simpa [copyAllAt, idsAll] using hall

/-- A copy has no properties and no listeners. -/
theorem bare_copy (h : d.IsForest) (hroot : root < d.size) {x : Nat} (hx : d.size ≤ x)
    {e : ElementData π η} (he : (d.copy root).2.element? x = some e) :
    e.properties = [] ∧ e.listeners = [] := by
  obtain ⟨-, hreplica⟩ := h.copy_replica hroot
  obtain ⟨c, hbared⟩ := hreplica.bared hx (element?_eq_some.mp he)
  cases hbared with
  | element _ _ _ hproperties hlisteners => exact ⟨hproperties, hlisteners⟩

/-- An element is what it was when a document has grown. -/
theorem element?_extends (h : d.Extends d') {id : NodeId} (helement : ∃ e, d.element? id = some e) :
    d'.element? id = d.element? id := by
  obtain ⟨e, he⟩ := helement
  rw [element?] at he ⊢
  rcases hn : d.node? id with _ | n
  · rw [hn] at he
    cases he
  · rw [h.node? hn, element?, hn]

end Document

namespace Render

variable {f : Factory} {w : World} {d : Page} {root : Nat}

/-- The stations of a copy are new nodes, and different ones. -/
theorem stations_copy (h : d.IsForest) (hroot : root < d.size) :
    (stations (d.copy root).2 (d.copy root).1).Nodup ∧
      ∀ x : Nat, x ∈ stations (d.copy root).2 (d.copy root).1 →
        d.size ≤ x ∧ x < (d.copy root).2.size := by
  obtain ⟨t, hid, hext, -, hcopied⟩ := exists_copy h hroot
  have hsubtree := hcopied.subtree_eq hext.forest
  rw [root_copyAt] at hsubtree
  have hsub : List.Sublist (stations (d.copy root).2 (d.copy root).1) (t.copyAt d.size).ids := by
    rw [stations, hid, hsubtree]
    exact List.filter_sublist.trans (List.drop_sublist 1 _)
  refine ⟨hsub.nodup (hcopied.nodup_ids hext.forest), fun x hx => ⟨?_, ?_⟩⟩
  · have hmem := hsub.subset hx
    rw [ids_copyAt, List.mem_range'_1] at hmem
    exact hmem.1
  · exact hcopied.lt_size (hsub.subset hx)

/-! ### Signals -/

theorem run_readSignal (name : String) (w : World) :
    readSignal name w = some (w.held name, { w with graph := (w.graph.read name).2 }) := rfl

/-! ### Containers and stored values -/

theorem run_container_old {name : String} {p : String × NodeId}
    (h : w.containers.find? (·.1 == name) = some p) : container name w = some (p.2, w) := by
  have hget : (getThe World : Run World) w = some (w, w) := rfl
  rw [container, run_bind hget, h]
  rfl

theorem run_container_new {name : String} (h : w.containers.find? (·.1 == name) = none) :
    container name w = some (w.page.size, { w with
      page := (w.page.createElement "root" .html).2
      containers := w.containers ++ [(name, w.page.size)] }) := by
  have hget : (getThe World : Run World) w = some (w, w) := rfl
  rw [container, run_bind hget, h]
  rfl

theorem run_storedValue (name : String) (w : World) :
    storedValue name w = some (((w.stored.find? (·.1 == name)).map (·.2)).getD .empty, w) := rfl

theorem within_storedAt {b : Bounds} {ps : List (String × Value)} {name : String}
    (h : ∀ p, ps.find? (·.1 == name) = some p → p.2.Within b) :
    Value.Within b (((ps.find? (·.1 == name)).map (·.2)).getD Value.empty) := by
  cases hfind : ps.find? (·.1 == name) with
  | none => exact .empty
  | some p => exact h p hfind

end Render
end Stencil
