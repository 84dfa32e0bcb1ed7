/-
  Stencil/Proofs/Render/Deeper.lean
  =================================
  **A result does not depend on how deep the renderer may go.**

  What a renderer of some depth comes to, every deeper one comes to as well: the depth
  only decides whether there is a result.  This is what all parts keep under the regime
  that permits everything.
-/
import Stencil.Proofs.Render.Governed

namespace Stencil.Render

/-- Everything is permitted. -/
def Bounds.free : Bounds :=
  ⟨fun _ => True, fun _ => True, fun _ => True, fun _ => True, fun _ _ => True, fun _ => True,
    fun _ => True, fun _ => True, fun _ => True⟩

namespace Regime

/-- The regime that permits everything. -/
def free : Regime where
  Kind := Unit
  State := World
  world w := w
  bounds _ _ := Bounds.free
  place _ _ _ := True
  hub _ _ _ := True
  Next _ _ _ := True

mutual

theorem within_free : ∀ v : Value, v.Within Bounds.free
  | .empty => .empty
  | .bool flag => .bool flag
  | .number n => .number n
  | .text s => .text s
  | .node _ => .node trivial
  | .list items => .list (within_free_all items)
  | .reactive r => .reactive (within_free_reader r)
  | .handler _ => .handler fun _ _ => trivial
  | .ref label => .ref label
  | .func _ => .func fun _ _ => trivial
  | .spread entries => .spread (within_free_entries entries)

theorem within_free_all : ∀ vs : List Value, ∀ v ∈ vs, v.Within Bounds.free
  | [] => nofun
  | v :: vs => List.forall_mem_cons.mpr ⟨within_free v, within_free_all vs⟩

theorem within_free_entries : ∀ ps : List (String × Entry), ∀ e ∈ ps, e.2.Within Bounds.free
  | [] => nofun
  | (_, .immediate v) :: ps =>
    List.forall_mem_cons.mpr ⟨.immediate (within_free v), within_free_entries ps⟩
  | (_, .reactive r) :: ps =>
    List.forall_mem_cons.mpr ⟨.reactive (within_free_reader r), within_free_entries ps⟩

theorem within_free_reader : ∀ r : Reader, r.Within Bounds.free
  | .script none _ => .script nofun trivial
  | .script (some ps) _ => .script (fun _ h => Option.some.inj h ▸ within_free_entries ps) trivial
  | .signal _ => .signal trivial
  | .join pieces => .join (within_free_all pieces)
  | .children _ values slot _ => .children slot trivial trivial (within_free_all values)

end

theorem does_free {α : Type} {w : World} (act : Run α) {Q : α → World → Prop}
    (h : ∀ a w', act w = some (a, w') → Q a w') : free.Does () w act act Q :=
  .of_run (fun _ => rfl) fun a w' hrun => ⟨w', rfl, trivial, h a w' hrun⟩

theorem lawful_free (f : Factory) : free.Lawful f where
  refl _ _ := trivial
  trans _ _ _ _ _ _ := trivial
  mono _ _ _ _ _ := ⟨fun _ h => h, fun _ h => h, fun _ h => h, fun _ h => h, fun _ _ h => h,
    fun _ h => h, fun _ h => h, fun _ h => h, fun _ h => h⟩
  place_mono _ _ _ _ _ _ := trivial
  hub_mono _ _ _ _ _ _ := trivial
  coherent _ _ := ⟨fun _ _ _ _ => trivial, fun _ _ _ _ => trivial, fun _ _ _ _ => trivial⟩
  setter _ _ _ := trivial
  content _ _ _ _ := trivial
  component _ _ _ _ _ _ := ⟨trivial, fun _ _ => trivial⟩
  literal _ _ _ _ _ := trivial
  site _ _ _ _ := trivial
  place _ _ _ _ := trivial
  parent _ _ _ _ _ _ := trivial
  fragment _ _ _ _ _ := trivial
  children _ _ _ _ _ _ := trivial
  log _ _ _ := does_free _ fun _ _ _ => trivial
  create _ _ _ _ := does_free _ fun _ _ _ => trivial
  detach _ _ _ _ := does_free _ fun _ _ _ => trivial
  setText _ _ _ _ _ := does_free _ fun _ _ _ => trivial
  insert _ _ _ _ _ _ _ := does_free _ fun _ _ _ => trivial
  apply _ _ _ _ _ _ _ _ _ := does_free _ fun _ _ _ => trivial
  copy _ _ _ _ _ _ _ := does_free _ fun _ _ _ => ⟨trivial, fun _ _ => ⟨trivial, trivial⟩⟩
  compile _ _ _ _ := does_free _ fun _ _ _ _ _ => trivial
  read _ _ _ := does_free _ fun _ _ _ _ => trivial
  untrack _ _ := does_free _ fun _ _ _ => trivial
  track _ _ := does_free _ fun _ _ _ => trivial
  container _ _ _ _ := does_free _ fun _ _ _ => trivial
  stored _ _ _ _ := does_free _ fun v _ _ => within_free v

theorem within_free_binding : ∀ b : Binding, b.Within Bounds.free
  | .attribute _ _ _ r => ⟨trivial, trivial, within_free_reader r⟩
  | .spread _ _ r => ⟨trivial, within_free_reader r⟩
  | .content _ r _ => ⟨trivial, within_free_reader r, fun _ _ => trivial⟩

/-- Running effects is permitted if it has the same results one level deeper. -/
theorem runs_free (f : Factory) {exec exec' : Nat → Run Unit}
    (heffect : ∀ w id, free.Does () w (exec id) (exec' id) fun _ _ => True) :
    free.Runs exec exec' where
  write _ w _ _ _ _ := (does_free (w := w) (modifyGet _) fun _ _ _ => trivial).bind (lawful_free f)
    fun ids _ _ _ => executeAll_does (lawful_free f) heffect ids
  register _ w _ _ := (does_free (w := w) (modifyGet _) fun _ _ _ => trivial).bind (lawful_free f)
    fun id w' _ _ => heffect w' id

theorem runEffect_free (f : Factory) {c c' : Calls} (hc : free.Serves c c') (w : World) (id : Nat) :
    free.Does () w (runEffect f c id) (runEffect f c' id) fun _ _ => True := by
  refine runEffect_does (P := fun _ _ => True) (lawful_free f) (fun w b _ => ?_) ?_ fun w b _ => ?_
  · exact (runBinding_does (lawful_free f) hc (within_free_binding b)).weaken fun _ _ _ _ => trivial
  · exact does_free _ fun _ _ _ _ _ => trivial
  · exact does_free _ fun _ _ _ => trivial

theorem serves_free (f : Factory) (n : Nat) : free.Serves (machine f n) (machine f (n + 1)) := by
  refine machine_serves (lawful_free f) (runs_free f fun _ _ => .failure) (fun n hc => ?_) n
  exact runs_free f fun w id => runEffect_free f hc w id

end Regime

/-! ### Results at larger depths -/

section

variable {f : Factory} {n m : Nat} {w w' : World}

/-- What holds of one level more holds of any number of levels more. -/
theorem machine_le {α : Type} (part : Calls → Run α) {a : α} (hle : n ≤ m)
    (hpart : ∀ n w, Regime.free.Does () w (part (machine f n)) (part (machine f (n + 1)))
      fun _ _ => True)
    (h : part (machine f n) w = some (a, w')) : part (machine f m) w = some (a, w') := by
  induction hle with
  | refl => exact h
  | step _ ih =>
    obtain ⟨w₁, hdeeper, rfl, -⟩ := hpart _ w a w' ih
    exact hdeeper

theorem resolve_le (hle : n ≤ m) {v u : Value} (h : (machine f n).resolve v w = some (u, w')) :
    (machine f m).resolve v w = some (u, w') := by
  refine machine_le (fun c => c.resolve v) hle (fun n w => ?_) h
  exact ((Regime.serves_free f n).resolve () w v (Regime.within_free v)).weaken fun _ _ _ _ =>
    trivial

theorem effect_le (hle : n ≤ m) {id : Nat} (h : (machine f n).effect id w = some ((), w')) :
    (machine f m).effect id w = some ((), w') := by
  refine machine_le (fun c => c.effect id) hle (fun n w => ?_) h
  cases n with
  | zero => exact .failure
  | succ n => exact Regime.runEffect_free f (Regime.serves_free f n) w id

end
end Stencil.Render
