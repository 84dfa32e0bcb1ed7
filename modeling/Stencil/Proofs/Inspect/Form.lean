/-
  Stencil/Proofs/Inspect/Form.lean
  ================================
  **The written form of a literal.**

  The report renders one level deep.  That is enough for values that are shown as they
  are, since capitalized elements are no components there: the run has a result, and the
  result is the direct reading, or the error of the literal (`writtenForm_eq`).  The
  values of the report are such values, so what stands for a run without a result is
  never reported (`writeHtml_eq`).
-/
import Stencil.Inspect.Report
import Stencil.Proofs.Render.Normal

namespace Stencil.Inspect

open Document Markup Render
open Tree.html (htmlAll)

/-! ### What is written -/

/-- The literal read directly with values for its holes, and written. -/
def directForm (l : Literal) (values : List Value) : Except TemplateError String :=
  if values.length ≠ l.holeCount then
    .error (.holeCount l.holeCount values.length)
  else
    match l.parse config with
    | .error e => .error (.parse e)
    | .ok tree => .ok (htmlAll none (directAll factory values tree.children))

/-- With a value for each hole, a literal can only fail to have a tree. -/
theorem directForm_error {l : Literal} {values : List Value} {e : TemplateError}
    (hcount : values.length = l.holeCount) (h : directForm l values = .error e) :
    ∃ fault, e = .parse fault := by
  rw [directForm, if_neg (by simp [hcount])] at h
  split at h
  · rename_i fault _
    cases h
    exact ⟨fault, rfl⟩
  · cases h

theorem isLenient_factory : IsLenient factory := ⟨rfl, rfl, rfl⟩

/-- What compiles renders, and what it renders to is written as the direct reading says. -/
theorem writtenForm_of_compile {l : Literal} {values : List Value} {w w₀ : World}
    {source : Compiled} (hvalues : Value.allImmediate values = true)
    (hcount : values.length = l.holeCount) (hforest : w₀.page.IsForest)
    (hstocked : Setup.Stocked factory.toSetup w₀.page source)
    (hcompile : compile factory l w = some (.ok source, w₀)) :
    ∃ w', writtenForm l values w =
      some (.ok (htmlAll none (directAll factory values source.tree.children)), w') := by
  obtain ⟨w₁, v, ss, hrun, -, hext₁, hbears, htrees, hnodup, -⟩ :=
    isLenient_factory.gives (machine factory 0) hvalues hforest hstocked
  have hrender : renderLiteral factory (machine factory 1) l values w = some (.ok v, w₁) := by
    rw [renderLiteral, if_neg (by simp [hcount]), run_bind hcompile]
    exact run_bind hrun fun v => pure (Except.ok v)
  obtain ⟨base, d, hmount, hforest', hstand, hplace⟩ :=
    mount_new factory (machine factory 1) hext₁.forest hbears hnodup
      (.element ⟨"body", .html, [], [], []⟩)
  have hchildren : d.childTrees w₁.page.size = directAll factory values source.tree.children := by
    rw [childTrees, children_of_node? hplace, hstand.map_tree hforest', Seed.trees_grow, htrees]
  have hverbatim : (some "body").any verbatimElements.contains = false := by decide +kernel
  have hhtml : d.innerHtml w₁.page.size =
      htmlAll none (directAll factory values source.tree.children) := by
    rw [hforest'.innerHtml_childTrees, hchildren, name?_of_node? hplace]
    exact htmlAll_eq_none hverbatim _
  have hwrite : (do
      let body ← onPage (·.createElement "body" .html)
      mount factory (machine factory 1) body v
      return Except.ok ((← page).innerHtml body) : Run (Except TemplateError String)) w₁ =
        some (.ok (d.innerHtml w₁.page.size), { w₁ with page := d }) :=
    (run_bind (run_onPage _ _) _).trans (run_bind hmount _)
  rw [hhtml] at hwrite
  refine ⟨{ w₁ with page := d }, ?_⟩
  rw [writtenForm, run_bind hrender]
  exact hwrite

theorem writtenForm_of_error {l : Literal} {values : List Value} {w w' : World}
    {e : TemplateError}
    (hrun : renderLiteral factory (machine factory 1) l values w = some (.error e, w')) :
    writtenForm l values w = some (.error e, w') := by
  rw [writtenForm, run_bind hrun]
  rfl

/-- One level is deep enough for values that are shown as they are. -/
theorem writtenForm_eq (l : Literal) {values : List Value}
    (hvalues : Value.allImmediate values = true) :
    ∃ w, writtenForm l values (World.initial []) = some (directForm l values, w) := by
  by_cases hcount : values.length = l.holeCount
  · rw [directForm, if_neg (by simp [hcount])]
    rcases hparse : l.parse config with e | tree
    · have hnew : (factory.compile l (World.initial []).page).1 = .error (.parse e) := by
        rw [Setup.compile, show l.parse factory.config = .error e from hparse]
      obtain ⟨w', hcompile⟩ : ∃ w', compile factory l (World.initial []) =
          some (.error (.parse e), w') :=
        ⟨_, hnew ▸ run_compile_new rfl⟩
      refine ⟨w', writtenForm_of_error ?_⟩
      rw [renderLiteral, if_neg (by simp [hcount]), run_bind hcompile]
      rfl
    · obtain ⟨source, w₀, hcompile⟩ := compile_succeeds (w := World.initial []) hparse
        (isLenient_factory.accepts _) fun r h => by cases h
      obtain ⟨hsource, hstocked, hext, -, -⟩ :=
        compile_sound (sound_initial factory l []) hcompile
      obtain rfl : source.tree = tree := Except.ok.inj (hsource.symm.trans hparse)
      exact writtenForm_of_compile hvalues hcount hext.forest hstocked hcompile
  · rw [directForm, if_pos hcount]
    refine ⟨World.initial [], writtenForm_of_error ?_⟩
    rw [renderLiteral, if_pos hcount]
    rfl

/-! ### The values of the report -/

/-- The values of the report are shown as they are, whichever holes are left empty. -/
theorem allImmediate_placeholders (l : Literal) (holes : List String) :
    Value.allImmediate (placeholders l holes) = true := by
  have hfilled (silent : List Nat) : Value.allImmediate (holes.mapIdx fun i code =>
      if silent.contains i then .empty else .text (placeholder code)) = true := by
    refine Value.allImmediate_iff.mpr fun v hv => ?_
    obtain ⟨i, hi, rfl⟩ := List.mem_mapIdx.mp hv
    split
    · rfl
    · rfl
  exact hfilled _

/-- The section on the written form holds the direct reading, or breaks off with the error of the
    literal. -/
theorem writeHtml_eq (path : String) (l : Literal) (holes : List String) :
    (∀ html, directForm l (placeholders l holes) = .ok html →
      writeHtml path l holes = do write ["# html"]; write [html]) ∧
    (∀ e, directForm l (placeholders l holes) = .error e →
      writeHtml path l holes = do write ["# html"]; throw (.unrendered path e)) := by
  obtain ⟨w, hw⟩ := writtenForm_eq l (allImmediate_placeholders l holes)
  have hresult : (writtenForm l (placeholders l holes)).run' (World.initial []) =
      some (directForm l (placeholders l holes)) := by
    change (writtenForm l (placeholders l holes) (World.initial [])).map _ = _
    rw [hw]
    rfl
  constructor
  · intro html hform
    rw [writeHtml, hresult, hform]
    rfl
  · intro e hform
    rw [writeHtml, hresult, hform]
    rfl

end Stencil.Inspect
