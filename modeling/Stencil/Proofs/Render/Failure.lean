/-
  Stencil/Proofs/Render/Failure.lean
  ==================================
  **A render that fails leaves everything else alone.**

  A render fails in one of three places: before anything is done, if there are too many or
  too few values; when the literal has no tree; and half-way through its skeletons, at an
  element without a component.  The outcome is kept in the cache in the last two cases.

  The call may come at any moment, also from inside a component that is being rendered
  itself.  `Since` says what can have happened by then, as far as it matters here:
  literals have been compiled, and nothing else has touched the cache.  Whatever part of
  the renderer runs keeps to that (`passage_since`).
-/
import Stencil.Proofs.Render.Replace
import Stencil.Proofs.Render.Passage
import Stencil.Proofs.Render.Untouched
import Stencil.Proofs.Template.Filling
import Stencil.Proofs.Template.Memo

namespace Stencil

open Document

/-- The errors that compiling can end in. -/
theorem Setup.compile_error {κ : Type} {s : Setup κ} {l : Literal} {d : Page} {e : TemplateError}
    (h : (s.compile l d).1 = .error e) :
    (∃ p, e = .parse p ∧ (s.compile l d).2 = d) ∨ ∃ name, e = .unknownComponent name := by
  rw [Setup.compile_eq_materialize] at h ⊢
  rcases hparse : l.parse s.config with p | tree
  · rw [hparse] at h
    exact Or.inl ⟨p, (Except.error.inj h).symm, rfl⟩
  · rw [hparse] at h
    have hbuild : ((s.build tree).run ⟨d, List.replicate tree.slotCount none⟩).1 = .error e := h
    have hends := Setup.ends_build s tree
    rcases hrefusal : s.refusal? (Markup.elementsOfAll tree.children) with _ | e'
    · rw [hrefusal] at hends
      obtain ⟨source, w', hrun, -⟩ := hends ⟨d, List.replicate tree.slotCount none⟩
      rw [hrun] at hbuild
      cases hbuild
    · rw [hrefusal] at hends
      obtain ⟨w', hrun⟩ := hends ⟨d, List.replicate tree.slotCount none⟩
      rw [hrun] at hbuild
      obtain rfl := Except.error.inj hbuild
      obtain ⟨⟨tag, _⟩, -, htag⟩ := Option.map_eq_some_iff.mp hrefusal
      exact Or.inr ⟨tag.name, htag.symm⟩

namespace Render

variable {f : Factory} {signals : List (String × Script)} {hand : List Value} {w₀ w w' : World}
  {key : Option String} {out : Except TemplateError Compiled} {l : Literal}

/-! ### What can have happened meanwhile -/

/-- Literals have been compiled, and apart from that the cache has been left alone. -/
inductive Since (f : Factory) (w₀ : World) : World → Prop where
  | refl : Since f w₀ w₀
  | compile {w w' : World} {out : Except TemplateError Compiled} (h : Since f w₀ w) (l : Literal)
      (hrun : compile f l w = some (out, w')) : Since f w₀ w'
  | aside {w w' : World} (h : Since f w₀ w) (hcache : w'.cache = w.cache) : Since f w₀ w'

theorem Since.trans (h : Since f w₀ w) (h' : Since f w w') : Since f w₀ w' := by
  induction h' with
  | refl => exact h
  | compile _ l hrun ih => exact ih.compile l hrun
  | aside _ hcache ih => exact ih.aside hcache

/-- Whatever the renderer does, it compiles literals and leaves the cache alone otherwise. -/
theorem passage_since (f : Factory) : Passage f (Since f) where
  trans := Since.trans
  aside _ hcache := .aside .refl hcache
  compile l _ _ _ hrun := .compile .refl l hrun
  read _ _ := .aside .refl rfl
  write _ _ _ := .aside .refl rfl
  register _ _ := .aside .refl rfl
  untracked {w _} h := by
    have hopen : Since f w { w with graph := w.graph.openUntracked } := .aside .refl rfl
    exact (hopen.trans h).aside rfl
  run {w _ id _} _ h _ := by
    have hstart : Since f w { w with graph := (w.graph.start id).2 } := .aside .refl rfl
    exact (hstart.trans h).aside rfl

/-- So does an application. -/
theorem Course.since (h : Course f signals hand w) : Since f (World.initial signals) w := by
  have law := passage_since f
  induction h with
  | start => exact .refl
  | @step _ _ _ n _ _ step hrun ih => exact ih.trans (law.perform (law.calls n) step _ _ _ hrun)
  | @render _ values _ _ n _ _ l _ hrun ih =>
    exact ih.trans (law.renderLiteral (law.calls n) l values _ _ _ hrun)
  | @read _ _ _ n r _ _ _ hrun ih => exact ih.trans ((law.calls n).read r _ _ _ hrun)
  | @build _ _ _ n _ _ code hrun ih => exact ih.trans ((law.calls n).build none code _ _ _ hrun)
  | @mount _ _ _ n parent v _ _ _ hrun ih =>
    exact ih.trans (law.mount (law.calls n) parent v _ _ _ hrun)
  | @dispatch _ _ _ n _ target _ _ event hrun ih =>
    exact ih.trans (law.dispatch (law.calls n) target event _ _ _ hrun)
  | operate _ _ _ ih => exact ih.aside rfl

/-- What a cache keeps for a key is the outcome of compiling a literal with that key. -/
theorem Since.cached (h : Since f (World.initial signals) w) (hmem : (key, out) ∈ w.cache.entries) :
    ∃ l page, l.key = key ∧ (f.compile l page).1 = out := by
  induction h with
  | refl => cases hmem
  | @compile w _ _ _ l hrun ih =>
    rcases compile_cases hrun with ⟨-, hout, rfl⟩ | ⟨-, rfl⟩
    · rcases List.mem_cons.mp hmem with heq | hmem
      · obtain ⟨rfl, rfl⟩ := Prod.mk.inj heq
        exact ⟨l, w.page, rfl, hout⟩
      · exact ih hmem
    · exact ih hmem
  | aside _ hcache ih => exact ih (hcache ▸ hmem)

/-- What a cache keeps for a key stays. -/
theorem Since.lookup (h : Since f w w') (hlookup : w.cache.lookup key = some out) :
    w'.cache.lookup key = some out := by
  induction h with
  | refl => exact hlookup
  | @compile w₁ _ _ _ l hrun ih =>
    rcases compile_cases hrun with ⟨hl, -, rfl⟩ | ⟨-, rfl⟩
    · have hne : l.key ≠ key := by
        rintro rfl
        rw [ih] at hl
        cases hl
      rw [Cache.lookup_cons, if_neg hne]
      exact ih
    · exact ih
  | aside _ hcache ih => rw [hcache, ih]

/-! ### Failing -/

variable {values : List Value} {e : TemplateError} {c : Calls}

/-- A render with the right number of values fails if compiling fails, and in no other way. -/
theorem renderLiteral_error (h : renderLiteral f c l values w = some (.error e, w')) :
    (values.length ≠ l.holeCount ∧ e = .holeCount l.holeCount values.length ∧ w' = w) ∨
      values.length = l.holeCount ∧ compile f l w = some (.error e, w') := by
  unfold renderLiteral at h
  split at h
  · rename_i hcount
    obtain ⟨heq, rfl⟩ := Prod.mk.inj (Option.some.inj h)
    exact Or.inl ⟨hcount, (Except.error.inj heq).symm, rfl⟩
  · rename_i hcount
    obtain ⟨out, w₁, hcompile, hrest⟩ := run_of_bind h
    cases out with
    | error e' =>
      obtain ⟨heq, rfl⟩ := Prod.mk.inj (Option.some.inj hrest)
      obtain rfl := Except.error.inj heq
      exact Or.inr ⟨Decidable.not_not.mp hcount, hcompile⟩
    | ok source =>
      obtain ⟨v, w₂, -, hpure⟩ := run_of_bind hrest
      cases hpure

theorem renderLiteral_of_compile (c : Calls) (hcount : values.length = l.holeCount)
    (h : compile f l w = some (.error e, w')) :
    renderLiteral f c l values w = some (.error e, w') := by
  rw [renderLiteral, if_neg (not_not.mpr hcount), run_bind h]
  rfl

/-- What a failing compilation leaves behind: new nodes among themselves, and the error in the
    cache. -/
theorem compile_failed_spec (h : compile f l w = some (.error e, w')) :
    w' = { w with page := w'.page, cache := w'.cache } ∧ w.page.Adjoins w'.page ∧
      w'.cache.lookup l.key = some (.error e) := by
  rcases compile_cases h with ⟨-, -, rfl⟩ | ⟨hlookup, rfl⟩
  · refine ⟨rfl, Setup.compile_adjoins _ l w.page, ?_⟩
    rw [Cache.lookup_cons, if_pos rfl]
  · exact ⟨rfl, .refl _, hlookup⟩

/-- A failing compilation is no matter of how many values there are, and without a tree there are no
    new nodes. -/
theorem Since.compile_failed (hsince : Since f (World.initial signals) w)
    (h : Render.compile f l w = some (.error e, w')) :
    (∀ expected found, e ≠ .holeCount expected found) ∧ ∀ p, e = .parse p → w'.page = w.page := by
  rcases compile_cases h with ⟨-, herror, rfl⟩ | ⟨hlookup, rfl⟩
  · rcases Setup.compile_error herror with ⟨p, rfl, hpage⟩ | ⟨name, rfl⟩
    · exact ⟨nofun, fun _ _ => hpage⟩
    · exact ⟨nofun, nofun⟩
  · refine ⟨?_, fun _ _ => rfl⟩
    obtain ⟨⟨key, out⟩, hfind, rfl⟩ := Option.map_eq_some_iff.mp hlookup
    obtain ⟨l', page, -, hcompile⟩ := hsince.cached (List.mem_of_find?_eq_some hfind)
    rintro expected found rfl
    rcases Setup.compile_error hcompile with ⟨p, hp, -⟩ | ⟨name, hname⟩
    · cases hp
    · cases hname

/-- **A failing render leaves everything else alone**, at any moment since the application has come
    to some state.  Every renderer fails in the same way, also the one that cannot call or read
    anything; only the page and the cache are touched, and all nodes that were there are as they
    were.  After a wrong number of values nothing at all has changed, and a literal without a tree
    makes no node.  Nodes that were made before an unknown component was met have to do with each
    other only.  From then on the literal fails with the same error each time, and that is
    counted. -/
theorem renderLiteral_failed {n : Nat} (hcourse : Course f signals hand w₀) (hsince : Since f w₀ w)
    (hrun : renderLiteral f (machine f n) l values w = some (.error e, w')) :
    (∀ c, renderLiteral f c l values w = some (.error e, w')) ∧
      w' = { w with page := w'.page, cache := w'.cache } ∧
      (∀ id < w.page.size, w'.page.node? id = w.page.node? id) ∧
      (∀ expected found, e = .holeCount expected found → w' = w) ∧
      (∀ p, e = .parse p → w'.page = w.page) ∧
      (∀ name, e = .unknownComponent name →
        ∀ id node, w.page.size ≤ id → w'.page.node? id = some node →
          (∀ p, node.parent = some p → w.page.size ≤ p) ∧
            ∀ child ∈ node.children, w.page.size ≤ child) ∧
      (values.length = l.holeCount → ∀ again : List Value, again.length = l.holeCount →
        ∀ c w'', Since f w' w'' → renderLiteral f c l again w'' =
          some (.error e,
            { w'' with cache := { w''.cache with hits := w''.cache.hits + 1 } })) := by
  rcases renderLiteral_error hrun with ⟨hcount, rfl, rfl⟩ | ⟨hcount, hcompile⟩
  · refine ⟨fun c => ?_, rfl, fun _ _ => rfl, fun _ _ _ => rfl, fun _ _ => rfl, nofun,
      fun h => absurd h hcount⟩
    rw [renderLiteral, if_pos hcount]
    rfl
  · obtain ⟨hrest, hadjoins, hlookup⟩ := compile_failed_spec hcompile
    obtain ⟨hholes, hparse⟩ := (hcourse.since.trans hsince).compile_failed hcompile
    refine ⟨fun c => renderLiteral_of_compile c hcount hcompile, hrest, hadjoins.same,
      fun a b he => absurd he (hholes a b), hparse, fun _ _ => hadjoins.links, ?_⟩
    intro _ again hagain c w'' hlater
    exact renderLiteral_of_compile c hagain (run_compile_hit (hlater.lookup hlookup))

/-- A paragraph with an element in it that calls for a component. -/
def cardLiteral : Literal := ⟨"card", ["<p><Card></Card></p>"]⟩

/-- An element of the application, and nothing else. -/
def ownWorld : World :=
  { World.initial [] with page := (World.initial []).page.createElement "b" .html |>.2 }

/-- The error of a render and the number of nodes after it. -/
def failureOf : Option (Except TemplateError Value × World) → Option (TemplateError × Nat)
  | some (.error e, w) => some (e, w.page.size)
  | _ => none

/-- There is no card.  A fragment and a paragraph have been made by then; the element is as it was,
    and the second attempt is answered by the cache. -/
theorem renderLiteral_failed_card :
    ∃ w', renderLiteral plainFactory (machine plainFactory 5) cardLiteral [] ownWorld =
        some (.error (.unknownComponent "Card"), w') ∧ w'.page.size = 3 ∧
      w'.page.node? 0 = ownWorld.page.node? 0 ∧
      renderLiteral plainFactory (machine plainFactory 5) cardLiteral [] w' =
        some (.error (.unknownComponent "Card"),
          { w' with cache := { w'.cache with hits := w'.cache.hits + 1 } }) := by
  have hfailure : failureOf
      (renderLiteral plainFactory (machine plainFactory 5) cardLiteral [] ownWorld) =
      some (.unknownComponent "Card", 3) := by
    decide +kernel
  obtain ⟨w', hrun, hsize⟩ : ∃ w',
      renderLiteral plainFactory (machine plainFactory 5) cardLiteral [] ownWorld =
      some (.error (.unknownComponent "Card"), w') ∧ w'.page.size = 3 := by
    rcases hout : renderLiteral plainFactory (machine plainFactory 5) cardLiteral [] ownWorld with
      _ | ⟨e | v, w'⟩
    · rw [hout] at hfailure
      cases hfailure
    · rw [hout] at hfailure
      obtain ⟨rfl, hsize⟩ := Prod.mk.inj (Option.some.inj hfailure)
      exact ⟨w', rfl, hsize⟩
    · rw [hout] at hfailure
      cases hfailure
  have hcourse : Course plainFactory [] ([.node 0] ++ []) ownWorld :=
    Course.start.operate (.make (.element "b" .html)) nofun
  obtain ⟨-, -, hsame, -, -, -, hagain⟩ := renderLiteral_failed hcourse .refl hrun
  exact ⟨w', hrun, hsize, hsame 0 (by decide), hagain rfl [] rfl _ _ .refl⟩

end Render
end Stencil
