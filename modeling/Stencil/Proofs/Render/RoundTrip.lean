/-
  Stencil/Proofs/Render/RoundTrip.lean
  ====================================
  **A written page, rendered, is the page again.**

  `parse_htmlAll` takes the written form of canonical trees back to their source.  Here
  the source is rendered: it has no hole, no component and no attribute that must wait,
  so a container gives what the direct reading says, and that is the trees again, with
  their namespaces worked out anew (`Tree.respaced`).  A namespace is never written, so
  the written form is the same as well (`renderLiteral_mount_written`).
-/
import Stencil.Proofs.Markup.Written
import Stencil.Proofs.Render.Direct

namespace Stencil

namespace Document

open Tree.html (htmlAll)

/-! ### Namespaces worked out anew -/

mutual

/-- The tree as it is read back, inside SVG or not: its namespaces are not kept. -/
def Tree.respaced (svg : Bool) : Tree → Tree
  | .element name _ as children =>
    .element name (if name == "svg" || svg then .svg else .html)
      (as.map fun a => ⟨a.name, a.value, none⟩) (respacedAll (name == "svg" || svg) children)
  | t => t

/-- Several trees as they are read back. -/
def respacedAll (svg : Bool) : List Tree → List Tree
  | [] => []
  | t :: ts => t.respaced svg :: respacedAll svg ts

end

theorem canonical_of_mem {ts : List Tree} (h : CanonicalAll ts) {t : Tree} (ht : t ∈ ts) :
    t.Canonical := by
  induction ts with
  | nil => cases ht
  | cons u ts ih =>
    rcases List.mem_cons.mp ht with rfl | ht
    · exact h.1
    · exact ih h.2.2 ht

theorem startTag_respaced (name : String) (as : Attributes) :
    startTag name (as.map fun a => ⟨a.name, a.value, none⟩) = startTag name as := by
  rw [startTag, startTag, List.map_map]
  rfl

mutual

theorem html_respaced (svg : Bool) (parent : Option String) :
    ∀ t : Tree, (t.respaced svg).html parent = t.html parent
  | .element name space as children => by
    rw [Tree.respaced, Tree.html, Tree.html, startTag_respaced, htmlAll_respaced _ _ children]
  | .text value => by rw [Tree.respaced]; simp
  | .comment value => by rw [Tree.respaced]; simp
  | .fragment children => by rw [Tree.respaced]; simp

/-- Namespaces are not written. -/
theorem htmlAll_respaced (svg : Bool) (parent : Option String) :
    ∀ ts : List Tree, htmlAll parent (respacedAll svg ts) = htmlAll parent ts
  | [] => by rw [respacedAll]
  | t :: ts => by
    rw [respacedAll, htmlAll, htmlAll, html_respaced svg parent t, htmlAll_respaced svg parent ts]

end

/-- Only in an element whose texts are written to the letter does it matter where a tree stands. -/
theorem html_eq_none {parent : Option String} (h : parent.any verbatimElements.contains = false)
    (t : Tree) : t.html parent = t.html none := by
  cases t with
  | element name space as children => rw [Tree.html, Tree.html]
  | text value =>
    rw [Tree.html, Tree.html, textHtml, textHtml, h]
    rfl
  | comment value => rw [Tree.html, Tree.html]
  | fragment children => rw [Tree.html, Tree.html]

theorem htmlAll_eq_none {parent : Option String} (h : parent.any verbatimElements.contains = false)
    (ts : List Tree) : htmlAll parent ts = htmlAll none ts := by
  induction ts with
  | nil => rfl
  | cons t ts ih => rw [htmlAll, htmlAll, html_eq_none h, ih]

/-- An attribute of a new name comes last. -/
theorem setAttribute_new {as : Attributes} {name : String} (h : name ∉ as.map (·.name))
    (space : Option String) (value : String) :
    setAttribute as space name value = as ++ [⟨name, value, space⟩] := by
  induction as with
  | nil => rfl
  | cons a as ih =>
    obtain ⟨hne, has⟩ : ¬ name = a.name ∧ name ∉ as.map (·.name) := by
      simpa only [List.map_cons, List.mem_cons, not_or] using h
    rw [setAttribute, if_neg (Ne.symm hne), ih has, List.cons_append]

/-- The names of attributes select no rule. -/
theorem IsAttributeName.resolve {name : String} (h : IsAttributeName name) :
    Policy.usual.resolve name = (Policy.fallback, name) := by
  have hplain : (ruleMarks.all fun c => !(c.isAlphanum || c == '-' || c == '_')) = true := by
    decide +kernel
  refine resolve_usual_plain (fun c hc => h.not_mem ?_) h.2.2
  simpa using List.all_eq_true.mp hplain c hc

end Document

namespace Setup

open Document Markup

variable {κ : Type} {s : Setup κ}

/-! ### Elements of a page -/

/-- The attributes of a page are all applied to what is copied. -/
theorem markPrebound_readAs {as : Attributes} (has : ∀ a ∈ as, IsAttributeName a.name) :
    markPrebound .usual false (as.map readAs) = (as.map readAs).map fun a => (a, true) := by
  induction as with
  | nil => rfl
  | cons a as ih =>
    have hprebound : (readAs a).isPrebound .usual false = true := by
      rw [Attr.isPrebound]
      simp only [readAs, Attr.name?, (has a List.mem_cons_self).resolve]
      rfl
    rw [List.map_cons, markPrebound, hprebound, List.map_cons]
    exact congrArg _ (ih fun a ha => has a (List.mem_cons_of_mem _ ha))

/-- Attributes of different names are set one behind the other. -/
theorem applyAttrs_readAs (hpolicy : s.policy = .usual) {as : Attributes}
    (has : ∀ a ∈ as, IsAttributeName a.name) (e : ElementState)
    (hnodup : (e.attributes.map (·.name) ++ as.map (·.name)).Nodup) :
    s.applyAttrs Attr.fixedValue (as.map readAs) e =
      { e with attributes := e.attributes ++ as.map fun a => ⟨a.name, a.value, none⟩ } := by
  induction as generalizing e with
  | nil => simp [applyAttrs]
  | cons a as ih =>
    have hnew : a.name ∉ e.attributes.map (·.name) := by
      intro hmem
      exact (List.nodup_append.mp hnodup).2.2 _ hmem _ List.mem_cons_self rfl
    have hone : s.applyAttr Attr.fixedValue (readAs a) e =
        { e with attributes := e.attributes ++ [⟨a.name, a.value, none⟩] } := by
      rw [applyAttr]
      simp only [readAs, Attr.name?, hpolicy, (has a List.mem_cons_self).resolve]
      rw [← setAttribute_new hnew]
      rfl
    rw [List.map_cons, applyAttrs, List.foldl_cons, hone]
    refine (ih (fun a ha => has a (List.mem_cons_of_mem _ ha)) _ ?_).trans ?_
    · simpa using hnodup
    · simp

end Setup

namespace Render

open Document Document.Tree.html Markup Setup

variable {f : Factory}

/-- The element of a page is the element that its tag becomes. -/
theorem dressed_readAs (hpolicy : f.policy = .usual) {tag : Tag} {as : Attributes}
    (htag : tag.attrs = as.map readAs) (has : ∀ a ∈ as, IsAttributeName a.name)
    (hnodup : (as.map (·.name)).Nodup) :
    (dressed f [] tag).attributes = as.map fun a => ⟨a.name, a.value, none⟩ := by
  have hmarks : markPrebound f.policy false tag.attrs =
      (as.map readAs).map fun a => (a, true) := by rw [hpolicy, htag, markPrebound_readAs has]
  have hbound : f.boundAttrs tag = [] := by
    rw [boundAttrs, hmarks]
    simp
  have hprebound : f.preboundAttrs tag = as.map readAs := by
    rw [preboundAttrs, hmarks]
    simp [List.filter_map, Function.comp_def]
  rw [dressed, hbound, applyAttrs, List.foldl_nil, Sprouts.copied, elementOf_eq, hprebound,
    applyAttrs_readAs hpolicy has _ (by simpa using hnodup)]
  rfl

mutual

theorem direct_source (hpolicy : f.policy = .usual) (svg : Bool) : ∀ {t : Tree}, t.Canonical →
    directAll f [] (t.source svg) = [t.respaced svg]
  | .element name _ as children, h => by
    obtain ⟨-, has, hnodup, -, -, hchildren⟩ := h
    rw [Tree.source, directAll, directAll, direct, if_neg (by simp [Registry.isComponent,
      Registry.componentFor?]), dressed_readAs hpolicy rfl has hnodup,
      directAll_sourceAll hpolicy _ hchildren, List.append_nil, Tree.respaced]
  | .text value, _ => by
    rw [Tree.source, directAll, directAll, direct, List.append_nil, Tree.respaced]
    simp
  | .comment _, h => h.elim
  | .fragment _, h => h.elim

/-- The direct reading of the source of canonical trees. -/
theorem directAll_sourceAll (hpolicy : f.policy = .usual) (svg : Bool) : ∀ {ts : List Tree},
    CanonicalAll ts → directAll f [] (sourceAll svg ts) = respacedAll svg ts
  | [], _ => by rw [sourceAll, directAll, respacedAll]
  | t :: ts, h => by
    rw [sourceAll, directAll_append, direct_source hpolicy svg h.1,
      directAll_sourceAll hpolicy svg h.2.2, respacedAll]
    rfl

end

/-! ### Rendering the source -/

mutual

theorem slotless_source (svg : Bool) : ∀ t : Tree,
    Node.EveryTagAll (fun tag => tag.slot = none) (t.source svg)
  | .element name _ as children => by
    rw [Tree.source]
    exact ⟨⟨rfl, slotless_sourceAll _ children⟩, trivial⟩
  | .text value => by
    rw [Tree.source]
    exact ⟨trivial, trivial⟩
  | .comment _ => trivial
  | .fragment _ => trivial

/-- In the source of trees nothing can be a component. -/
theorem slotless_sourceAll (svg : Bool) : ∀ ts : List Tree,
    Node.EveryTagAll (fun tag => tag.slot = none) (sourceAll svg ts)
  | [] => trivial
  | t :: ts => by
    rw [sourceAll]
    exact Node.everyTagAll_append (slotless_source svg t) (slotless_sourceAll svg ts)

end

/-- A literal of which no element is refused is compiled, if the cache keeps no error that
    compiling it does not come to. -/
theorem compile_succeeds {l : Literal} {w : World} {tree : Template}
    (hparse : l.parse f.config = .ok tree)
    (htags : Node.EveryTagAll f.toSetup.Accepts tree.children)
    (hkept : ∀ r, w.cache.lookup l.key = some r → ∃ d, (f.compile l d).1 = r) :
    ∃ source w₀, compile f l w = some (.ok source, w₀) := by
  have hsome (d : Page) : ∃ source, (f.compile l d).1 = .ok source := by
    obtain ⟨skeletons, d', h⟩ := compile_of_accepts (s := f.toSetup) hparse htags d
    exact ⟨_, congrArg Prod.fst h⟩
  rcases hlookup : w.cache.lookup l.key with _ | r
  · obtain ⟨source, hsource⟩ := hsome w.page
    exact ⟨source, _, hsource ▸ run_compile_new hlookup⟩
  · obtain ⟨d, rfl⟩ := hkept r hlookup
    obtain ⟨source, hsource⟩ := hsome d
    exact ⟨source, _, run_compile_hit (hsource ▸ hlookup)⟩

/-- A page written, rendered and put into an empty node is the same page, and is written the
    same. -/
theorem renderLiteral_mount_written {π η : Type} {d : Document π η} {nodes : List NodeId}
    {l : Literal} {w : World} {parent : Nat} (hforest : d.IsForest)
    (hcanonical : CanonicalAll (nodes.map d.tree))
    (hplain : ∀ x ∈ nodes, ((d.parent? x).bind d.name?).any verbatimElements.contains = false)
    (hconfig : f.config = .usual) (hpolicy : f.policy = .usual)
    (hsegments : l.segments = [String.join (nodes.map d.toHtml)]) (hsound : Sound f l w)
    (hkept : ∀ r, w.cache.lookup l.key = some r → ∃ d, (f.compile l d).1 = r)
    (hparent : parent < w.page.size) (hempty : w.page.children parent = []) (n : Nat) :
    ∃ v w₁ w₂, renderLiteral f (machine f (n + 1)) l [] w = some (.ok v, w₁) ∧
      mount f (machine f (n + 1)) parent v w₁ = some ((), w₂) ∧
      w₂.page.childTrees parent = respacedAll false (nodes.map d.tree) ∧
      w₂.page.innerHtml parent = htmlAll (w.page.name? parent) (nodes.map d.tree) ∧
      ((w.page.name? parent).any verbatimElements.contains = false →
        w₂.page.innerHtml parent = String.join (nodes.map d.toHtml)) := by
  have hlt (x : Nat) (hx : x ∈ nodes) : x < d.size := by
    by_contra hge
    have htree : d.tree x = .fragment [] := by
      rw [tree, treeUpTo, node?_of_size_le (Nat.le_of_not_lt hge)]
    have hx' := canonical_of_mem hcanonical (List.mem_map_of_mem hx)
    rw [htree] at hx'
    exact hx'
  have hwritten : String.join (nodes.map d.toHtml) = htmlAll none (nodes.map d.tree) :=
    join_toHtml fun x hx => by
      rw [hforest.toHtml_tree (hlt x hx), html_eq_none (hplain x hx)]
  have hparse : l.parse f.config = .ok ⟨sourceAll false (nodes.map d.tree), rootSlot + 1⟩ := by
    rw [Literal.parse, hconfig, hsegments, hwritten]
    exact parse_htmlAll hcanonical
  have htags := slotless_sourceAll false (nodes.map d.tree)
  obtain ⟨source, w₀, hcompile⟩ := compile_succeeds hparse (htags.imp fun _ => Or.inl) hkept
  obtain ⟨hparse', ⟨hfurnished, hready⟩, hext₀, -, -⟩ := compile_sound hsound hcompile
  have htree : source.tree.children = sourceAll false (nodes.map d.tree) := by
    rw [← Except.ok.inj (hparse.symm.trans hparse')]
  -- no point is a component, so the direct reading needs nothing more
  rw [htree] at hfurnished hready
  have hgives : Gives (renderContainer f (machine f n) source [] rootSlot source.tree.children) w₀
      (respacedAll false (nodes.map d.tree)) := by
    rw [htree, ← directAll_sourceAll hpolicy false hcanonical]
    refine renderContainer_gives_of_invoke hpolicy rfl hfurnished (fun hpt => ?_) w₀
      (Extends.refl hext₀.forest)
    obtain ⟨-, hnone, -, -, -, k, hk, -⟩ := of_component_point hready htags hpt
    rw [hnone] at hk
    cases hk
  obtain ⟨v, w₁, w₂, us, hrender, hmount, -, hchildren, htrees, -, hforest₂, hname, -⟩ :=
    renderLiteral_mount_of_gives hsound hcompile (by simp [Literal.holeCount, hsegments]) hparent
      hgives
  have hchildTrees : w₂.page.childTrees parent = respacedAll false (nodes.map d.tree) := by
    rw [childTrees, hchildren, hempty, List.nil_append, htrees]
  have hinner : w₂.page.innerHtml parent = htmlAll (w.page.name? parent) (nodes.map d.tree) := by
    rw [hforest₂.innerHtml_childTrees, hchildTrees, hname, htmlAll_respaced]
  refine ⟨v, w₁, w₂, hrender, hmount, hchildTrees, hinner, fun hverbatim => ?_⟩
  rw [hinner, htmlAll_eq_none hverbatim, hwritten]

/-- A page with a new node in the node `p`. -/
def addIn (d : Page) (p : NodeId) (c : Content Value Action) : Page :=
  (d.create c).2.append p d.size

theorem isForest_addIn {d : Page} (h : d.IsForest) {p : Nat} (hp : p < d.size)
    {c : Content Value Action} (hc : c.kind ≠ .fragment) : (addIn d p c).IsForest :=
  (Regrown.create h hp hc).forest

/-- A paragraph with a title, of a text and a line break. -/
def notePage : Page :=
  addIn (addIn (Document.empty.create
    (.element ⟨"p", .html, [⟨"title", "a < \"b\" & c", none⟩], [], []⟩)).2 0 (.text "x < y & z")) 0
    (.element ⟨"br", .html, [], [], []⟩)

/-- The same page with a script beside the paragraph. -/
def scriptPage : Page :=
  addIn (notePage.create (.element ⟨"script", .html, [], [], []⟩)).2 3 (.text "if (a < b) c();")

def scriptLiteral : Literal :=
  ⟨"script", ["<p title=\"a < &quot;b&quot; &amp; c\">x &lt; y &amp; z<br></p>" ++
    "<script>if (a < b) c();</script>"]⟩

theorem renderLiteral_mount_written_script :
    ∃ v w₁ w₂, renderLiteral boxFactory (machine boxFactory 1) scriptLiteral [] boxWorld =
        some (.ok v, w₁) ∧
      mount boxFactory (machine boxFactory 1) 0 v w₁ = some ((), w₂) ∧
      w₂.page.childTrees 0 =
        [.element "p" .html [⟨"title", "a < \"b\" & c", none⟩]
          [.text "x < y & z", .element "br" .html [] []],
          .element "script" .html [] [.text "if (a < b) c();"]] ∧
      w₂.page.innerHtml 0 = "<p title=\"a < &quot;b&quot; &amp; c\">x &lt; y &amp; z<br></p>" ++
        "<script>if (a < b) c();</script>" := by
  have hforest : scriptPage.IsForest := by
    have hnote : notePage.IsForest :=
      isForest_addIn (isForest_addIn (isForest_empty.create _) (by decide) (by simp [Content.kind]))
        (by decide) (by simp [Content.kind])
    exact isForest_addIn (hnote.create _) (by decide) (by simp [Content.kind])
  have htrees : [0, 3].map scriptPage.tree =
      [.element "p" .html [⟨"title", "a < \"b\" & c", none⟩]
        [.text "x < y & z", .element "br" .html [] []],
        .element "script" .html [] [.text "if (a < b) c();"]] := rfl
  have hcanonical : CanonicalAll ([0, 3].map scriptPage.tree) := by
    rw [htrees]
    have hname : IsElementName "p" ∧ IsElementName "br" ∧ IsElementName "script" := by
      decide +kernel
    have htitle : IsAttributeName "title" := by decide +kernel
    have hvoid : NameSet.voidElements.contains "p" = false ∧
        NameSet.voidElements.contains "script" = false := by decide +kernel
    have hraw : NameSet.rawTextElements.contains "p" = false ∧
        NameSet.rawTextElements.contains "br" = false := by decide +kernel
    have hbody : IsRawContent "script" [.text "if (a < b) c();"] :=
      Or.inr ⟨_, rfl, fun _ => by decide +kernel⟩
    have hblank : Text.allBlank "x < y & z" = false ∧ Text.allBlank "if (a < b) c();" = false := by
      decide +kernel
    simp [CanonicalAll, Tree.Canonical, Tree.isText, hname, htitle, hvoid, hraw, hbody, hblank]
  have hplain : ∀ x ∈ [0, 3], ((scriptPage.parent? x).bind scriptPage.name?).any
      verbatimElements.contains = false := by
    rw [List.forall_mem_cons, List.forall_mem_singleton]
    decide +kernel
  have hsegments : scriptLiteral.segments = [String.join ([0, 3].map scriptPage.toHtml)] := by
    decide +kernel
  have hsound : Sound boxFactory scriptLiteral boxWorld :=
    ⟨isForest_empty.create _, fun source h => by cases h⟩
  obtain ⟨v, w₁, w₂, hrender, hmount, hchildTrees, -, hinner⟩ :=
    renderLiteral_mount_written hforest hcanonical hplain rfl rfl hsegments hsound
      (fun r h => by cases h) (show 0 < boxWorld.page.size by decide) (by decide) 0
  refine ⟨v, w₁, w₂, hrender, hmount, ?_, ?_⟩
  · rw [hchildTrees, htrees]
    rfl
  · rw [hinner (by decide +kernel)]
    decide +kernel

end Render
end Stencil
