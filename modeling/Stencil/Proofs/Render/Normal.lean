/-
  Stencil/Proofs/Render/Normal.lean
  =================================
  **What is rendered from markup is in normal form.**

  Static markup is rendered, put into an empty node and written: that is its normal form,
  and the normal form of that is the same again (`normalForm_again`).  The nodes of static markup
  come to trees that are legible once texts that meet have been joined, which is not seen in
  what is written; legible trees are read back, and what they are read as is rendered to
  what is written the same.

  This fails where an element is read as a `script` or `style` and not written as one,
  because its name has a capital: its text is read to the letter and written with references,
  so each pass adds some.  Hence no `<` and no `>` may stand in such an element
  (`SparesAngles`).
-/
import Stencil.Proofs.Markup.Static
import Stencil.Proofs.Render.RoundTrip

namespace Stencil

namespace Document

open Markup
open Tree.html (htmlAll)

/-! ### Texts that meet -/

/-- A tree in front of others.  Two texts that meet become one. -/
def Tree.join (t : Tree) (ts : List Tree) : List Tree :=
  match t, ts with
  | .text a, .text b :: r => .text (a ++ b) :: r
  | _, _ => t :: ts

mutual

/-- A tree in which no two texts are neighbours. -/
def Tree.fused : Tree → Tree
  | .element name space as children => .element name space as (fusedAll children)
  | t => t

/-- Several trees of which no two texts are neighbours. -/
def fusedAll : List Tree → List Tree
  | [] => []
  | t :: ts => t.fused.join (fusedAll ts)

end

theorem htmlAll_append (parent : Option String) (ts us : List Tree) :
    htmlAll parent (ts ++ us) = htmlAll parent ts ++ htmlAll parent us := by
  induction ts with
  | nil => rw [List.nil_append, htmlAll, String.empty_append]
  | cons t ts ih => rw [List.cons_append, htmlAll, htmlAll, ih, String.append_assoc]

theorem textHtml_append (parent : Option String) (a b : String) :
    textHtml parent (a ++ b) = textHtml parent a ++ textHtml parent b := by
  rw [textHtml, textHtml, textHtml]
  split
  · rfl
  · simp [Text.escapeContent, String.toList_append]

theorem htmlAll_join (parent : Option String) (t : Tree) (ts : List Tree) :
    htmlAll parent (t.join ts) = htmlAll parent (t :: ts) := by
  unfold Tree.join
  split
  · simp only [htmlAll, Tree.html, textHtml_append, String.append_assoc]
  · rfl

mutual

theorem html_fused (parent : Option String) : ∀ t : Tree, t.fused.html parent = t.html parent
  | .element name space as children => by
    rw [Tree.fused, Tree.html, Tree.html, htmlAll_fusedAll _ children]
  | .text value => by rw [Tree.fused]; simp
  | .comment value => by rw [Tree.fused]; simp
  | .fragment children => by rw [Tree.fused]; simp

/-- That texts have been joined is not seen in what is written. -/
theorem htmlAll_fusedAll (parent : Option String) :
    ∀ ts : List Tree, htmlAll parent (fusedAll ts) = htmlAll parent ts
  | [] => by rw [fusedAll]
  | t :: ts => by
    rw [fusedAll, htmlAll_join, htmlAll, htmlAll, html_fused parent t, htmlAll_fusedAll parent ts]

end

theorem legibleAll_join {t : Tree} {ts : List Tree} (ht : t.Legible) (hts : LegibleAll ts) :
    LegibleAll (t.join ts) := by
  unfold Tree.join
  split
  · next a b r =>
    refine ⟨?_, fun _ => hts.2.1 rfl, hts.2.2⟩
    have ha : Text.allBlank a = false := ht
    rw [Text.allBlank, List.all_eq_false] at ha
    obtain ⟨c, hc, hblank⟩ := ha
    rw [Tree.Legible, Text.allBlank, List.all_eq_false]
    exact ⟨c, by simp [hc], hblank⟩
  · next hno =>
    refine ⟨ht, fun htext u hu => ?_, hts⟩
    obtain ⟨r, rfl⟩ := List.head?_eq_some_iff.mp hu
    cases t with
    | text a =>
      cases u with
      | text b => exact absurd rfl (hno a b r rfl)
      | _ => rfl
    | _ => cases htext

/-! ### Attributes -/

/-- Attributes whose names stand for themselves, each once. -/
structure IsAttributeList (as : Attributes) : Prop where
  names : ∀ name ∈ as.map (·.name), IsAttributeName name
  nodup : (as.map (·.name)).Nodup

theorem map_name_setAttribute (as : Attributes) (space : Option String) (name value : String) :
    (setAttribute as space name value).map (·.name) =
      if name ∈ as.map (·.name) then as.map (·.name) else as.map (·.name) ++ [name] := by
  by_cases h : name ∈ as.map (·.name)
  · rw [if_pos h]
    induction as with
    | nil => cases h
    | cons a as ih =>
      rw [setAttribute]
      split
      · next ha => rw [List.map_cons, List.map_cons, ha]
      · next ha =>
        rw [List.map_cons, List.mem_cons] at h
        rw [List.map_cons, List.map_cons, ih (h.resolve_left (Ne.symm ha))]
  · rw [if_neg h, setAttribute_new h, List.map_append]
    rfl

theorem IsAttributeList.setAttribute {as : Attributes} (h : IsAttributeList as) {name : String}
    (hname : IsAttributeName name) (space : Option String) (value : String) :
    IsAttributeList (setAttribute as space name value) := by
  by_cases hmem : name ∈ as.map (·.name)
  · constructor
    · rw [map_name_setAttribute, if_pos hmem]
      exact h.names
    · rw [map_name_setAttribute, if_pos hmem]
      exact h.nodup
  · constructor
    · rw [map_name_setAttribute, if_neg hmem, List.forall_mem_append, List.forall_mem_singleton]
      exact ⟨h.names, hname⟩
    · rw [map_name_setAttribute, if_neg hmem]
      exact List.nodup_append.mpr ⟨h.nodup, List.nodup_singleton _, fun n hn m hm heq => by
        rw [heq, List.mem_singleton.mp hm] at hn
        exact hmem hn⟩

theorem IsAttributeList.removeAttribute {as : Attributes} (h : IsAttributeList as) (name : String) :
    IsAttributeList (removeAttribute as name) := by
  have hsub : ((Document.removeAttribute as name).map (·.name)).Sublist (as.map (·.name)) :=
    List.filter_sublist.map _
  exact ⟨fun n hn => h.names n (hsub.subset hn), h.nodup.sublist hsub⟩

end Document

namespace Setup

open Document Markup

variable {κ : Type} {s : Setup κ}

/-- A tag whose attributes go under their own names: none has a mark that selects a rule. -/
def PlainNamed (t : Tag) : Prop :=
  ∀ a ∈ t.attrs, ∀ name ∈ a.name?, (∀ c ∈ ruleMarks, c ∉ name.toList) ∧ name ≠ "ref"

theorem isAttributeName_of_isWord {name : String} (h : IsWord name)
    (hmarks : ∀ c ∈ ruleMarks, c ∉ name.toList) (href : name ≠ "ref") : IsAttributeName name := by
  refine ⟨h.1, fun c hc => ?_, href⟩
  have hno (d : Char) (hd : d ∈ ruleMarks) : c ≠ d := by
    rintro rfl
    exact hmarks c hd hc
  have hname := h.2 c hc
  simp only [isNameChar, Bool.or_eq_true, beq_iff_eq] at hname
  rcases hname with (((((halnum | hc) | hc) | hc) | hc) | hc) | hc
  · exact Or.inl halnum
  · exact absurd hc (hno '.' (by decide))
  · exact absurd hc (hno ':' (by decide))
  · exact Or.inr (Or.inr hc)
  · exact Or.inr (Or.inl hc)
  · exact absurd hc (hno '@' (by decide))
  · exact absurd hc (hno '?' (by decide))

theorem isAttributeList_applyAttrs (hpolicy : s.policy = .usual) (value : Attr → Value)
    {as : List Attr} (has : ∀ a ∈ as, ∀ name ∈ a.name?, IsAttributeName name) {e : ElementState}
    (he : IsAttributeList e.attributes) :
    IsAttributeList (s.applyAttrs value as e).attributes := by
  induction as generalizing e with
  | nil => exact he
  | cons a as ih =>
    have hone : IsAttributeList (s.applyAttr value a e).attributes := by
      rw [applyAttr]
      cases hname : a.name? with
      | none => exact he
      | some name =>
        have hattr : IsAttributeName name := has a List.mem_cons_self name hname
        simp only [hpolicy, hattr.resolve]
        rw [Policy.fallback, Setter.write, Setter.writeAttribute]
        split
        · exact he.removeAttribute name
        · exact he.setAttribute hattr _ _
        · exact he
    exact ih (fun a ha => has a (List.mem_cons_of_mem _ ha)) hone

end Setup

namespace Render

open Document Document.Tree.html Markup Setup

variable {f : Factory}

/-- The element of a static tag has attributes that stand for themselves. -/
theorem isAttributeList_dressed (hpolicy : f.policy = .usual) (values : List Value) {tag : Tag}
    (hattrs : ∀ a ∈ tag.attrs, a.IsNamed) (hplain : PlainNamed tag) :
    IsAttributeList (dressed f values tag).attributes := by
  have hnames : ∀ a ∈ f.boundAttrs tag ++ f.preboundAttrs tag, ∀ name ∈ a.name?,
      IsAttributeName name := by
    intro a ha name hname
    have hmem := (f.perm_boundAttrs tag).mem_iff.mp ha
    obtain ⟨hmarks, href⟩ := hplain a hmem name hname
    exact isAttributeName_of_isWord (hattrs a hmem name hname) hmarks href
  obtain ⟨hbound, hprebound⟩ := List.forall_mem_append.mp hnames
  refine isAttributeList_applyAttrs hpolicy _ hbound ?_
  rw [Sprouts.copied, elementOf_eq]
  exact isAttributeList_applyAttrs hpolicy _ hprebound
    ⟨fun _ h => absurd h List.not_mem_nil, List.nodup_nil⟩

/-! ### Texts of raw-text elements -/

/-- Whether the texts of an element are read to the letter and not written so: the name is that of
    a `script` or a `style`, but not in lower case. -/
def isMiswritten (name : String) : Bool :=
  (Text.sameName name "script" || Text.sameName name "style") && !verbatimElements.contains name

/-- Without the characters that are written as references, a text survives in every element. -/
theorem survives_of_plain {name value : String} (hand : '&' ∉ value.toList)
    (hangles : isMiswritten name = true → '<' ∉ value.toList ∧ '>' ∉ value.toList) :
    Survives (some name) value := by
  intro around haround
  obtain ⟨tag, rfl, rfl⟩ := Option.map_eq_some_iff.mp haround
  cases hverbatim : verbatimElements.contains tag.name with
  | true =>
    rw [textHtml, Option.any_some, if_pos hverbatim]
    exact Phrase.textIn_of_not_mem hand _
  | false =>
    rw [textHtml, Option.any_some, if_neg (Bool.eq_false_iff.mp hverbatim)]
    cases hread : Text.sameName tag.name "script" || Text.sameName tag.name "style" with
    | true =>
      obtain ⟨hless, hgreater⟩ := hangles (by rw [isMiswritten, hread, hverbatim]; rfl)
      rw [escapeContent_of_not_mem hand hless hgreater]
      exact Phrase.textIn_of_not_mem hand _
    | false =>
      rw [Phrase.textIn, Option.any_some, hread]
      exact decodeReferences_escapeContent value

theorem staysIn_textHtml {name value : String} (hname : IsWord name) (h : StaysIn name value) :
    StaysIn name (textHtml (some name) value) := by
  rw [textHtml]
  split
  · exact h
  · exact staysIn_of_not_mem hname (not_mem_escapeContent value)

mutual

/-- In the elements whose texts are read to the letter and not written so, there is no `<` and no
    `>`. -/
def SparesAngles : Node → Prop
  | .text _ => True
  | .hole _ => True
  | .element tag children =>
    (isMiswritten tag.name = true → ∀ value, Node.text value ∈ children →
      '<' ∉ value.toList ∧ '>' ∉ value.toList) ∧ SparesAnglesAll children

/-- The same for several nodes. -/
def SparesAnglesAll : List Node → Prop
  | [] => True
  | n :: ns => SparesAngles n ∧ SparesAnglesAll ns

end

/-! ### Static markup rendered -/

/-- A raw-text element holds what can be read back. -/
theorem isRawBody_direct {name : String} (hname : IsTagName name) {children : List Node}
    (hchildren : HoldsRaw name children)
    (hstatic : StaticAll NameSet.voidElements NameSet.rawTextElements children)
    (hangles : isMiswritten name = true → ∀ value, Node.text value ∈ children →
      '<' ∉ value.toList ∧ '>' ∉ value.toList) :
    IsRawBody name (fusedAll (directAll f [] children)) := by
  rcases hchildren with rfl | ⟨value, rfl, hstays⟩
  · exact Or.inl rfl
  · obtain ⟨⟨hand, -⟩, -⟩ := hstatic
    refine Or.inr ⟨value, ?_, ?_, staysIn_textHtml hname.1 hstays⟩
    · rw [directAll, directAll, direct, List.append_nil, fusedAll, fusedAll]
      simp [Tree.fused, Tree.join]
    · exact survives_of_plain hand fun h => hangles h value List.mem_cons_self

mutual

/-- A node of static markup comes to a tree that is legible once its texts are joined. -/
theorem legible_direct (hpolicy : f.policy = .usual)
    (hnone : ∀ tag, f.registry.isComponent tag = false) : ∀ {n : Node},
    n.Static NameSet.voidElements NameSet.rawTextElements → n.EveryTag PlainNamed →
    SparesAngles n → ∃ t, direct f [] n = [t] ∧ t.fused.Legible
  | .text value, hstatic, _, _ => by
    refine ⟨.text value, by rw [direct], ?_⟩
    rw [Tree.fused]
    · exact hstatic.2
    · exact nofun
  | .hole _, hstatic, _, _ => hstatic.elim
  | .element tag children, hstatic, htags, hangles => by
    obtain ⟨hname, hattrs, hvoid, hraw, hchildren⟩ := hstatic
    have hlist := isAttributeList_dressed hpolicy [] hattrs htags.1
    refine ⟨_, by rw [direct, if_neg (by simp [hnone tag])], ?_⟩
    rw [Tree.fused]
    refine ⟨hname, fun a ha => hlist.names _ (List.mem_map_of_mem ha), hlist.nodup, fun h => ?_,
      fun h => isRawBody_direct hname (hraw h) hchildren hangles.1,
      legibleAll_direct hpolicy hnone hchildren htags.2 hangles.2⟩
    rw [hvoid h]
    rfl

/-- The nodes of static markup come to trees that are legible once texts that meet are joined. -/
theorem legibleAll_direct (hpolicy : f.policy = .usual)
    (hnone : ∀ tag, f.registry.isComponent tag = false) : ∀ {ns : List Node},
    StaticAll NameSet.voidElements NameSet.rawTextElements ns → Node.EveryTagAll PlainNamed ns →
    SparesAnglesAll ns → LegibleAll (fusedAll (directAll f [] ns))
  | [], _, _, _ => trivial
  | n :: ns, hstatic, htags, hangles => by
    obtain ⟨t, ht, hlegible⟩ := legible_direct hpolicy hnone hstatic.1 htags.1 hangles.1
    rw [directAll, ht, List.singleton_append, fusedAll]
    exact legibleAll_join hlegible (legibleAll_direct hpolicy hnone hstatic.2 htags.2 hangles.2)

end

mutual

theorem html_direct_reading (hpolicy : f.policy = .usual)
    (hnone : ∀ tag, f.registry.isComponent tag = false) (around : Option Tag) (slot : Nat)
    (parent : Option String) : ∀ {t : Tree}, t.Legible →
      htmlAll parent (directAll f [] (t.reading around slot).1) = t.html parent
  | .element name space as children, h => by
    obtain ⟨-, has, hnodup, -, -, hchildren⟩ := h
    have hinner := htmlAll_direct_reading hpolicy hnone
      (some (Phrase.tagIn around slot name (as.map readAs))) (Phrase.slotAfter name slot)
        (some name)
      hchildren
    have hattributes : (dressed f [] (Phrase.tagIn around slot name (as.map readAs))).attributes =
        as.map fun a => ⟨a.name, a.value, none⟩ := dressed_readAs hpolicy rfl has hnodup
    rw [Tree.reading, directAll, directAll, List.append_nil, direct, if_neg (by simp [hnone]),
      hattributes, htmlAll, htmlAll, String.append_empty, Tree.html, Tree.html, startTag_respaced]
    exact congrArg _ (by rw [← hinner]; rfl)
  | .text value, _ => by
    rw [Tree.reading, directAll, directAll, direct, List.append_nil, htmlAll, htmlAll,
      String.append_empty]
  | .comment _, h => h.elim
  | .fragment _, h => h.elim

/-- What legible trees are read as is rendered to what is written the same. -/
theorem htmlAll_direct_reading (hpolicy : f.policy = .usual)
    (hnone : ∀ tag, f.registry.isComponent tag = false) (around : Option Tag) (slot : Nat)
    (parent : Option String) : ∀ {ts : List Tree}, LegibleAll ts →
      htmlAll parent (directAll f [] (readingAll around slot ts).1) = htmlAll parent ts
  | [], _ => by rw [readingAll, directAll]
  | t :: ts, h => by
    rw [readingAll, directAll_append, htmlAll_append, html_direct_reading hpolicy hnone around slot
      parent h.1, htmlAll_direct_reading hpolicy hnone around _ parent h.2.2, htmlAll]

end

/-! ### Normal forms -/

/-- `RendersTo f s h`: a literal of the one segment `s`, rendered and mounted in an empty node, is
    written there as `h`. -/
def RendersTo (f : Factory) (s h : String) : Prop :=
  ∀ (l : Literal) (w : World) (parent n : Nat), l.segments = [s] → Sound f l w →
    (∀ r, w.cache.lookup l.key = some r → ∃ d, (f.compile l d).1 = r) →
    parent < w.page.size → w.page.children parent = [] →
    (w.page.name? parent).any verbatimElements.contains = false →
    ∃ v w₁ w₂, renderLiteral f (machine f (n + 1)) l [] w = some (.ok v, w₁) ∧
      mount f (machine f (n + 1)) parent v w₁ = some ((), w₂) ∧ w₂.page.innerHtml parent = h

/-- Markup is rendered to one text at most, for there is a page with an empty node. -/
theorem RendersTo.unique {s h h' : String} (hs : RendersTo f s h) (hs' : RendersTo f s h') :
    h = h' := by
  have hsound : Sound f ⟨"", [s]⟩ boxWorld :=
    ⟨isForest_empty.create _, fun source h => by cases h⟩
  have hparent : 0 < boxWorld.page.size := by decide
  obtain ⟨v, w₁, w₂, hrender, hmount, rfl⟩ :=
    hs _ boxWorld 0 0 rfl hsound (fun r h => by cases h) hparent rfl (by decide +kernel)
  obtain ⟨v', w₁', w₂', hrender', hmount', rfl⟩ :=
    hs' _ boxWorld 0 0 rfl hsound (fun r h => by cases h) hparent rfl (by decide +kernel)
  obtain ⟨rfl, rfl⟩ : v = v' ∧ w₁ = w₁' := by simpa using hrender.symm.trans hrender'
  obtain rfl : w₂ = w₂' := by simpa using hmount.symm.trans hmount'
  rfl

/-- An application with the usual tables and rules that takes every element for what it is
    called. -/
structure IsLenient (f : Factory) : Prop where
  config : f.config = { Config.usual with strict := false }
  policy : f.policy = .usual
  registry : f.registry = .empty

theorem IsLenient.isComponent (h : IsLenient f) (tag : Tag) :
    f.registry.isComponent tag = false := by
  rw [h.registry, Registry.isComponent, Registry.componentFor?]
  split
  · rfl
  · rfl

/-- No element is refused. -/
theorem IsLenient.accepts (h : IsLenient f) (ns : List Node) :
    Node.EveryTagAll f.toSetup.Accepts ns :=
  Node.everyTagAll_of_forall (fun _ => Or.inr (Or.inr (by rw [h.config]))) ns

/-- No component is invoked, so a compiled literal gives its direct reading in one step. -/
theorem IsLenient.gives (h : IsLenient f) (c : Calls) {source : Compiled} {values : List Value}
    (hvalues : Value.allImmediate values = true) {w : World} (hforest : w.page.IsForest)
    (hstocked : Setup.Stocked f.toSetup w.page source) :
    Gives (renderContainer f c source values rootSlot source.tree.children) w
      (directAll f values source.tree.children) := by
  have hany : Node.EveryTagAll (fun _ => True) source.tree.children :=
    Node.everyTagAll_of_forall (fun _ => trivial) _
  refine renderContainer_gives_of_invoke h.policy hvalues hstocked.furnished (fun hpt => ?_) w
    (Extends.refl hforest)
  obtain ⟨hcomponent, -⟩ := of_component_point hstocked.ready hany hpt
  rw [h.isComponent] at hcomponent
  cases hcomponent

/-- What the nodes of a literal are written as in the direct reading. -/
def normalForm (f : Factory) (tree : Template) : String :=
  htmlAll none (directAll f [] tree.children)

/-- Markup that can be parsed is rendered to the direct reading of its nodes. -/
theorem renders_normalForm (hf : IsLenient f) {s : String} {tree : Template}
    (hparse : parse NameSet.voidElements NameSet.rawTextElements [s] = .ok tree) :
    RendersTo f s (normalForm f tree) := by
  intro l w parent n hsegments hsound hkept hparent hempty hverbatim
  have hparse' : l.parse f.config = .ok tree := by
    rw [Literal.parse, hf.config, hsegments]
    exact hparse
  obtain ⟨source, w₀, hcompile⟩ := compile_succeeds hparse' (hf.accepts _) hkept
  obtain ⟨hsource, hstocked, hext₀, -, -⟩ := compile_sound hsound hcompile
  have htree : source.tree = tree := Except.ok.inj (hsource.symm.trans hparse')
  have hnone : Value.allImmediate [] = true := rfl
  obtain ⟨v, w₁, w₂, us, hrender, hmount, -, hchildren, htrees, -, hforest₂, hname, -⟩ :=
    renderLiteral_mount_of_gives hsound hcompile (by simp [Literal.holeCount, hsegments]) hparent
      (hf.gives (machine f n) hnone hext₀.forest hstocked)
  refine ⟨v, w₁, w₂, hrender, hmount, ?_⟩
  rw [hforest₂.innerHtml_childTrees, childTrees, hchildren, hempty, List.nil_append, htrees, hname,
    htmlAll_eq_none hverbatim, htree]
  rfl

/-- The normal form of static markup is parsed to nodes of the same normal form. -/
theorem parse_normalForm (hf : IsLenient f) {s : String} {tree : Template}
    (hparse : parse NameSet.voidElements NameSet.rawTextElements [s] = .ok tree)
    (hand : '&' ∉ s.toList) (hnames : Node.EveryTagAll PlainNamed tree.children)
    (hangles : SparesAnglesAll tree.children) :
    ∃ tree', parse NameSet.voidElements NameSet.rawTextElements [normalForm f tree] = .ok tree' ∧
      normalForm f tree' = normalForm f tree := by
  have hlegible : LegibleAll (fusedAll (directAll f [] tree.children)) :=
    legibleAll_direct hf.policy hf.isComponent (static_parse hand hparse) hnames hangles
  have hfused : htmlAll none (fusedAll (directAll f [] tree.children)) = normalForm f tree :=
    htmlAll_fusedAll none _
  have hparse' := parse_legible hlegible
  rw [hfused] at hparse'
  exact ⟨_, hparse',
    (htmlAll_direct_reading hf.policy hf.isComponent none _ none hlegible).trans hfused⟩

/-- **A normal form is its own normal form.**  Take markup on one segment, without `&`, that can
    be parsed and in which no attribute name selects a rule.  If no `<` and no `>` stands in an
    element that is called `script` or `style` with a capital in its name, then what it is
    rendered to can be parsed again, and is rendered to itself. -/
theorem normalForm_again (hf : IsLenient f) {s : String} {tree : Template}
    (hparse : parse NameSet.voidElements NameSet.rawTextElements [s] = .ok tree)
    (hand : '&' ∉ s.toList) (hnames : Node.EveryTagAll PlainNamed tree.children)
    (hangles : SparesAnglesAll tree.children) :
    RendersTo f s (normalForm f tree) ∧
    ∃ tree', parse NameSet.voidElements NameSet.rawTextElements [normalForm f tree] = .ok tree' ∧
      RendersTo f (normalForm f tree) (normalForm f tree) := by
  obtain ⟨tree', hparse', hsame⟩ := parse_normalForm hf hparse hand hnames hangles
  have hagain := renders_normalForm hf hparse'
  rw [hsame] at hagain
  exact ⟨renders_normalForm hf hparse, tree', hparse', hagain⟩

def lenientFactory : Factory where
  config := { Config.usual with strict := false }
  policy := .usual
  registry := .empty
  literals := []
  tracking := false

theorem isLenient_lenientFactory : IsLenient lenientFactory := ⟨rfl, rfl, rfl⟩

/-- Markup with names of either case, an attribute written twice, a close tag that says nothing
    and a script that holds the beginning of a close tag of another name. -/
def mixedMarkup : String :=
  "<P a=1 B='<' a>x</hr> > y<dIv><hr></dIv></P><script>a < c('</scripts>')</script>"

def mixedTree : Template :=
  ⟨[.element ⟨"P", [.fixed "a" "1" none, .fixed "B" "<" (some .single), .flag "a"], false, some 1⟩
      [.text "x", .text " > y",
        .element ⟨"dIv", [], false, none⟩ [.element ⟨"hr", [], false, none⟩ []]],
    .element ⟨"script", [], false, none⟩ [.text "a < c('</scripts>')"]], 2⟩

def mixedForm : String :=
  "<P a=\"\" B=\"<\">x &gt; y<dIv><hr></dIv></P><script>a < c('</scripts>')</script>"

theorem normalForm_again_mixed :
    parse NameSet.voidElements NameSet.rawTextElements [mixedMarkup] = .ok mixedTree ∧
    '&' ∉ mixedMarkup.toList ∧ Node.EveryTagAll PlainNamed mixedTree.children ∧
    SparesAnglesAll mixedTree.children ∧
    RendersTo lenientFactory mixedMarkup mixedForm ∧
    ∃ tree', parse NameSet.voidElements NameSet.rawTextElements [mixedForm] = .ok tree' ∧
      RendersTo lenientFactory mixedForm mixedForm := by
  have hparse : parse NameSet.voidElements NameSet.rawTextElements [mixedMarkup] =
      .ok mixedTree := by decide +kernel
  have hand : '&' ∉ mixedMarkup.toList := by decide +kernel
  have hnames : Node.EveryTagAll PlainNamed mixedTree.children := by
    simp [mixedTree, Node.EveryTagAll, Node.EveryTag, PlainNamed, Attr.name?, ruleMarks]
  have hangles : SparesAnglesAll mixedTree.children := by
    have hplain : isMiswritten "P" = false ∧ isMiswritten "dIv" = false ∧
        isMiswritten "hr" = false ∧ isMiswritten "script" = false := by decide +kernel
    simp [mixedTree, SparesAnglesAll, SparesAngles, hplain]
  have hform : normalForm lenientFactory mixedTree = mixedForm := by decide +kernel
  have hagain := normalForm_again isLenient_lenientFactory hparse hand hnames hangles
  rw [hform] at hagain
  exact ⟨hparse, hand, hnames, hangles, hagain⟩

/-- An element around a text and without attributes. -/
theorem htmlAll_direct_plain (hf : IsLenient f) {tag : Tag} (hattrs : tag.attrs = [])
    (hclosed : ¬ unclosedElements.contains tag.name = true) (value : String) :
    htmlAll none (directAll f [] [.element tag [.text value]]) =
      startTag tag.name [] ++ textHtml (some tag.name) value ++ closeTag tag.name := by
  have has : ∀ a ∈ ([] : Attributes), IsAttributeName a.name := by simp
  have hattributes : (dressed f [] tag).attributes = [] :=
    dressed_readAs hf.policy hattrs has List.nodup_nil
  rw [directAll, directAll, List.append_nil, direct, if_neg (by simp [hf.isComponent]), hattributes,
    htmlAll, htmlAll, String.append_empty, Tree.html, if_neg hclosed, directAll, directAll, direct,
    List.append_nil, htmlAll, htmlAll, String.append_empty, Tree.html, String.append_assoc]

/-- In an element whose texts are read to the letter and not written so, references are written
    for what is read. -/
theorem renders_miswritten (hf : IsLenient f) {name value : String} (hname : IsTagName name)
    (hmiswritten : isMiswritten name = true) (hbody : StaysIn name value)
    (hvalue : Text.allBlank value = false) :
    RendersTo f (startTag name [] ++ value ++ closeTag name)
      (startTag name [] ++ Text.escapeContent value ++ closeTag name) := by
  rw [isMiswritten, Bool.and_eq_true, Bool.not_eq_true'] at hmiswritten
  obtain ⟨hread, hwritten⟩ := hmiswritten
  have hraw := raw_of_readsVerbatim hread
  have hclosed : ¬ unclosedElements.contains name = true := fun hclosed => by
    have hvoid := isVoid_of_unclosed hclosed
    rw [not_isVoid_of_raw hraw] at hvoid
    cases hvoid
  have hrenders := renders_normalForm hf (parse_raw hname hraw hbody hvalue)
  have htext : Phrase.textIn (some (Phrase.tagIn none (rootSlot + 1) name [])) value = value := by
    rw [Phrase.textIn, if_pos (by exact hread)]
  have hescaped : textHtml (some name) value = Text.escapeContent value := by
    rw [textHtml, Option.any_some, if_neg (Bool.eq_false_iff.mp hwritten)]
  rw [normalForm, htext, htmlAll_direct_plain hf rfl (by exact hclosed)] at hrenders
  rw [← hescaped]
  exact hrenders

theorem isMiswritten_script : isMiswritten "Script" = true := by
  have hcapital : Text.lower "Script" = "script" := by decide +kernel
  have hlower : Text.lower "script" = "script" := by decide +kernel
  have hletter : verbatimElements.contains "Script" = false := by decide +kernel
  rw [isMiswritten, hletter, Text.sameName, hcapital, hlower]
  rfl

/-- In a `Script` a `<` is read to the letter, and written as a reference: the reference is read
    to the letter in turn, and so is what is written for it. -/
theorem script_written_twice :
    '&' ∉ "<Script>a<b</Script>".toList ∧
    (∃ tree,
      parse NameSet.voidElements NameSet.rawTextElements ["<Script>a<b</Script>"] = .ok tree ∧
      Node.EveryTagAll PlainNamed tree.children) ∧
    RendersTo lenientFactory "<Script>a<b</Script>" "<Script>a&lt;b</Script>" ∧
    RendersTo lenientFactory "<Script>a&lt;b</Script>" "<Script>a&amp;lt;b</Script>" ∧
    ¬ RendersTo lenientFactory "<Script>a&lt;b</Script>" "<Script>a&lt;b</Script>" := by
  have hname : IsTagName "Script" := by decide
  have hread : (Text.sameName "Script" "script" || Text.sameName "Script" "style") = true :=
    (Bool.and_eq_true_iff.mp isMiswritten_script).1
  have hbody : StaysIn "Script" "a<b" := staysIn_of_not_infix hname.1 (by decide +kernel)
  have hbody' : StaysIn "Script" "a&lt;b" := staysIn_of_not_mem hname.1 (by decide +kernel)
  have hsource : startTag "Script" [] ++ "a<b" ++ closeTag "Script" = "<Script>a<b</Script>" := by
    decide +kernel
  have hform : startTag "Script" [] ++ "a&lt;b" ++ closeTag "Script" =
      "<Script>a&lt;b</Script>" := by decide +kernel
  have hparse := parse_raw hname (raw_of_readsVerbatim hread) hbody (by decide +kernel)
  have hrenders := renders_miswritten isLenient_lenientFactory hname isMiswritten_script hbody
    (by decide +kernel)
  have hagain := renders_miswritten isLenient_lenientFactory hname isMiswritten_script hbody'
    (by decide +kernel)
  have hescape : Text.escapeContent "a<b" = "a&lt;b" := by decide +kernel
  have hescape' : startTag "Script" [] ++ Text.escapeContent "a&lt;b" ++ closeTag "Script" =
      "<Script>a&amp;lt;b</Script>" := by decide +kernel
  rw [hsource] at hparse
  rw [hsource, hescape, hform] at hrenders
  rw [hform, hescape'] at hagain
  have hne : "<Script>a&lt;b</Script>" ≠ "<Script>a&amp;lt;b</Script>" := by decide +kernel
  refine ⟨by decide +kernel, ⟨_, hparse, ?_⟩, hrenders, hagain, fun hsame => ?_⟩
  · exact ⟨⟨fun _ h => absurd h List.not_mem_nil, trivial, trivial⟩, trivial⟩
  · exact hne (hsame.unique hagain)

end Render
end Stencil
