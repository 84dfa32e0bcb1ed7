/-
  Stencil/Proofs/Attribute/Style.lean
  ===================================
  **Inline styles as a map.**

  The inline styles of an element have no place but the text of its `style` attribute.  Each
  write reads the text, changes one property and writes all of them back, so what a write has
  brought in is read and written again by every later one.

  What attributes give can be written again and is read as it was (`isStyle_of_mem_styles`,
  `readStyles_styleText`), so the styles after a write are those of other names and what is
  read from the new one (`styles_setStyle`), whatever its value.  A value with a semicolon is
  cut there and what stands behind that is read as styles of its own (`readStyles_written`).
  Without one the styles are a map (`styleValue_restyle`).
-/
import Stencil.Document.Command
import Stencil.Proofs.Document.Moves

namespace Stencil.Document

open Text (IsTrimmed isBlank splitAll trimChars)

/-! ### Names and values -/

/-- The name of a style property: not empty, without blanks at its ends, and without the characters
    that end a name or a style. -/
structure IsStyleName (name : String) : Prop where
  ne_empty : name ≠ ""
  trimmed : IsTrimmed name.toList
  colon : ':' ∉ name.toList
  semicolon : ';' ∉ name.toList

/-- A value that a style attribute can hold: without blanks at its ends and without the character
    that ends a style. -/
structure IsStyleValue (value : String) : Prop where
  trimmed : IsTrimmed value.toList
  semicolon : ';' ∉ value.toList

instance (name : String) : Decidable (IsStyleName name) :=
  decidable_of_iff (name ≠ "" ∧ IsTrimmed name.toList ∧ ':' ∉ name.toList ∧ ';' ∉ name.toList)
    ⟨fun ⟨hne, htrimmed, hcolon, hsemicolon⟩ => ⟨hne, htrimmed, hcolon, hsemicolon⟩,
      fun ⟨hne, htrimmed, hcolon, hsemicolon⟩ => ⟨hne, htrimmed, hcolon, hsemicolon⟩⟩

instance (value : String) : Decidable (IsStyleValue value) :=
  decidable_of_iff (IsTrimmed value.toList ∧ ';' ∉ value.toList)
    ⟨fun ⟨htrimmed, hsemicolon⟩ => ⟨htrimmed, hsemicolon⟩,
      fun ⟨htrimmed, hsemicolon⟩ => ⟨htrimmed, hsemicolon⟩⟩

/-! ### One style -/

section
variable {part front : List Char} {s : Style} {name value : String}

theorem readStyle_append (h : ':' ∉ front) (back : List Char) : readStyle (front ++ ':' :: back) =
    if (trimChars front).isEmpty then none
    else some (String.ofList (trimChars front), String.ofList (trimChars back)) := by
  rw [readStyle, Text.splitFirst?_append h]

theorem readStyle_of_not_mem (h : ':' ∉ part) : readStyle part = none := by
  rw [readStyle, Text.splitFirst?_of_not_mem h]

/-- What is read from a part of a style attribute can be written to one. -/
theorem isStyle_of_readStyle (hpart : ';' ∉ part) (h : readStyle part = some s) :
    IsStyleName s.1 ∧ IsStyleValue s.2 := by
  by_cases hcolon : ':' ∈ part
  · obtain ⟨front, back, rfl, hfront⟩ := List.eq_append_cons_of_mem hcolon
    simp only [List.mem_append, List.mem_cons, not_or] at hpart
    obtain ⟨hname, -, hvalue⟩ := hpart
    rw [readStyle_append hfront] at h
    split at h
    · cases h
    · rename_i hempty
      obtain rfl := Option.some.inj h
      refine ⟨⟨?_, ?_, ?_, ?_⟩, ?_, ?_⟩
      · intro heq
        have hnil := congrArg String.toList heq
        rw [String.toList_ofList] at hnil
        exact hempty (List.isEmpty_iff.mpr hnil)
      all_goals rw [String.toList_ofList]
      · exact Text.isTrimmed_trimChars front
      · exact fun hc => hfront (Text.mem_of_mem_trimChars hc)
      · exact fun hc => hname (Text.mem_of_mem_trimChars hc)
      · exact Text.isTrimmed_trimChars back
      · exact fun hc => hvalue (Text.mem_of_mem_trimChars hc)
  · rw [readStyle_of_not_mem hcolon] at h
    cases h

theorem trimChars_cons_space (cs : List Char) : trimChars (' ' :: cs) = trimChars cs :=
  Text.trimChars_append (List.forall_mem_singleton.mpr (by decide : isBlank ' ' = true)) cs

/-- A blank in front of a part makes no difference. -/
theorem readStyle_cons_space (part : List Char) : readStyle (' ' :: part) = readStyle part := by
  by_cases hcolon : ':' ∈ part
  · obtain ⟨front, back, rfl, hfront⟩ := List.eq_append_cons_of_mem hcolon
    rw [← List.cons_append, readStyle_append (by simpa using hfront), readStyle_append hfront,
      trimChars_cons_space]
  · rw [readStyle_of_not_mem hcolon, readStyle_of_not_mem (by simpa using hcolon)]

/-- A property with its value is read as it was written. -/
theorem readStyle_written (hname : IsStyleName name) (value : List Char) :
    readStyle (name.toList ++ ':' :: ' ' :: value) =
      some (name, String.ofList (trimChars value)) := by
  rw [readStyle_append hname.colon, Text.trimChars_of_isTrimmed hname.trimmed, trimChars_cons_space,
    if_neg, String.ofList_toList]
  intro hempty
  exact hname.ne_empty (String.toList_eq_nil_iff.mp (List.isEmpty_iff.mp hempty))

/-! ### Several styles -/

/-- The styles in the text of a style attribute. -/
def readStyles (cs : List Char) : List Style := (splitAll (· == ';') cs).filterMap readStyle

theorem styles_eq (as : Attributes) :
    styles as = ((attributeValue as "style").map fun text => readStyles text.toList).getD [] := by
  unfold styles
  cases attributeValue as "style" <;> rfl

/-- Attributes give only styles that can be written. -/
theorem isStyle_of_mem_styles {as : Attributes} (h : s ∈ styles as) :
    IsStyleName s.1 ∧ IsStyleValue s.2 := by
  unfold styles at h
  split at h
  · obtain ⟨part, hpart, hread⟩ := List.mem_filterMap.mp h
    refine isStyle_of_readStyle (fun hc => ?_) hread
    exact absurd (Text.isSeparator_of_mem_splitAll hpart ';' hc) (by decide)
  · cases h

theorem readStyles_append (front back : List Char) :
    readStyles (front ++ ';' :: back) = readStyles front ++ readStyles back := by
  rw [readStyles, Text.splitAll_append (by decide), List.filterMap_append, readStyles, readStyles]

theorem readStyles_cons_space (cs : List Char) : readStyles (' ' :: cs) = readStyles cs := by
  obtain ⟨part, parts, hparts, hsplit⟩ : ∃ part parts, splitAll (· == ';') cs = part :: parts ∧
      splitAll (· == ';') (' ' :: cs) = (' ' :: part) :: parts := Text.splitAll_cons (by decide) cs
  rw [readStyles, hsplit, readStyles, hparts, List.filterMap_cons, List.filterMap_cons,
    readStyle_cons_space]

/-- Texts that are joined are read one after the other. -/
theorem readStyles_intercalate (texts : List String) :
    readStyles ("; ".intercalate texts).toList = texts.flatMap fun text =>
      readStyles text.toList := by
  induction texts with
  | nil => rfl
  | cons text texts ih =>
    cases texts with
    | nil => simp
    | cons next texts =>
      have hjoin : ("; ".intercalate (text :: next :: texts)).toList =
          text.toList ++ ';' :: ' ' :: ("; ".intercalate (next :: texts)).toList := by
        simp [String.intercalate_cons_cons]
      rw [hjoin, readStyles_append, readStyles_cons_space, ih]
      rfl

theorem styleText_toList (name value : String) :
    (styleText (name, value)).toList = name.toList ++ ':' :: ' ' :: value.toList := by
  simp [styleText]

theorem readStyles_plain {cs : List Char} (h : ';' ∉ cs) :
    readStyles cs = (readStyle cs).toList := by
  rw [readStyles, Text.splitAll_of_plain]
  · cases hread : readStyle cs <;> simp [hread]
  · intro c hc
    exact beq_eq_false_iff_ne.mpr fun heq => h (heq ▸ hc)

/-- A value is cut at its first semicolon, and what stands behind that is read as styles of its
    own. -/
theorem readStyles_written (hname : IsStyleName name) (value : List Char) :
    ∃ more, readStyles (name.toList ++ ':' :: ' ' :: value) =
        (name, String.ofList (trimChars (value.takeWhile (· != ';')))) :: more ∧
      (';' ∉ value → more = []) := by
  have hplain : ';' ∉ name.toList ++ ':' :: ' ' :: value.takeWhile (· != ';') := by
    simp only [List.mem_append, List.mem_cons, not_or]
    exact ⟨hname.semicolon, by decide, by decide, Text.not_mem_takeWhile_ne ';' value⟩
  have hread := readStyles_plain hplain
  rw [readStyle_written hname] at hread
  rcases Text.not_mem_or_eq_append ';' value with hnone | ⟨back, hvalue⟩
  · rw [Text.takeWhile_ne_of_not_mem hnone] at hread ⊢
    exact ⟨[], hread, fun _ => rfl⟩
  · have htext : name.toList ++ ':' :: ' ' :: value =
        (name.toList ++ ':' :: ' ' :: value.takeWhile (· != ';')) ++ ';' :: back := by
      conv_lhs => rw [hvalue]
      simp
    refine ⟨readStyles back, ?_, fun h => absurd ?_ h⟩
    · rw [htext, readStyles_append, hread]
      rfl
    · rw [hvalue]
      exact List.mem_append_right _ List.mem_cons_self

/-- The part of a value that a style attribute can give back. -/
def kept (value : String) : String := String.ofList (trimChars (value.toList.takeWhile (· != ';')))

theorem kept_eq_iff (htrimmed : IsTrimmed value.toList) :
    kept value = value ↔ ';' ∉ value.toList := by
  constructor
  · intro heq hmem
    rw [← heq, kept, String.toList_ofList] at hmem
    exact Text.not_mem_takeWhile_ne ';' value.toList (Text.mem_of_mem_trimChars hmem)
  · intro h
    rw [kept, Text.takeWhile_ne_of_not_mem h, Text.trimChars_of_isTrimmed htrimmed,
      String.ofList_toList]

/-- A value without a semicolon is read as it was written. -/
theorem readStyles_styleText (hname : IsStyleName name) (hvalue : IsStyleValue value) :
    readStyles (styleText (name, value)).toList = [(name, value)] := by
  obtain ⟨more, hread, hmore⟩ := readStyles_written hname value.toList
  rw [styleText_toList, hread, hmore hvalue.semicolon, ← kept,
    (kept_eq_iff hvalue.trimmed).mpr hvalue.semicolon]

/-! ### Writing -/

/-- Attributes with these styles; without a style there is no `style` attribute. -/
def writeStyles (as : Attributes) (next : List Style) : Attributes :=
  if next.isEmpty then removeAttribute as "style"
  else setAttribute as none "style" ("; ".intercalate (next.map styleText))

theorem setStyle_eq (as : Attributes) (name : String) (value : Option String) :
    setStyle as name value =
      writeStyles as
        ((styles as).filter (·.1 != name) ++ (value.map fun v => (name, v)).toList) := by
  cases value with
  | none => rw [Option.map_none, Option.toList_none, List.append_nil, setStyle, writeStyles]
  | some v => rfl

/-- Styles that are written are read again one by one. -/
theorem styles_writeStyles (as : Attributes) (next : List Style) :
    styles (writeStyles as next) = next.flatMap fun s => readStyles (styleText s).toList := by
  cases next with
  | nil => simp [writeStyles, styles_eq, attributeValue_removeAttribute]
  | cons s next =>
    rw [writeStyles, styles_eq, if_neg (by simp), attributeValue_setAttribute, if_pos rfl,
      Option.map_some, Option.getD_some, readStyles_intercalate, List.flatMap_map]

theorem attributeValue_writeStyles (as : Attributes) (next : List Style) :
    attributeValue (writeStyles as next) "style" = none ↔ next = [] := by
  cases next with
  | nil => simp [writeStyles, attributeValue_removeAttribute]
  | cons s next => simp [writeStyles, attributeValue_setAttribute]

/-- What a write of a property brings in. -/
def declared (name : String) (value : Option String) : List Style :=
  (value.map fun v => (name, v)).toList.flatMap fun s => readStyles (styleText s).toList

theorem declared_of_isStyleValue (hname : IsStyleName name) {value : Option String}
    (hvalue : ∀ v ∈ value, IsStyleValue v) :
    declared name value = (value.map fun v => (name, v)).toList := by
  cases value with
  | none => rfl
  | some v => simp [declared, readStyles_styleText hname (hvalue v rfl)]

theorem exists_declared (hname : IsStyleName name) (value : String) :
    ∃ more, declared name (some value) = (name, kept value) :: more := by
  obtain ⟨more, hread, -⟩ := readStyles_written hname value.toList
  refine ⟨more, ?_⟩
  rw [declared, Option.map_some, Option.toList_some, List.flatMap_singleton, styleText_toList,
    hread, kept]

/-- The styles after a write are those of other names, and behind them what the write brings in. -/
theorem styles_setStyle (as : Attributes) (name : String) (value : Option String) :
    styles (setStyle as name value) = (styles as).filter (·.1 != name) ++ declared name value := by
  have hread : ∀ s ∈ (styles as).filter (·.1 != name), readStyles (styleText s).toList = [s] := by
    intro s hs
    obtain ⟨hname, hvalue⟩ := isStyle_of_mem_styles (List.mem_of_mem_filter hs)
    exact readStyles_styleText hname hvalue
  rw [setStyle_eq, styles_writeStyles, List.flatMap_append, List.flatMap_congr hread, declared]
  simp

/-- After a write there is a `style` attribute just if there is a style. -/
theorem attributeValue_setStyle (hname : IsStyleName name) (as : Attributes)
    (value : Option String) :
    attributeValue (setStyle as name value) "style" = none ↔
      styles (setStyle as name value) = [] := by
  rw [styles_setStyle, setStyle_eq, attributeValue_writeStyles, List.append_eq_nil_iff,
    List.append_eq_nil_iff]
  cases value with
  | none => simp [declared]
  | some v =>
    obtain ⟨more, hmore⟩ := exists_declared hname v
    simp [hmore]

/-! ### Reading a property -/

/-- A write is about its own property only, whatever the value. -/
theorem styleValue_setStyle_self (hname : IsStyleName name) (as : Attributes)
    (value : Option String) :
    styleValue (setStyle as name value) name = value.map kept := by
  have hnone : ((styles as).filter (·.1 != name)).find? (·.1 == name) = none := by
    simp
  rw [styleValue, styles_setStyle, List.find?_append, hnone, Option.none_or]
  cases value with
  | none => rfl
  | some v =>
    obtain ⟨more, hmore⟩ := exists_declared hname v
    simp [hmore]

/-- A write of a value that can be held leaves all other properties alone. -/
theorem styleValue_setStyle_ne (hname : IsStyleName name) (as : Attributes) {value : Option String}
    (hvalue : ∀ v ∈ value, IsStyleValue v) {property : String} (h : property ≠ name) :
    styleValue (setStyle as name value) property = styleValue as property := by
  have hold : ((styles as).filter (·.1 != name)).find? (·.1 == property) =
      (styles as).find? (·.1 == property) := by
    rw [List.find?_filter]
    congr 1
    funext s
    by_cases hs : s.1 = property <;> simp [hs, h]
  have hnew : (declared name value).find? (·.1 == property) = none := by
    rw [declared_of_isStyleValue hname hvalue]
    cases value with
    | none => rfl
    | some v => simp [Ne.symm h]
  rw [styleValue, styles_setStyle, List.find?_append, hold, hnew, Option.or_none, styleValue]

theorem styles_eq_nil_iff {as : Attributes} :
    styles as = [] ↔ ∀ property, styleValue as property = none := by
  constructor
  · intro h property
    rw [styleValue, h]
    rfl
  · intro h
    cases hstyles : styles as with
    | nil => rfl
    | cons s rest =>
      have := h s.1
      simp [styleValue, hstyles] at this

end

/-! ### Elements -/

/-- Style properties of an element set or taken away, one after the other. -/
def restyle {π η : Type} (d : Document π η) (id : NodeId) (writes : List (String × Option String)) :
    Document π η :=
  writes.foldl (fun d w => (Change.setStyle w.1 w.2 : Change π).apply d id) d

/-- The value that was given last, if it was not taken away since. -/
def lastValue (writes : List (String × Option String)) (property : String) : Option String :=
  (writes.reverse.find? (·.1 == property)).bind (·.2)

section
variable {π η : Type} {d : Document π η} {id : NodeId} {e : ElementData π η}
  {writes : List (String × Option String)}

theorem attributes_restyle (he : d.element? id = some e) (writes : List (String × Option String)) :
    (restyle d id writes).attributes id =
      writes.foldl (fun as w => setStyle as w.1 w.2) e.attributes := by
  induction writes generalizing d e with
  | nil => simp [restyle, attributes, he]
  | cons w writes ih => exact ih (element?_updateElement he _)

theorem lastValue_append (writes : List (String × Option String)) (w : String × Option String)
    (property : String) : lastValue (writes ++ [w]) property =
      if property = w.1 then w.2 else lastValue writes property := by
  rw [lastValue, List.reverse_append]
  by_cases h : property = w.1
  · simp [h]
  · simp [h, Ne.symm h, lastValue]

/-- What a run of writes leaves: each property has the value that it was given last, and there is an
    attribute just if there is a style. -/
theorem styleValue_foldl {as : Attributes} (hstart : attributeValue as "style" = none)
    (hwrites : ∀ w ∈ writes, IsStyleName w.1 ∧ ∀ v ∈ w.2, IsStyleValue v) :
    (∀ property, styleValue (writes.foldl (fun as w => setStyle as w.1 w.2) as) property =
        lastValue writes property) ∧
      (attributeValue (writes.foldl (fun as w => setStyle as w.1 w.2) as) "style" = none ↔
        styles (writes.foldl (fun as w => setStyle as w.1 w.2) as) = []) := by
  have hnone : styles as = [] := by rw [styles_eq, hstart]; rfl
  -- From the end, for it is the last write of a property that counts.
  induction writes using List.reverseRecOn with
  | nil =>
    refine ⟨fun property => ?_, by simp [hstart, hnone]⟩
    exact styles_eq_nil_iff.mp hnone property
  | append_singleton writes w ih =>
    obtain ⟨hname, hvalue⟩ := hwrites w (by simp)
    obtain ⟨hlast, -⟩ := ih fun w' hw' => hwrites w' (List.mem_append_left _ hw')
    rw [List.foldl_append, List.foldl_cons, List.foldl_nil]
    refine ⟨fun property => ?_, attributeValue_setStyle hname _ _⟩
    rw [lastValue_append]
    split
    · rename_i heq
      rw [heq, styleValue_setStyle_self hname]
      cases hw : w.2 with
      | none => rfl
      | some v =>
        obtain ⟨htrimmed, hsemicolon⟩ := hvalue v hw
        rw [Option.map_some, (kept_eq_iff htrimmed).mpr hsemicolon]
    · rename_i hne
      rw [styleValue_setStyle_ne hname _ hvalue hne, hlast]

/-- **Inline styles are a map**, as long as no value has a semicolon in it.  After any writes to an
    element that had no `style` attribute, each property has the value that it was given last,
    unless it was taken away since; a write leaves all other properties alone; and there is no
    `style` attribute just if no property has a value.

    It takes the absence of a semicolon: a value that has one is not read back. -/
theorem styleValue_restyle (he : d.element? id = some e)
    (hstart : attributeValue e.attributes "style" = none)
    (hwrites : ∀ w ∈ writes, IsStyleName w.1 ∧ ∀ v ∈ w.2, IsStyleValue v) :
    (∀ property,
        styleValue ((restyle d id writes).attributes id) property = lastValue writes property) ∧
      (∀ name value property, IsStyleName name → (∀ v ∈ value, IsStyleValue v) → property ≠ name →
        styleValue ((restyle d id (writes ++ [(name, value)])).attributes id) property =
          styleValue ((restyle d id writes).attributes id) property) ∧
      (attributeValue ((restyle d id writes).attributes id) "style" = none ↔
        ∀ property, lastValue writes property = none) ∧
      ∀ name v, IsStyleName name → IsTrimmed v.toList →
        (styleValue ((restyle d id (writes ++ [(name, some v)])).attributes id) name = some v ↔
          ';' ∉ v.toList) := by
  obtain ⟨hlast, habsent⟩ := styleValue_foldl hstart hwrites
  simp only [attributes_restyle he, List.foldl_append, List.foldl_cons, List.foldl_nil]
  refine ⟨hlast, fun name value property hname hvalue hne => ?_, ?_,
    fun name v hname htrimmed => ?_⟩
  · exact styleValue_setStyle_ne hname _ hvalue hne
  · rw [habsent, styles_eq_nil_iff]
    exact forall_congr' fun property => by rw [hlast]
  · rw [styleValue_setStyle_self hname, Option.map_some, Option.some.injEq]
    exact kept_eq_iff htrimmed

/-- A page with a paragraph on it. -/
def paragraphPage : Document Unit Unit := ((Document.empty).createElement "p" .html).2

/-- Writes that take one property away again and write the other twice. -/
def paragraphWrites : List (String × Option String) :=
  [("color", some "red"), ("--at", some "12:30"), ("color", none), ("--at", some "")]

/-- A property that was taken away is gone, and one that was written twice has its last value. -/
theorem styleValue_restyle_paragraph :
    styleValue ((restyle paragraphPage 0 paragraphWrites).attributes 0) "color" = none ∧
      styleValue ((restyle paragraphPage 0 paragraphWrites).attributes 0) "--at" = some "" := by
  have hwrites : ∀ w ∈ paragraphWrites, IsStyleName w.1 ∧ ∀ v ∈ w.2, IsStyleValue v := by decide
  obtain ⟨hlast, -⟩ := styleValue_restyle (show paragraphPage.element? 0 = _ from rfl) rfl hwrites
  rw [hlast, hlast]
  decide

/-- The address of an image has a semicolon in it and is not read back. -/
theorem address_cut :
    IsStyleName "background" ∧ IsTrimmed "url(data:image/png;base64,AAAA)".toList ∧
      styleValue ((restyle paragraphPage 0
        [("background", some "url(data:image/png;base64,AAAA)")]).attributes 0) "background" =
        some "url(data:image/png" := by
  have hname : IsStyleName "background" := by decide
  have hkept : kept "url(data:image/png;base64,AAAA)" = "url(data:image/png" := by decide
  refine ⟨hname, by decide, ?_⟩
  rw [attributes_restyle rfl, List.foldl_cons, List.foldl_nil, styleValue_setStyle_self hname,
    Option.map_some, hkept]

end

end Stencil.Document
