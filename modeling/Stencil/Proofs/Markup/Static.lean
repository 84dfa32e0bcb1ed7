/-
  Stencil/Proofs/Markup/Static.lean
  =================================
  **What static markup is parsed to.**

  Markup is static if it is written on one segment, so that it has no holes, and has no `&` in
  it, so that no reference is replaced.  Three things are then known of the tokens
  (`StaticTokens`), of the lexemes that they are cut into (`StaticLexemes`) and of the nodes
  (`Node.Static`), each from the one before it:

  * a name is a word, and that of an element begins with a letter;
  * a text is not blank, for it stands between two tags or at an end;
  * behind the start tag of a raw-text element stands nothing but one text, and the close
    tag of that element does not begin in it.

  `static_parse` says so of the tree.
-/
import Stencil.Proofs.Markup.RawText
import Mathlib.Data.List.Chain

namespace Stencil.Markup

/-! ### Tokens -/

/-- What a token of static markup is like: it is no hole, a name is a word, and a text has no
    reference. -/
def TokenKind.Static : TokenKind → Prop
  | .hole _ => False
  | .commentHole _ => False
  | .ident name => IsWord name
  | .text value => '&' ∉ value.toList
  | _ => True

/-- No two texts stand in a row. -/
def TextsApart (ts : List Token) : Prop :=
  ts.IsChain fun t u => ∀ value, t.kind = .text value → ∀ value', u.kind ≠ .text value'

/-- The tokens of static markup. -/
structure StaticTokens (ts : List Token) : Prop where
  kinds : ∀ t ∈ ts, t.kind.Static
  apart : TextsApart ts

theorem staticTokens_nil : StaticTokens [] := ⟨nofun, .nil⟩

theorem StaticTokens.tail {t : Token} {ts : List Token} (h : StaticTokens (t :: ts)) :
    StaticTokens ts :=
  ⟨fun u hu => h.kinds u (List.mem_cons_of_mem _ hu), (List.isChain_cons.mp h.apart).2⟩

theorem StaticTokens.append_right {front ts : List Token} (h : StaticTokens (front ++ ts)) :
    StaticTokens ts := by
  induction front with
  | nil => exact h
  | cons t front ih => exact ih h.tail

/-- Behind a text stands no text. -/
theorem StaticTokens.head_ne {value : String} {pos : Position} {ts : List Token}
    (h : StaticTokens (⟨.text value, pos⟩ :: ts)) :
    ∀ t ∈ ts.head?, ∀ value', t.kind ≠ .text value' := by
  intro t ht
  exact (List.isChain_cons.mp h.apart).1 t ht value rfl

/-- Texts in a row are joined. -/
theorem StaticTokens.push {t : Token} {ts : List Token} (ht : t.kind.Static)
    (h : StaticTokens ts) : StaticTokens (t.push ts) := by
  obtain ⟨k, pos⟩ := t
  by_cases hk : ∃ value, k = .text value
  · obtain ⟨value, rfl⟩ := hk
    by_cases hts : ∃ value' p' r, ts = ⟨.text value', p'⟩ :: r
    · obtain ⟨value', p', r, rfl⟩ := hts
      constructor
      · refine List.forall_mem_cons.mpr ⟨?_, h.tail.kinds⟩
        have hvalue' : '&' ∉ value'.toList := h.kinds _ List.mem_cons_self
        simpa [TokenKind.Static] using ⟨ht, hvalue'⟩
      · exact List.isChain_cons.mpr ⟨fun u hu _ _ => h.head_ne u hu, h.tail.apart⟩
    · have hhead : ∀ u ∈ ts.head?, ∀ value', u.kind ≠ .text value' := by
        rintro ⟨k', p'⟩ hu value' rfl
        obtain ⟨r, rfl⟩ := List.head?_eq_some_iff.mp hu
        exact hts ⟨value', p', r, rfl⟩
      rw [push_text hhead]
      exact ⟨List.forall_mem_cons.mpr ⟨ht, h.kinds⟩,
        List.isChain_cons.mpr ⟨fun u hu _ _ => hhead u hu, h.apart⟩⟩
  · have hno : ∀ value, k ≠ .text value := not_exists.mp hk
    rw [push_eq hno]
    exact ⟨List.forall_mem_cons.mpr ⟨ht, h.kinds⟩,
      List.isChain_cons.mpr ⟨fun _ _ value hvalue => absurd hvalue (hno value), h.apart⟩⟩

/-- On the last segment, where no `&` is left, the scanner emits nothing else. -/
theorem Scan.static {raw : NameSet} {seg o : Nat} {m : Mode} {cs : List Char}
    {more : List (List Char)} {es : List Emission} (h : Scan raw seg m o cs more es)
    (hmore : more = []) (hcs : '&' ∉ cs) : ∀ e ∈ es, e.token.kind.Static := by
  induction h with
  | stop => exact nofun
  | hole => cases hmore
  | @move seg m o cs more move es moves _ ih =>
    rw [← moves.taken_append_rest, List.mem_append, not_or] at hcs
    refine List.forall_mem_append.mpr ⟨?_, ih hmore hcs.2⟩
    intro e he
    obtain ⟨emitted, hmem, rfl⟩ := List.mem_map.mp he
    cases moves with
    | text | rawText =>
      cases List.mem_singleton.mp hmem
      simpa [TokenKind.Static] using hcs.1
    | openStart hne hname =>
      rcases List.mem_pair.mp hmem with rfl | rfl
      · trivial
      · exact ⟨by simpa using hne, by simpa using hname⟩
    | ident _ hne hname =>
      cases List.mem_singleton.mp hmem
      exact ⟨by simpa using hne, by simpa using hname⟩
    | openClose | closeRaw => rcases List.mem_pair.mp hmem with rfl | rfl <;> trivial
    | openComment | closeComment | comment | blank | passOver => cases hmem
    | _ =>
      cases List.mem_singleton.mp hmem
      trivial

theorem staticTokens_joined {es : List Emission} (h : ∀ e ∈ es, e.token.kind.Static) :
    StaticTokens (joined es) := by
  induction es with
  | nil => exact staticTokens_nil
  | cons e es ih =>
    obtain ⟨he, hes⟩ := List.forall_mem_cons.mp h
    exact (ih hes).push he

theorem staticTokens_tokenize (raw : NameSet) {s : String} (hs : '&' ∉ s.toList) :
    StaticTokens (tokenize raw [s]) := by
  rw [tokenize_eq_joined]
  exact staticTokens_joined ((scan_emissionsFrom raw 0 .text 0 s.toList []).static rfl hs)

/-! ### Attributes -/

theorem name?_ofParts (name : String) (parts : List AttrPart) (quote : Option Quote) :
    (Attr.ofParts name parts quote).name? = some name := by
  unfold Attr.ofParts
  split <;> rfl

theorem name?_of_readValue {stop : Position} {name : String} {ts rest : List Token} {a : Attr}
    (h : readValue stop name ts = .ok (a, rest)) : a.name? = some name := by
  revert h
  fun_cases readValue stop name ts with
  | case2 | case5 | case6 =>
    intro h
    cases h
    exact name?_ofParts _ _ _
  | case4 | case7 =>
    intro h
    cases h
    rfl
  | _ =>
    intro h
    cases h

theorem suffix_of_readQuoted {stop : Position} {q : Quote} {ts rest : List Token}
    {parts : List AttrPart} (h : readQuoted stop q ts = .ok (parts, rest)) : rest <:+ ts := by
  fun_induction readQuoted stop q ts generalizing parts with
  | case2 =>
    cases h
    exact List.suffix_cons _ _
  | case4 _ _ _ _ _ _ hread ih | case6 _ _ _ _ _ _ hread ih =>
    cases h
    exact (ih hread).trans (List.suffix_cons _ _)
  | _ => cases h

theorem suffix_readTouching (ends : Option Position) (ts : List Token) :
    (readTouching ends ts).2 <:+ ts := by
  fun_induction readTouching ends ts with
  | case3 _ _ _ _ _ _ _ _ _ hread ih | case4 _ _ _ _ _ _ _ _ hread ih =>
    rw [hread] at ih
    exact ih.trans (List.suffix_cons _ _)
  | _ => exact List.suffix_refl _

theorem suffix_of_readValue {stop : Position} {name : String} {ts rest : List Token} {a : Attr}
    (h : readValue stop name ts = .ok (a, rest)) : rest <:+ ts := by
  revert h
  fun_cases readValue stop name ts with
  | case2 _ _ _ _ _ _ hread =>
    intro h
    cases h
    exact (suffix_of_readQuoted hread).trans (List.suffix_cons _ _)
  | case4 =>
    intro h
    cases h
    exact List.suffix_cons _ _
  | case5 t ts _ _ _ _ hread | case6 t ts _ _ _ _ hread =>
    intro h
    cases h
    have hrest := suffix_readTouching none (t :: ts)
    rwa [hread] at hrest
  | case7 =>
    intro h
    cases h
    exact List.suffix_refl _
  | _ =>
    intro h
    cases h

theorem forall_mem_of_more {P : Attr → Prop} {a : Attr}
    {r : Except ParseError (List Attr × Bool × List Token)} {attrs : List Attr} {b : Bool}
    {rest : List Token} (h : readAttrs.more a r = .ok (attrs, b, rest)) (ha : P a)
    (hr : ∀ attrs', r = .ok (attrs', b, rest) → ∀ a ∈ attrs', P a) : ∀ a ∈ attrs, P a := by
  unfold readAttrs.more at h
  split at h
  · cases h
    exact List.forall_mem_cons.mpr ⟨ha, hr _ rfl⟩
  · cases h

/-- Whether the names of an attribute are words; a spread has none. -/
def Attr.IsNamed (a : Attr) : Prop := ∀ name ∈ a.name?, IsWord name

theorem Attr.IsNamed.of_readValue {stop : Position} {name : String} {ts rest : List Token}
    {a : Attr} (h : readValue stop name ts = .ok (a, rest)) (hname : IsWord name) :
    a.IsNamed := by
  intro name' hname'
  rw [name?_of_readValue h] at hname'
  cases hname'
  exact hname

/-- The attributes of static tokens have words for names. -/
theorem isNamed_of_readAttrs {stop : Position} {ts rest : List Token} {attrs : List Attr} {b : Bool}
    (hts : ∀ t ∈ ts, t.kind.Static) (h : readAttrs stop ts = .ok (attrs, b, rest)) :
    ∀ a ∈ attrs, a.IsNamed := by
  have hnext {t : Token} {ts ts' : List Token} (hsuffix : ts' <:+ ts)
      (hts : ∀ u ∈ t :: ts, u.kind.Static) : ∀ u ∈ ts', u.kind.Static :=
    fun u hu => hts u (List.mem_cons_of_mem _ (hsuffix.subset hu))
  have hhole {t : Token} {ts : List Token} {i : Nat} (hk : t.kind = .hole i)
      (hts : ∀ u ∈ t :: ts, u.kind.Static) : False := by
    have ht := hts t List.mem_cons_self
    rwa [hk] at ht
  fun_induction readAttrs stop ts generalizing attrs with
  | case2 | case3 =>
    cases h
    exact fun a ha => absurd ha List.not_mem_nil
  | case4 t ts hk _ ih | case5 t ts hk ih => exact ih (hnext (List.suffix_refl _) hts) h
  | case6 t ts value hk ih => exact ih (hnext (List.suffix_refl _) hts) h
  | case8 t ts q hk parts rest' hread _ ih => exact ih (hnext (suffix_of_readQuoted hread) hts) h
  | case9 t i p rest hk ih =>
    exact (hhole rfl (hnext (List.suffix_refl _) hts)).elim
  | case12 t ts name hk _ _ a rest' hread _ _ ih =>
    have hname : IsWord name := by
      have ht := hts t List.mem_cons_self
      rwa [hk] at ht
    have hsuffix : rest' <:+ ts :=
      (suffix_of_readValue hread).trans (List.dropWhile_suffix _)
    exact forall_mem_of_more h (.of_readValue hread hname) fun attrs' h' =>
      ih (hnext hsuffix hts) h'
  | case13 t ts name hk _ _ ih =>
    have hname : IsWord name := by
      have ht := hts t List.mem_cons_self
      rwa [hk] at ht
    have hflag : (Attr.flag name).IsNamed := by
      intro name' hname'
      cases hname'
      exact hname
    exact forall_mem_of_more h hflag fun attrs' h' => ih (hnext (List.suffix_refl _) hts) h'
  | case15 t ts i hk | case16 t ts i hk => exact (hhole hk hts).elim
  | _ => cases h

/-! ### Raw bodies -/

theorem passesNowhere_append {test : List Char → Bool} {front back r : List Char}
    (hfront : PassesNowhere test front (back ++ r)) (hback : PassesNowhere test back r) :
    PassesNowhere test (front ++ back) r := by
  rintro w hne ⟨u, hu⟩
  rcases List.append_eq_append_iff.mp hu with ⟨v, rfl, rfl⟩ | ⟨v, -, rfl⟩
  · cases v with
    | nil => exact hback back hne (List.suffix_refl _)
    | cons c v =>
      rw [List.append_assoc]
      exact hfront (c :: v) (by simp) (List.suffix_append _ _)
  · exact hback w hne (List.suffix_append _ _)

section
variable {raw : NameSet} {name value : String} {es : List Emission}

/-- Where raw text comes to a `<`, the rest of the segment begins with one. -/
theorem Scan.openAngle_first {seg o : Nat} {cs : List Char} {more : List (List Char)}
    (h : Scan raw seg (.raw name) o cs more es) {pos : Position} {rest : List Token}
    (hes : joined es = ⟨.openAngle, pos⟩ :: rest) : ∃ r, cs = '<' :: r := by
  cases h with
  | stop => cases hes
  | hole => cases hes
  | move moves =>
    cases moves with
    | closeRaw => exact ⟨_, rfl⟩
    | rawText =>
      rw [joined_emissions] at hes
      exact absurd rfl (rest_of_push hes).1

/-- Raw text goes up to where it is closed, in one move or in several. -/
theorem Scan.passesNowhere {seg o : Nat} {m : Mode} {cs : List Char} {more : List (List Char)}
    (h : Scan raw seg m o cs more es) (hm : m = .raw name) {pos pos' : Position}
    {rest : List Token}
    (hes : joined es = ⟨.text value, pos⟩ :: ⟨.openAngle, pos'⟩ :: rest) :
    ∃ r, cs = value.toList ++ '<' :: r ∧
      PassesNowhere (closesRaw name) value.toList ('<' :: r) := by
  subst hm
  generalize hall : Mode.raw name = m at h
  induction h generalizing value pos with
  | stop => cases hes
  | hole =>
    subst hall
    cases hes
  | move moves hscan ih =>
    subst hall
    cases moves with
    | closeRaw =>
      rw [joined_emissions] at hes
      cases hes
    | @rawText _ body r hne hplain =>
      rw [joined_emissions, List.foldr_cons, List.foldr_nil] at hes
      rcases cases_of_push hes with ⟨htext, hrest⟩ | ⟨value', p', htext, hts⟩
      · cases htext
        obtain ⟨r', hr'⟩ := hscan.openAngle_first hrest.symm
        obtain rfl : r = '<' :: r' := hr'
        rw [String.toList_ofList]
        exact ⟨r', rfl, hplain⟩
      · cases htext
        obtain ⟨r', hr', hback⟩ := ih hts rfl
        obtain rfl : r = value'.toList ++ '<' :: r' := hr'
        rw [String.toList_append, String.toList_ofList]
        exact ⟨r', (List.append_assoc ..).symm, passesNowhere_append hplain hback⟩

/-- The text that a close tag ends does not hold the beginning of one. -/
theorem Emits.confined (h : Emits raw (.raw name) es) (hword : IsWord name) {pos pos' : Position}
    {rest : List Token}
    (hes : joined es = ⟨.text value, pos⟩ :: ⟨.openAngle, pos'⟩ :: rest) : StaysIn name value := by
  obtain ⟨seg, o, cs, more, h⟩ := h
  obtain ⟨r, -, hpasses⟩ := h.passesNowhere rfl hes
  exact (staysIn_iff hword r).mpr hpasses

end

/-! ### Lexemes -/

/-- `BeginsRaw name ls`: the lexemes `ls` can stand behind the start tag of a raw-text element
    `name`.  In front of its close tag is one text at most. -/
inductive BeginsRaw (name : String) : List Lexeme → Prop where
  | stop : BeginsRaw name []
  | unclosed {value : String} {kept : Bool} : BeginsRaw name [.text value kept]
  | close {pos : Position} {ls : List Lexeme} : BeginsRaw name (.close (some name) pos :: ls)
  | text {value : String} {kept : Bool} {pos : Position} {ls : List Lexeme}
      (hvalue : StaysIn name value) :
      BeginsRaw name (.text value kept :: .close (some name) pos :: ls)

/-- The lexemes of static markup. -/
inductive StaticLexemes (raw : NameSet) : List Lexeme → Prop where
  | nil : StaticLexemes raw []
  | text {value : String} {kept : Bool} {ls : List Lexeme} (hplain : '&' ∉ value.toList)
      (hkept : kept = true → Text.allBlank value = false) (rest : StaticLexemes raw ls) :
      StaticLexemes raw (.text value kept :: ls)
  | start {name : String} {attrs : List Attr} {selfClosing : Bool} {pos : Position}
      {ls : List Lexeme} (hname : IsTagName name) (hattrs : ∀ a ∈ attrs, a.IsNamed)
      (hraw : selfClosing = false → raw.contains name = true → BeginsRaw name ls)
      (rest : StaticLexemes raw ls) : StaticLexemes raw (.start name attrs selfClosing pos :: ls)
  | close {name? : Option String} {pos : Position} {ls : List Lexeme}
      (rest : StaticLexemes raw ls) : StaticLexemes raw (.close name? pos :: ls)

section
variable {raw : NameSet} {name : String} {stop : Position} {before : Option TokenKind}
  {ls : List Lexeme} {es : List Emission}

/-- Raw text that does not go on with a text ends, or is closed by its close tag. -/
theorem Lexed.closesRaw (h : Lexed stop before (joined es) ls) (hscan : Emits raw (.raw name) es)
    (hword : IsWord name) (hstatic : StaticTokens (joined es))
    (hhead : ∀ t ∈ (joined es).head?, ∀ value, t.kind ≠ .text value) :
    ls = [] ∨ ∃ pos ls', ls = .close (some name) pos :: ls' := by
  -- a tag that begins here is the close tag of `name`
  have htag {pos : Position} {rest : List Token} (hrest : joined es = ⟨.openAngle, pos⟩ :: rest) :
      ∃ p p' ts, rest = ⟨.slash, p⟩ :: ⟨.ident name, p'⟩ :: ts := by
    cases hscan.opensTag rfl hrest with
    | close _ _ hbody =>
      obtain ⟨p', ts, hts⟩ := hbody name rfl hword
      rw [hts]
      exact ⟨_, p', ts, rfl⟩
  generalize hall : joined es = ts at h htag hstatic hhead
  cases h with
  | nil => exact Or.inl rfl
  | text => exact absurd rfl (hhead _ rfl _)
  | hole | commentHole => exact (hstatic.kinds _ List.mem_cons_self).elim
  | start =>
    obtain ⟨p, p', ts, hts⟩ := htag rfl
    cases hts
  | close =>
    obtain ⟨p, p', ts, hts⟩ := htag rfl
    cases hts
    exact Or.inr ⟨_, _, rfl⟩
  | closeAny =>
    obtain ⟨p, p', ts, hts⟩ := htag rfl
    cases hts

theorem Lexed.beginsRaw (h : Lexed stop before (joined es) ls) (hscan : Emits raw (.raw name) es)
    (hword : IsWord name) (hstatic : StaticTokens (joined es)) : BeginsRaw name ls := by
  by_cases hfirst : ∃ value pos rest, joined es = ⟨.text value, pos⟩ :: rest
  · obtain ⟨value, pos, rest, hes⟩ := hfirst
    rw [hes] at h hstatic
    cases h with
    | text hrest =>
    cases hscan.readsOn rfl hes nofun with
    | intro hscan' hm =>
    obtain rfl := Mode.eq_raw_of_body hm
    rcases hrest.closesRaw hscan' hword hstatic.tail hstatic.head_ne with rfl | ⟨p, ls', rfl⟩
    · exact .unclosed
    · refine .text ?_
      generalize joined _ = ts at hrest hes
      cases hrest with
      | close => exact hscan.confined hword hes
  · have hhead : ∀ t ∈ (joined es).head?, ∀ value, t.kind ≠ .text value := by
      rintro ⟨k, p⟩ ht value rfl
      obtain ⟨r, hr⟩ := List.head?_eq_some_iff.mp ht
      exact hfirst ⟨value, p, r, hr⟩
    rcases h.closesRaw hscan hword hstatic hhead with rfl | ⟨p, ls', rfl⟩
    · exact .stop
    · exact .close

theorem InTag.body?_close (raw : NameSet) (t : InTag) :
    ∃ body, (t.close raw).body? = some body := by
  unfold InTag.close
  split
  · split
    · exact ⟨_, rfl⟩
    · exact ⟨_, rfl⟩
  · exact ⟨_, rfl⟩

/-- Behind a close tag the scanner is between two tags again. -/
theorem Emits.closeTag {m : Mode} {body : Option String} (h : Emits raw m es)
    (hm : m.body? = some body) {p p' : Position} {inner rest : List Token} {selfClosing : Bool}
    (hes : joined es = ⟨.openAngle, p⟩ :: ⟨.slash, p'⟩ :: inner)
    (hclose : behindClose false inner = some (selfClosing, rest)) :
    ∃ es' m' body', Emits raw m' es' ∧ m'.body? = some body' ∧ joined es' = rest := by
  have hopens := h.opensTag hm hes
  generalize hall : (⟨.slash, p'⟩ :: inner : List Token) = ts at hopens
  cases hopens with
  | start => cases hall
  | close _ hscan =>
    cases hall
    cases hscan.closesTag (.not rfl rfl) hclose with
    | @intro _ _ _ t _ hscan' =>
    obtain ⟨body', hbody'⟩ := t.body?_close raw
    exact ⟨_, _, body', hscan', hbody', rfl⟩

/-- Static tokens are cut into static lexemes: a text stands behind a tag or at the beginning, and
    the scanner reads raw text where an element of raw text is open. -/
theorem Lexed.static {ts : List Token} (h : Lexed stop before ts ls) {m : Mode}
    {body : Option String} (hscan : Emits raw m es) (hm : m.body? = some body)
    (hts : joined es = ts) (hstatic : StaticTokens ts)
    (hbefore : ∀ t ∈ ts.head?, ∀ value, t.kind = .text value →
      before.all (· == .closeAngle) = true) : StaticLexemes raw ls := by
  induction h generalizing es m body with
  | nil => exact .nil
  | @text before value pos ts ls _ ih =>
    cases hscan.readsOn hm hts nofun with
    | intro hscan' hm' =>
    refine .text (hstatic.kinds _ List.mem_cons_self) ?_
      (ih hscan' hm' rfl hstatic.tail fun t ht value hvalue =>
        absurd hvalue (hstatic.head_ne t ht _))
    intro hkept
    simpa [keepsText, hbefore _ rfl _ rfl] using hkept
  | hole | commentHole => exact (hstatic.kinds _ List.mem_cons_self).elim
  | @start before name pos p tokens ts attrs selfClosing ls scan hrest ih =>
    obtain ⟨inner, hinner⟩ := suffix_behindClose (behindClose_readAttrs scan)
    have htokens : StaticTokens tokens := hstatic.tail.tail
    have hstatic' : StaticTokens ts := (hinner ▸ htokens).append_right
    have hattrs := isNamed_of_readAttrs htokens.kinds scan
    cases hscan.opensTag hm hts with
    | start hname _ hscan' =>
    cases hscan'.closesTag (.not rfl rfl) (behindClose_readAttrs scan) with
    | @intro _ es' _ t _ hscan'' hstart hcounted =>
    obtain ⟨body', hbody'⟩ := t.body?_close raw
    refine .start hname hattrs ?_ (ih hscan'' hbody' rfl hstatic' fun _ _ _ _ => rfl)
    intro hself hraw
    have hcount : t.selfClosing = false := by
      rw [Bool.eq_false_iff]
      intro hcount
      rw [hcounted hcount] at hself
      cases hself
    have hclose : t.close raw = .raw name := by
      rw [InTag.close, hstart]
      simp only [hraw, hcount, Bool.not_false, Bool.and_self, if_true]
    rw [hclose] at hscan''
    exact hrest.beginsRaw hscan'' hname.1 hstatic'
  | close _ ih | closeAny _ ih =>
    obtain ⟨es', m', body', hscan', hbody', hes'⟩ := hscan.closeTag hm hts rfl
    exact .close (ih hscan' hbody' hes' hstatic.tail.tail.tail.tail fun _ _ _ _ => rfl)

end

/-! ### Nodes -/

/-- The children of a raw-text element `name` are one text at most, in which no close tag of the
    element begins. -/
def HoldsRaw (name : String) (children : List Node) : Prop :=
  children = [] ∨ ∃ value, children = [.text value] ∧ StaysIn name value

mutual

/-- A node of static markup. -/
def Node.Static (void raw : NameSet) : Node → Prop
  | .text value => '&' ∉ value.toList ∧ Text.allBlank value = false
  | .hole _ => False
  | .element tag children =>
    IsTagName tag.name ∧ (∀ a ∈ tag.attrs, a.IsNamed) ∧
      (isVoid void tag.name = true → children = []) ∧
      (raw.contains tag.name = true → HoldsRaw tag.name children) ∧ StaticAll void raw children

/-- The nodes of static markup. -/
def StaticAll (void raw : NameSet) : List Node → Prop
  | [] => True
  | n :: ns => n.Static void raw ∧ StaticAll void raw ns

end

theorem StaticAll.append {void raw : NameSet} {ns ms : List Node} (h : StaticAll void raw ns)
    (h' : StaticAll void raw ms) : StaticAll void raw (ns ++ ms) := by
  induction ns with
  | nil => exact h'
  | cons n ns ih => exact ⟨h.1, ih h.2⟩

namespace Phrase

variable {void raw : NameSet}

theorem textIn_of_not_mem {value : String} (h : '&' ∉ value.toList) (around : Option Tag) :
    textIn around value = value := by
  rw [textIn, decodeReferences_of_not_mem h, ite_self]

/-- Content that comes before the close tag of an element with content is empty if that close tag
    comes first. -/
theorem eq_nil_of_close {name : String} (hname : isVoid void name = false) {ps : List Phrase}
    (hps : WellFormedAll void ps) {pos : Position} {r ls : List Lexeme}
    (h : yieldAll ps ++ r = .close (some name) pos :: ls) : ps = [] := by
  cases ps with
  | nil => rfl
  | cons p ps =>
    rw [yieldAll, List.append_assoc] at h
    have hends : EndsContent void (p.yield ++ (yieldAll ps ++ r)) := by
      rw [h, EndsContent]
      simp [hname]
    exact (not_endsContent_yield hps.1 _ hends).elim

/-- The content of a raw-text element is one text at most. -/
theorem content_of_beginsRaw {name : String} (hname : isVoid void name = false)
    {content : List Phrase} (hcontent : WellFormedAll void content) {closing : Option String}
    {pos : Position} {ls : List Lexeme}
    (h : BeginsRaw name (yieldAll content ++ .close closing pos :: ls)) :
    content = [] ∨ ∃ value kept, content = [.text value kept] ∧ StaysIn name value := by
  cases content with
  | nil => exact Or.inl rfl
  | cons p ps =>
    obtain ⟨hp, hps⟩ := hcontent
    rw [yieldAll, List.append_assoc] at h
    generalize hrest : yieldAll ps ++ .close closing pos :: ls = rest at h
    cases p with
    | text value kept =>
      cases h with
      | unclosed => simp at hrest
      | text hvalue =>
        obtain rfl := eq_nil_of_close hname hps hrest
        exact Or.inr ⟨value, kept, rfl, hvalue⟩
    | idle name' pos' =>
      cases h with
      | close =>
        rw [WellFormed, hname] at hp
        cases hp
    | hole => cases h
    | commentHole => cases h
    | leaf => cases h
    | element => cases h

mutual

/-- Static lexemes come to static nodes. -/
theorem static_nodes (around : Option Tag) (slot : Nat) :
    ∀ (p : Phrase) {ls : List Lexeme}, p.WellFormed void → StaticLexemes raw (p.yield ++ ls) →
      StaticAll void raw (p.nodes around slot).1 ∧ StaticLexemes raw ls
  | .text value kept, ls, _, h => by
    cases h with
    | text hplain hkept rest =>
    refine ⟨?_, rest⟩
    rw [nodes, textIn_of_not_mem hplain]
    split
    · next hkeep => exact ⟨⟨hplain, hkept hkeep⟩, trivial⟩
    · trivial
  | .hole _, _, _, h => by cases h
  | .commentHole _, _, _, h => by cases h
  | .idle _ _, _, _, h => by
    cases h with
    | close rest => exact ⟨trivial, rest⟩
  | .leaf name attrs selfClosing pos, ls, _, h => by
    cases h with
    | start hname hattrs _ rest =>
    exact ⟨⟨⟨hname, hattrs, fun _ => rfl, fun _ => Or.inl rfl, trivial⟩, trivial⟩, rest⟩
  | .element name attrs pos content closing closePos, ls, hp, h => by
    obtain ⟨hvoid, hclose, hcontent⟩ := hp
    rw [yield, List.cons_append, List.append_assoc, List.singleton_append] at h
    cases h with
    | start hname hattrs hraw rest =>
    obtain ⟨hinner, hrest⟩ := static_nodesAll (some (tagIn around slot name attrs))
      (slotAfter name slot) content hcontent rest
    cases hrest with
    | close hls =>
    refine ⟨⟨⟨hname, hattrs, fun h => ?_, fun h => ?_, hinner⟩, trivial⟩, hls⟩
    · rw [show (tagIn around slot name attrs).name = name from rfl, hvoid] at h
      cases h
    · rcases content_of_beginsRaw hvoid hcontent (hraw rfl h) with rfl | ⟨value, kept, rfl, hvalue⟩
      · exact Or.inl rfl
      · cases rest with
        | text hplain =>
        cases kept with
        | false => exact Or.inl rfl
        | true =>
          refine Or.inr ⟨value, ?_, hvalue⟩
          simp [nodesAll, nodes, textIn_of_not_mem hplain]

/-- The same for several phrases. -/
theorem static_nodesAll (around : Option Tag) (slot : Nat) :
    ∀ (ps : List Phrase) {ls : List Lexeme}, WellFormedAll void ps →
      StaticLexemes raw (yieldAll ps ++ ls) →
      StaticAll void raw (nodesAll around slot ps).1 ∧ StaticLexemes raw ls
  | [], _, _, h => ⟨trivial, h⟩
  | p :: ps, ls, hps, h => by
    rw [yieldAll, List.append_assoc] at h
    obtain ⟨hp, hrest⟩ := static_nodes around slot p hps.1 h
    obtain ⟨hall, hls⟩ := static_nodesAll around (p.nodes around slot).2 ps hps.2 hrest
    exact ⟨hp.append hall, hls⟩

end

end Phrase

/-- Static markup is parsed to static nodes. -/
theorem static_parse {void raw : NameSet} {s : String}
    (hs : '&' ∉ s.toList) {tree : Template} (hparse : parse void raw [s] = .ok tree) :
    StaticAll void raw tree.children := by
  obtain ⟨ls, ps, hlexed, hderives, rfl⟩ := exists_derives_of_parseTokens hparse
  obtain ⟨m, hm, hscan⟩ := emits_emissions raw [s]
  have hstatic : StaticLexemes raw ls :=
    hlexed.static hscan hm (tokenize_eq_joined raw [s]).symm (staticTokens_tokenize raw hs)
      fun _ _ _ _ => rfl
  rw [← hderives.yield_eq, ← List.append_nil (Phrase.yieldAll ps)] at hstatic
  exact (Phrase.static_nodesAll none _ ps hderives.wellFormed hstatic).1

end Stencil.Markup
