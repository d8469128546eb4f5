import JsxHoist.Options.Basic
import JsxHoist.Proofs.Changes
import Mathlib.Order.Bounds.Defs

/-!
# Anchors

The anchor is found by text. A literal **quotes** a source (`StringLiteral.Quotes`) when it is
written as the source between two quotes, which need not match, and an item **imports** a source
**by text** (`Tree.ImportsByText`) when it is an import whose specifier quotes it. The anchor is the
first such item (`anchor?_first_import`). Other items before it do not count, so directives may come
and go there.

A source with a quote in it is quoted by no literal. The check of options lets such a source pass,
and yet no module has an anchor for it (`anchor?_synthesized`).
-/

namespace JsxHoist

/-! ### Literals -/

/-- Between two quotes, characters are found if there are some and none is a quote; which quotes
stand around them does not count. -/
theorem unquote?_quoted_eq_some_iff {q r : Char} (hq : IsQuote q) (hr : IsQuote r)
    {cs inner : List Char} :
    unquote? (q :: cs ++ [r]) = some inner ↔
      cs = inner ∧ inner ≠ [] ∧ ∀ c ∈ inner, ¬ IsQuote c := by
  rw [unquote?_eq_some_iff]
  constructor
  · rintro ⟨hne, hfree, q', r', -, -, heq⟩
    have hcs : cs = inner := (List.append_inj' (List.cons.inj heq).2 rfl).1
    exact ⟨hcs, hne, hfree⟩
  · rintro ⟨rfl, hne, hfree⟩
    exact ⟨hne, hfree, q, r, hq, hr, rfl⟩

namespace StringLiteral

/-- The literal **quotes** a source: its written form, or else its value in double quotes, is the
source between two quotes, and the source is not empty and has no quote in it. -/
def Quotes (s : StringLiteral) (source : String) : Prop :=
  ∃ text : String, (s.raw = some text ∨ s.raw = none ∧ text = "\"" ++ s.value ++ "\"") ∧
    (∃ q r, IsQuote q ∧ IsQuote r ∧ text.toList = q :: source.toList ++ [r]) ∧
    source ≠ "" ∧ ∀ c ∈ source.toList, ¬ IsQuote c

theorem written_eq_iff {s : StringLiteral} {text : String} :
    s.written = text ↔ s.raw = some text ∨ s.raw = none ∧ text = "\"" ++ s.value ++ "\"" := by
  cases hraw : s.raw with
  | none => simp [written, hraw, eq_comm]
  | some raw => simp [written, hraw]

theorem specifier?_eq_some_iff {s : StringLiteral} {source : String} :
    s.specifier? = some source ↔ s.Quotes source := by
  have hspecifier : s.specifier? = some source ↔
      unquote? s.written.toList = some source.toList := by
    rw [specifier?, Option.map_eq_some_iff]
    constructor
    · rintro ⟨inner, hinner, rfl⟩
      rw [String.toList_ofList]
      exact hinner
    · intro h
      exact ⟨_, h, String.ofList_toList⟩
  rw [hspecifier, unquote?_eq_some_iff]
  constructor
  · rintro ⟨hne, hfree, hquoted⟩
    exact ⟨s.written, written_eq_iff.1 rfl, hquoted, fun h => hne (by rw [h]; rfl), hfree⟩
  · rintro ⟨text, htext, hquoted, hne, hfree⟩
    rw [written_eq_iff.2 htext]
    exact ⟨fun h => hne (String.toList_eq_nil_iff.1 h), hfree, hquoted⟩

/-- A literal whose written form is its value in quotes names the same module without it. -/
theorem specifier?_of_raw {s : StringLiteral} {q r : Char} (hq : IsQuote q) (hr : IsQuote r)
    (hraw : s.raw = some (String.ofList (q :: s.value.toList ++ [r]))) :
    s.specifier? = { s with raw := none }.specifier? := by
  have hwritten : s.written.toList = q :: s.value.toList ++ [r] := by
    rw [written, hraw, Option.getD_some, String.toList_ofList]
  have hwritten' : ({ s with raw := none } : StringLiteral).written.toList =
      '"' :: s.value.toList ++ ['"'] := by
    rw [written, Option.getD_none, String.toList_append, String.toList_append]
    rfl
  have hinner : unquote? (q :: s.value.toList ++ [r]) =
      unquote? ('"' :: s.value.toList ++ ['"']) := by
    refine Option.ext fun inner => ?_
    rw [unquote?_quoted_eq_some_iff hq hr, unquote?_quoted_eq_some_iff (.inr rfl) (.inr rfl)]
  rw [specifier?, specifier?, hwritten, hwritten', hinner]

/-- Without a written form, a literal names its value if that is not empty and has no quote. -/
theorem specifier?_of_raw_eq_none {s : StringLiteral} (hraw : s.raw = none) :
    s.specifier? = some s.value ↔ s.value ≠ "" ∧ ∀ c ∈ s.value.toList, ¬ IsQuote c := by
  rw [specifier?_eq_some_iff]
  constructor
  · rintro ⟨-, -, -, hne, hfree⟩
    exact ⟨hne, hfree⟩
  · rintro ⟨hne, hfree⟩
    refine ⟨_, .inr ⟨hraw, rfl⟩, ⟨'"', '"', .inr rfl, .inr rfl, ?_⟩, hne, hfree⟩
    rw [String.toList_append, String.toList_append]
    rfl

end StringLiteral

/-! ### Imports -/

namespace Tree

/-- The item **imports by text** a source: it is an import, and its specifier quotes the source. -/
def ImportsByText (source : String) (t : Tree) : Prop :=
  ∃ (literal : StringLiteral) (span : Option Span) (data : List (String × Datum))
    (parts : List (Slot × Tree)),
    t = .node ⟨.importDeclaration literal, span, data⟩ parts ∧ literal.Quotes source

theorem isImportOf_iff {source : String} {t : Tree} :
    t.isImportOf source ↔ t.ImportsByText source := by
  constructor
  · intro h
    unfold isImportOf at h
    split at h
    · next literal span data parts =>
      exact ⟨literal, span, data, parts, rfl,
        StringLiteral.specifier?_eq_some_iff.1 (of_decide_eq_true h)⟩
    · exact absurd h Bool.false_ne_true
  · rintro ⟨literal, span, data, parts, rfl, hquotes⟩
    exact decide_eq_true (StringLiteral.specifier?_eq_some_iff.2 hquotes)

end Tree

/-! ### Anchors -/

variable {source : String}

theorem anchor?_eq_some_iff_isLeast {items : List Tree} {i : Nat} :
    anchor? source items = some i ↔
      IsLeast {j | ∃ t, items[j]? = some t ∧ t.ImportsByText source} i := by
  simp only [← Tree.isImportOf_iff]
  refine (Module.anchor?_eq_some_iff (m := { body := items })).trans ?_
  constructor
  · rintro ⟨himport, hbefore⟩
    refine ⟨himport, ?_⟩
    rintro j ⟨t, ht, hj⟩
    by_contra hlt
    exact hbefore j t (Nat.lt_of_not_le hlt) ht hj
  · rintro ⟨himport, hle⟩
    exact ⟨himport, fun j t hj ht hit => Nat.not_le_of_lt hj (hle ⟨t, ht, hit⟩)⟩

theorem anchor?_eq_none_iff {items : List Tree} :
    anchor? source items = none ↔ ∀ t ∈ items, ¬ t.ImportsByText source := by
  rw [anchor?_eq_findIdx?, List.findIdx?_eq_none_iff]
  simp only [← Tree.isImportOf_iff, Bool.not_eq_true]

/-- An item is the anchor if and only if it is an import and no item before it is one. -/
theorem anchor?_append_cons_eq_some_iff {before after : List Tree} {t : Tree} :
    anchor? source (before ++ t :: after) = some before.length ↔
      (∀ u ∈ before, ¬ u.isImportOf source) ∧ t.isImportOf source := by
  refine (Module.anchor?_eq_some_iff (m := { body := before ++ t :: after })).trans ?_
  constructor
  · rintro ⟨⟨t', ht', himport⟩, hbefore⟩
    rw [List.getElem?_append_right (Nat.le_refl _), Nat.sub_self] at ht'
    obtain rfl := Option.some.inj ht'
    refine ⟨fun u hu => ?_, himport⟩
    obtain ⟨j, hj, rfl⟩ := List.mem_iff_getElem.1 hu
    refine hbefore j _ hj ?_
    rw [List.getElem?_append_left hj, List.getElem?_eq_getElem hj]
  · rintro ⟨hbefore, himport⟩
    refine ⟨⟨t, by simp, himport⟩, fun j u hj hu => hbefore u ?_⟩
    rw [List.getElem?_append_left hj] at hu
    exact List.mem_of_getElem? hu

/-- **Directives before the anchor** shift it by their number. -/
theorem anchor?_of_filter_isDirective {before before' after : List Tree} {t : Tree}
    (h : anchor? source (before ++ t :: after) = some before.length)
    (hfilter : before'.filter (!·.isDirective) = before.filter (!·.isDirective)) :
    anchor? source (before' ++ t :: after) = some before'.length := by
  obtain ⟨hbefore, ht⟩ := anchor?_append_cons_eq_some_iff.1 h
  refine anchor?_append_cons_eq_some_iff.2 ⟨fun u hu himport => hbefore u ?_ himport, ht⟩
  have hkept : u ∈ before'.filter (!·.isDirective) :=
    List.mem_filter.2 ⟨hu, by simp [Tree.not_isDirective_of_isImportOf himport]⟩
  rw [hfilter] at hkept
  exact (List.mem_filter.1 hkept).1

/-- The length of a list, apart from the directives in it. -/
theorem length_eq_countP_isDirective_add (items : List Tree) :
    items.length = items.countP Tree.isDirective + (items.filter (!·.isDirective)).length := by
  rw [← List.countP_eq_length_filter, List.length_eq_countP_add_countP Tree.isDirective]
  simp only [Bool.not_eq_true, Bool.decide_eq_false]

/-- **The anchor is the first import by text** of a source: it is the least index of such an import,
and missing if and only if there is none. Directives that are put before it or taken away there
shift it by their number. And where the written form of a specifier is its value in quotes, it may
as well be missing. -/
theorem anchor?_first_import (source : String) (items : List Tree) :
    (∀ i, anchor? source items = some i ↔
        IsLeast {j | ∃ t, items[j]? = some t ∧ t.ImportsByText source} i) ∧
      (anchor? source items = none ↔ ∀ t ∈ items, ¬ t.ImportsByText source) ∧
      (∀ before before' t after, items = before ++ t :: after →
        anchor? source items = some before.length →
        before'.filter (!·.isDirective) = before.filter (!·.isDirective) →
        anchor? source (before' ++ t :: after) = some before'.length ∧
          before'.length + before.countP Tree.isDirective =
            before.length + before'.countP Tree.isDirective) ∧
      ∀ before literal span data parts after q r,
        items = before ++ .node ⟨.importDeclaration literal, span, data⟩ parts :: after →
        IsQuote q → IsQuote r →
        literal.raw = some (String.ofList (q :: literal.value.toList ++ [r])) →
        anchor? source
            (before ++
              .node ⟨.importDeclaration { literal with raw := none }, span, data⟩ parts :: after) =
          anchor? source items := by
  refine ⟨fun i => anchor?_eq_some_iff_isLeast, anchor?_eq_none_iff, ?_, ?_⟩
  · rintro before before' t after rfl hanchor hfilter
    refine ⟨anchor?_of_filter_isDirective hanchor hfilter, ?_⟩
    have hbefore := length_eq_countP_isDirective_add before
    have hbefore' := length_eq_countP_isDirective_add before'
    rw [hfilter] at hbefore'
    omega
  · rintro before literal span data parts after q r rfl hq hr hraw
    have himport :
        Tree.isImportOf source (.node ⟨.importDeclaration literal, span, data⟩ parts) =
          Tree.isImportOf source
            (.node ⟨.importDeclaration { literal with raw := none }, span, data⟩ parts) := by
      rw [Tree.isImportOf, Tree.isImportOf, StringLiteral.specifier?_of_raw hq hr hraw]
    rw [anchor?_eq_findIdx?, anchor?_eq_findIdx?, List.findIdx?_append, List.findIdx?_append,
      List.findIdx?_cons, List.findIdx?_cons, himport]

/-- Quotes need not match, and a directive before the import counts as an item. -/
example :
    anchor? "react"
      [.node ⟨.expressionStatement, none, []⟩
          [(.single "expression", .node ⟨.string "use strict" none, none, []⟩ [])],
        .node ⟨.importDeclaration { value := "react", raw := some "'react\"" }, none, []⟩ []] =
      some 1 := by
  decide

/-! ### Sources with a quote -/

/-- No module has an anchor for a source with a quote. -/
theorem anchor?_eq_none_of_isQuote {c : Char} (hc : c ∈ source.toList) (hquote : IsQuote c)
    (items : List Tree) : anchor? source items = none := by
  rw [anchor?_eq_none_iff]
  rintro t - ⟨literal, span, data, parts, -, -, -, -, -, hfree⟩
  exact hfree c hc hquote

theorem anchor?_cons_eq_some_zero_iff {t : Tree} {items : List Tree} :
    anchor? source (t :: items) = some 0 ↔ t.isImportOf source := by
  have hcons := @anchor?_append_cons_eq_some_iff source [] items t
  simpa using hcons

/-- **An import without a written form** whose value is the import source of valid options is
recognised, and is the anchor where it comes first, if and only if there is no quote in that source.
If there is one, then no module has an anchor. -/
theorem anchor?_synthesized {o : Options} (hvalid : o.validate = .ok ()) (literal : StringLiteral)
    (hraw : literal.raw = none) (hvalue : literal.value = o.importSource) (span : Option Span)
    (data : List (String × Datum)) (parts : List (Slot × Tree)) :
    (Tree.isImportOf o.importSource (.node ⟨.importDeclaration literal, span, data⟩ parts) ↔
        ∀ c ∈ o.importSource.toList, ¬ IsQuote c) ∧
      (∀ items, anchor? o.importSource
          (.node ⟨.importDeclaration literal, span, data⟩ parts :: items) = some 0 ↔
        ∀ c ∈ o.importSource.toList, ¬ IsQuote c) ∧
      ((∃ c ∈ o.importSource.toList, IsQuote c) →
        ∀ items, anchor? o.importSource items = none) := by
  have hne : o.importSource ≠ "" := (Options.validate_eq_ok_iff.1 hvalid).1
  have himport :
      Tree.isImportOf o.importSource (.node ⟨.importDeclaration literal, span, data⟩ parts) ↔
        ∀ c ∈ o.importSource.toList, ¬ IsQuote c := by
    rw [Tree.isImportOf, decide_eq_true_iff, ← hvalue,
      StringLiteral.specifier?_of_raw_eq_none hraw, hvalue]
    exact and_iff_right hne
  refine ⟨himport, fun items => anchor?_cons_eq_some_zero_iff.trans himport, ?_⟩
  rintro ⟨c, hc, hquote⟩
  exact anchor?_eq_none_of_isQuote hc hquote

/-- The source `it's` passes the check, and an import of it is not recognised. -/
theorem anchor?_synthesized_sample :
    ({ importSource := "it's" } : Options).validate = .ok () ∧
      Tree.isImportOf "it's"
        (.node ⟨.importDeclaration { value := "it's", raw := none }, none, []⟩ []) = false ∧
      ∀ items, anchor? "it's" items = none := by
  have hvalid : ({ importSource := "it's" } : Options).validate = .ok () := by decide
  have hquote : ∃ c ∈ "it's".toList, IsQuote c := ⟨'\x27', by decide, .inl rfl⟩
  obtain ⟨himport, -, hnone⟩ :=
    anchor?_synthesized hvalid { value := "it's", raw := none } rfl rfl none [] []
  refine ⟨hvalid, Bool.eq_false_iff.2 fun h => ?_, hnone hquote⟩
  obtain ⟨c, hc, hquote⟩ := hquote
  exact himport.1 h c hc hquote

/-- Not every import source that passes the check can be imported. -/
theorem not_forall_isImportOf_synthesized :
    ¬ ∀ (o : Options) (literal : StringLiteral) (span : Option Span)
      (data : List (String × Datum)) (parts : List (Slot × Tree)), o.validate = .ok () →
      literal.raw = none → literal.value = o.importSource →
      Tree.isImportOf o.importSource (.node ⟨.importDeclaration literal, span, data⟩ parts) := by
  intro hall
  have himport := hall { importSource := "it's" } { value := "it's", raw := none } none [] []
    (by decide) rfl rfl
  exact absurd himport (by decide)

end JsxHoist
