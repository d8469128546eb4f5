import JsxHoist.Proofs.Exhaustion
import Mathlib.Data.List.Forall2

/-!
# Reports

A verbose hoister reports on every module with an anchor. The report is written from the bindings,
before any declaration stands in the module, and yet it describes the outcome: a heading with the
number of declarations, and a line for each of them, in the order of the body
(`Hoister.reports_visitProgram`).

What a line may say of an element is laid down apart from how the hoister finds it out
(`Reported`): the source text, where the source has one for the element, and else the bare tag with
its name in full (`JsxName.Spelled`).
-/

namespace JsxHoist

/-! ### Names in full -/

namespace JsxName

/-- A name is a **path** when it is a word or a member of a path, and has no namespace in it. -/
def IsPath : JsxName → Prop
  | plain _ => True
  | member object _ _ _ => object.IsPath
  | namespaced _ _ _ _ => False

/-- The text **spells** a name when it has the words of a path joined by dots, however many they
are, and the two words of a name in a namespace joined by a colon. -/
structure Spelled (name : JsxName) (text : String) : Prop where
  path : name.IsPath → text = ".".intercalate name.words
  namespaced : ∀ scope word span data, name = .namespaced scope word span data →
    text = scope.value ++ ":" ++ word.value

theorem words_ne_nil (name : JsxName) : name.words ≠ [] := by
  cases name <;> simp [words]

theorem text_of_isPath {name : JsxName} (h : name.IsPath) :
    name.text = ".".intercalate name.words := by
  induction name with
  | plain word => exact String.intercalate_singleton.symm
  | member object property _ _ ih =>
    have hobject : object.text = ".".intercalate object.words := ih h
    rw [text, words, hobject,
      String.intercalate_append_of_ne_nil object.words_ne_nil (List.cons_ne_nil _ _),
      String.intercalate_singleton]
  | namespaced => exact h.elim

theorem spelled_text (name : JsxName) : name.Spelled name.text where
  path := text_of_isPath
  namespaced := by
    rintro scope word span data rfl
    rfl

end JsxName

/-! ### Lines of a report -/

/-- What a report says of an element. -/
inductive Reported (source : Option SourceMap) (e : Tree) : String → Prop where
  /-- The source has a text for the span of the element, which is not dummy. -/
  | sourceText {map : SourceMap} {span : Span} {text : String} (hmap : source = some map)
      (hspan : e.span = some span) (hdummy : ¬ span.IsDummy)
      (htext : map.text? span = some text) : Reported source e text
  /-- There is no source, the span is dummy, or the source has no text for it. -/
  | bareTag {tag : JsxName} {name : String}
      (hnone : ∀ map span, source = some map → e.span = some span → ¬ span.IsDummy →
        map.text? span = none)
      (htag : e.tag? = some tag) (hname : tag.Spelled name) :
      Reported source e ("<" ++ name ++ " />")

theorem Tree.exists_tag?_of_isConstantElement {e : Tree} (h : e.isConstantElement) :
    ∃ tag, e.tag? = some tag := by
  obtain ⟨⟨kind, span, data⟩, o, tag, rfl, rfl, hkind, -⟩ := Tree.isConstantElement_iff.1 h
  refine ⟨tag, ?_⟩
  simp only [Tree.tag?, Tree.opening?, Option.bind_some, hkind]

/-- The line for the declaration of a binding. -/
def Event.Describes (line : Event) (source : Option SourceMap) (file : String) (d : Tree) : Prop :=
  ∃ b text, d.declared? = some b ∧ Reported source b.element text ∧
    line = .hoisted file b.name text

namespace Hoister

variable {h : Hoister} {m : Module} {i : Nat}

theorem sourceText?_eq_some_iff {e : Tree} {text : String} :
    h.sourceText? e = some text ↔ ∃ map span, h.source = some map ∧ e.span = some span ∧
      ¬ span.IsDummy ∧ map.text? span = some text := by
  simp only [sourceText?, Option.bind_eq_bind, Option.bind_eq_some_iff,
    Span.identity?_eq_some_iff]
  constructor
  · rintro ⟨map, hmap, span, hspan, id, ⟨hdummy, hid⟩, htext⟩
    rw [hid] at htext
    exact ⟨map, span, hmap, hspan, hdummy, htext⟩
  · rintro ⟨map, span, hmap, hspan, hdummy, htext⟩
    exact ⟨map, hmap, span, hspan, span, ⟨hdummy, rfl⟩, htext⟩

/-- What the hoister finds out about a constant element is what a report says of it. -/
theorem reported_elementText {e : Tree} (he : e.isConstantElement) :
    Reported h.source e (h.elementText e) := by
  rw [elementText]
  cases htext : h.sourceText? e with
  | some text =>
    obtain ⟨map, span, hmap, hspan, hdummy, hknown⟩ := sourceText?_eq_some_iff.1 htext
    exact .sourceText hmap hspan hdummy hknown
  | none =>
    obtain ⟨tag, htag⟩ := Tree.exists_tag?_of_isConstantElement he
    rw [htag]
    refine .bareTag (fun map span hmap hspan hdummy => ?_) htag tag.spelled_text
    refine Option.eq_none_iff_forall_ne_some.2 fun text hknown => ?_
    rw [sourceText?_eq_some_iff.2 ⟨map, span, hmap, hspan, hdummy, hknown⟩] at htext
    exact Option.some_ne_none text htext

/-- A report has a line for each declaration, in order. -/
theorem forall₂_describes {file : String} {kind : DeclarationKind} {bs : List Binding}
    (hbs : ∀ b ∈ bs, b.element.isConstantElement) :
    List.Forall₂ (fun d line => Event.Describes line h.source file d)
      (bs.map (Binding.declaration kind))
      (bs.map fun b => .hoisted file b.name (h.elementText b.element)) := by
  rw [List.forall₂_map_left_iff, List.forall₂_map_right_iff, List.forall₂_same]
  intro b hb
  exact ⟨b, _, b.declared?_declaration kind, reported_elementText (hbs b hb), rfl⟩

/-- All events of a report are for information. -/
theorem filter_report (span : Span) (bs : List Binding) :
    (h.report span bs).filter (fun ev => ev.level = .info) = h.report span bs := by
  refine List.filter_eq_self.2 fun ev hev => ?_
  rcases List.mem_cons.1 hev with rfl | hev
  · rfl
  · obtain ⟨b, -, rfl⟩ := List.mem_map.1 hev
    rfl

theorem events_visitProgram_module (h : Hoister) (m : Module) :
    (h.visitProgram (.module m)).events = (h.visitModule m).events := rfl

theorem events_visitModule (hi : anchor? h.options.importSource m.body = some i) :
    (h.visitModule m).events =
      if h.options.verbose then h.report m.span (h.bindings m i) else [] := by
  rw [visitModule_of_anchor? hi]

theorem events_visitModule_of_anchor?_eq_none
    (hi : anchor? h.options.importSource m.body = none) :
    (h.visitModule m).events = [.importMissing h.options.importSource] := by
  rw [visitModule_of_anchor?_eq_none hi]

/-- **The report describes the outcome.** Of what a hoister tells about a program, this is for
information:

* nothing, if the hoister is not verbose, the program is a script, or the module has no anchor;
* otherwise a heading with the number of declarations that stand behind the anchor in the outcome,
  and then a line for each of these, in the order of the body. The line has the declared name, and
  what `Reported` says of the declared element; the heading and the lines name the same file. -/
theorem reports_visitProgram (h : Hoister) (p : Program) :
    ((h.options.verbose = false ∨ (∃ content, p = .script content) ∨
        ∃ m, p = .module m ∧ anchor? h.options.importSource m.body = none) →
      (h.visitProgram p).events.filter (fun ev => ev.level = .info) = []) ∧
    ∀ m i, p = .module m → h.options.verbose = true →
      anchor? h.options.importSource m.body = some i →
      ∃ (ds tail : List Tree) (lines : List Event),
        (h.visitProgram p).result =
          .module { m with body := m.body.take (i + 1) ++ ds ++ tail } ∧
        tail.length = (m.body.drop (i + 1)).length ∧
        (h.visitProgram p).events.filter (fun ev => ev.level = .info) =
          .hoisting (h.fileName m.span) ds.length :: lines ∧
        List.Forall₂ (fun d line => Event.Describes line h.source (h.fileName m.span) d)
          ds lines := by
  constructor
  · intro hsilent
    cases p with
    | script content => rfl
    | module m =>
      rw [events_visitProgram_module]
      cases hi : anchor? h.options.importSource m.body with
      | none =>
        rw [events_visitModule_of_anchor?_eq_none hi]
        rfl
      | some i =>
        -- with an anchor, only a hoister that is not verbose says nothing
        have hquiet : h.options.verbose = false := by
          rcases hsilent with hquiet | ⟨content, hscript⟩ | ⟨m', hm', hnone⟩
          · exact hquiet
          · exact Program.noConfusion hscript
          · obtain rfl := Program.module.inj hm'
            rw [hi] at hnone
            exact absurd hnone (Option.some_ne_none i)
        rw [events_visitModule hi, hquiet]
        rfl
  · rintro m i rfl hverbose hi
    have hevents : (h.visitProgram (.module m)).events = h.report m.span (h.bindings m i) := by
      rw [events_visitProgram_module, events_visitModule hi, if_pos hverbose]
    refine ⟨h.declarations m i, h.tail m i, _, congrArg Program.module (result_visitModule hi),
      h.length_tail m i, ?_, forall₂_describes fun b hb => isConstantElement_of_mem_bindings hb⟩
    rw [hevents, filter_report, report, declarations, List.length_map]

/-- A verbose hoister with a source that has a text for the first line break of the sample and for
nothing else. -/
def verboseSample : Hoister where
  options := { verbose := true }
  source := some
    { fileName := fun _ => "page.jsx"
      text? := fun span => if span = ⟨10, 16⟩ then some "<br/>" else none }

/-- The sample is reported on, and a script is not. -/
theorem reports_visitProgram_sample :
    (verboseSample.visitProgram (.script .null)).events.filter (fun ev => ev.level = .info) = [] ∧
      verboseSample.options.verbose = true ∧ anchor? "react" Module.sample.body = some 0 ∧
      ∃ (ds tail : List Tree) (lines : List Event),
        (verboseSample.visitProgram (.module Module.sample)).result =
          .module { Module.sample with body := Module.sample.body.take 1 ++ ds ++ tail } ∧
        tail.length = 1 ∧
        (verboseSample.visitProgram (.module Module.sample)).events.filter
            (fun ev => ev.level = .info) = .hoisting "unknown" ds.length :: lines ∧
        List.Forall₂ (fun d line => Event.Describes line verboseSample.source "unknown" d)
          ds lines :=
  ⟨(reports_visitProgram verboseSample (.script .null)).1 (Or.inr (Or.inl ⟨.null, rfl⟩)), rfl,
    anchor?_sample,
    (reports_visitProgram verboseSample (.module Module.sample)).2 Module.sample 0 rfl rfl
      anchor?_sample⟩

end Hoister

end JsxHoist
