import JsxHoist.Proofs.OptionMembers
import JsxHoist.Proofs.Renaming

/-!
# Runs under the options of a host

A host hands over a text for the options, or none, and must get a usable outcome whatever the text
is (`Hoister.ofHost`). Whether the text is read, is refused or is missing, the options are valid
(`Options.validate_ofHost`), so the stem is an identifier, and a name stays one when an underscore
and a number are put behind it (`isIdentifier_numbered`). Hence all that such a run writes into a
module are declarations of identifiers and references to them; and a text that is refused has no
other outcome than no text (`Hoister.visitProgram_ofHost`).
-/

namespace JsxHoist

/-! ### Identifiers -/

theorem SpellsIdentifier.append {cs ds : List Char} (h : SpellsIdentifier cs)
    (hds : ∀ d ∈ ds, IsIdentifierPart d) : SpellsIdentifier (cs ++ ds) := by
  cases cs with
  | nil => exact h.elim
  | cons c cs =>
    obtain ⟨hc, hcs⟩ := h
    exact ⟨hc, List.forall_mem_append.2 ⟨hcs, hds⟩⟩

/-- Whatever the number, the name that a stem makes of it is an identifier if the stem is. -/
theorem isIdentifier_numbered {stem : String} (h : IsIdentifier stem) (n : Nat) :
    IsIdentifier (numbered stem n) := by
  have hdigits : ∀ d ∈ (toString n).toList, IsIdentifierPart d := by
    intro d hd
    rw [Nat.toString_eq_repr, Nat.toList_repr] at hd
    exact .inr (Nat.isDigit_of_mem_toDigits (by decide) (by decide) hd)
  have hunderscore : ∀ d ∈ "_".toList, IsIdentifierPart d := by
    intro d hd
    obtain rfl := List.mem_singleton.1 hd
    decide
  rw [IsIdentifier, numbered, String.toList_append, String.toList_append]
  exact (SpellsIdentifier.append h hunderscore).append hdigits

/-! ### Options -/

namespace Options

theorem validate_default : ({} : Options).validate = .ok () := by
  decide

/-- Options that a text says are valid. -/
theorem validate_of_ofText {text : String} {o : Options} (h : ofText text = .ok o) :
    o.validate = .ok () := by
  rw [ofText] at h
  split at h
  · obtain rfl := Except.ok.inj h
    exact validate_default
  · split at h
    · cases h
    · next o' _ =>
      cases hvalid : o'.validate with
      | error e =>
        rw [hvalid] at h
        cases h
      | ok _ =>
        rw [hvalid] at h
        obtain rfl := Except.ok.inj h
        exact hvalid

theorem ofHost_of_ofText_eq_error {text : String} {e : OptionsError}
    (h : ofText text = .error e) : ofHost (some text) = ({}, some e) := by
  rw [ofHost, h]

/-- **The options of a host are valid**, whatever text it hands over. -/
theorem validate_ofHost (text? : Option String) : (ofHost text?).1.validate = .ok () := by
  cases text? with
  | none => exact validate_default
  | some text =>
    cases htext : ofText text with
    | error e =>
      rw [ofHost_of_ofText_eq_error htext]
      exact validate_default
    | ok o =>
      rw [ofHost, htext]
      exact validate_of_ofText htext

end Options

/-! ### Runs -/

namespace Hoister

/-- The hoister that a host runs, given the text for the options and the source. -/
def ofHost (text? : Option String) (source : Option SourceMap) : Hoister where
  options := (Options.ofHost text?).1
  source

/-- All that a hoister writes into a module are declarations of numbered names behind the anchor,
and references to them. -/
theorem exists_numbered_visitModule {h : Hoister} {m : Module} {i : Nat}
    (hi : anchor? h.options.importSource m.body = some i) :
    ∃ (bs : List Binding) (names : List String),
      (h.visitModule m).result =
        { m with
          body := m.body.take (i + 1) ++
            bs.map (Binding.declaration h.options.declarationKind) ++
            Tree.fillItems (m.body.drop (i + 1))
              (List.zipWith Site.reference (m.sitesAfter i) names) } ∧
      names.length = (m.sitesAfter i).length ∧ names ⊆ bs.map Binding.name ∧
      ∀ b ∈ bs, ∃ n, b.name = numbered h.options.stem n := by
  -- a walk is in step with itself, which is where its numbers come from
  obtain ⟨xs, ns, hns, hbindings, -, hlen, htail, -⟩ :=
    @exists_numbers_of_inStep h h m m i i rfl fun _ _ => Iff.rfl
  refine ⟨h.bindings m i, ns.map (numbered h.options.stem), ?_, ?_, ?_, ?_⟩
  · rw [result_visitModule hi, htail]
    rfl
  · rw [List.length_map, hlen]
  · intro name hname
    obtain ⟨n, hn, rfl⟩ := List.mem_map.1 hname
    obtain ⟨x, hx, rfl⟩ := List.mem_map.1 (hns hn)
    rw [hbindings, List.map_map]
    exact List.mem_map_of_mem (f := Binding.name ∘ Binding.ofNumber h.options.stem) hx
  · intro b hb
    obtain ⟨x, -, rfl⟩ := List.mem_map.1 (hbindings ▸ hb)
    exact ⟨x.1, rfl⟩

/-- **Whatever text a host hands over**, the options that it runs with pass the check, every name
that their stem can make is an identifier, and so is every name that is declared or referred to in
the outcome. A program without an anchor, in particular one that is no module, stays as it is. If
the text is refused, then the outcome is the same as without a text. -/
theorem visitProgram_ofHost (text? : Option String) (source : Option SourceMap) (p : Program) :
    (ofHost text? source).options.validate = .ok () ∧
      (∀ n, IsIdentifier (numbered (ofHost text? source).options.stem n)) ∧
      (∀ (m : Module) (i : Nat), p = .module m →
        anchor? (ofHost text? source).options.importSource m.body = some i →
        ∃ (bs : List Binding) (names : List String),
          ((ofHost text? source).visitProgram p).result = .module
            { m with
              body := m.body.take (i + 1) ++
                bs.map (Binding.declaration (ofHost text? source).options.declarationKind) ++
                Tree.fillItems (m.body.drop (i + 1))
                  (List.zipWith Site.reference (m.sitesAfter i) names) } ∧
          names.length = (m.sitesAfter i).length ∧ names ⊆ bs.map Binding.name ∧
          ∀ b ∈ bs, (∃ n, b.name = numbered (ofHost text? source).options.stem n) ∧
            IsIdentifier b.name) ∧
      ((∀ m : Module, p = .module m →
          anchor? (ofHost text? source).options.importSource m.body = none) →
        ((ofHost text? source).visitProgram p).result = p) ∧
      ∀ (text : String) (e : OptionsError), text? = some text → Options.ofText text = .error e →
        ((ofHost text? source).visitProgram p).result =
          ((ofHost none source).visitProgram p).result := by
  have hvalid : (ofHost text? source).options.validate = .ok () := Options.validate_ofHost text?
  have hstem : IsIdentifier (ofHost text? source).options.stem :=
    (Options.validate_eq_ok_iff.1 hvalid).2
  refine ⟨hvalid, isIdentifier_numbered hstem, ?_, ?_, ?_⟩
  · rintro m i rfl hi
    obtain ⟨bs, names, hresult, hlen, hnames, hbs⟩ := exists_numbered_visitModule hi
    refine ⟨bs, names, congrArg Program.module hresult, hlen, hnames, fun b hb => ?_⟩
    obtain ⟨n, hn⟩ := hbs b hb
    exact ⟨⟨n, hn⟩, hn ▸ isIdentifier_numbered hstem n⟩
  · intro hnone
    cases p with
    | script content => rfl
    | module m =>
      exact congrArg Program.module (result_visitModule_of_anchor?_eq_none (hnone m rfl))
  · rintro text e rfl htext
    rw [ofHost, Options.ofHost_of_ofText_eq_error htext]
    rfl

/-- A stem that begins with a digit is refused, and the names of the defaults are declared. -/
theorem visitProgram_ofHost_sample :
    Options.ofText "\x7b\"prefix\":\"1st\"\x7d" = .error (.invalidStem "1st") ∧
      ((ofHost (some "\x7b\"prefix\":\"1st\"\x7d") none).visitProgram
          (.module Module.sample)).result =
        ((ofHost none none).visitProgram (.module Module.sample)).result ∧
      ∃ (bs : List Binding) (names : List String),
        ((ofHost none none).visitProgram (.module Module.sample)).result = .module
          { Module.sample with
            body := Module.sample.body.take 1 ++ bs.map (Binding.declaration .var) ++
              Tree.fillItems (Module.sample.body.drop 1)
                (List.zipWith Site.reference (Module.sample.sitesAfter 0) names) } ∧
        names.length = 4 ∧ names ⊆ bs.map Binding.name ∧
        ∀ b ∈ bs, (∃ n, b.name = numbered "hoisted_constant_element" n) ∧
          IsIdentifier b.name := by
  have hwrites : Json.Writes "\x7b\"prefix\":\"1st\"\x7d"
      (.object [(some "prefix", .string (some "1st"))]) :=
    Json.ofText?_eq_some_iff.1 (by with_unfolding_all rfl)
  have htext : Options.ofText "\x7b\"prefix\":\"1st\"\x7d" = .error (.invalidStem "1st") :=
    Options.ofText_eq_of_writes hwrites
  refine ⟨htext, ?_, ?_⟩
  · exact (visitProgram_ofHost _ none (.module Module.sample)).2.2.2.2 _ _ rfl htext
  · exact (visitProgram_ofHost none none (.module Module.sample)).2.2.1 _ 0 rfl anchor?_sample

end Hoister

end JsxHoist
