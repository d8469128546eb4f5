/-!
# Options

What a user of the hoister can choose, what is wrong with a choice, and which of several faults is
named (`Options.validate`).

The stem of the generated names has to be an identifier (`IsIdentifier`): an ASCII letter,
underscore or dollar sign, followed by any number of these and of ASCII digits.
-/

namespace JsxHoist

/-! ### Identifiers -/

/-- May the character begin an identifier? -/
def IsIdentifierStart (c : Char) : Prop :=
  c.isAlpha ∨ c = '_' ∨ c = '$'

instance (c : Char) : Decidable (IsIdentifierStart c) :=
  inferInstanceAs (Decidable (_ ∨ _))

/-- May the character stand in an identifier after the first place? -/
def IsIdentifierPart (c : Char) : Prop :=
  IsIdentifierStart c ∨ c.isDigit

instance (c : Char) : Decidable (IsIdentifierPart c) :=
  inferInstanceAs (Decidable (_ ∨ _))

/-- Do the characters spell an identifier? -/
def SpellsIdentifier : List Char → Prop
  | [] => False
  | c :: cs => IsIdentifierStart c ∧ ∀ d ∈ cs, IsIdentifierPart d

instance : (cs : List Char) → Decidable (SpellsIdentifier cs)
  | [] => inferInstanceAs (Decidable False)
  | _ :: cs => @instDecidableAnd _ _ _ (List.decidableBAll IsIdentifierPart cs)

/-- Is the whole text an identifier? -/
def IsIdentifier (text : String) : Prop :=
  SpellsIdentifier text.toList

instance (text : String) : Decidable (IsIdentifier text) :=
  inferInstanceAs (Decidable (SpellsIdentifier text.toList))

/-! ### The options and their faults -/

/-- The keyword of a generated declaration. -/
inductive DeclarationKind where
  | var
  | let
  | const
deriving DecidableEq, Repr, Inhabited

namespace DeclarationKind

/-- The keyword as it is written. -/
def keyword : DeclarationKind → String
  | .var => "var"
  | .let => "let"
  | .const => "const"

/-- The kind with the given keyword. -/
def ofKeyword? : String → Option DeclarationKind
  | "var" => some .var
  | "let" => some .let
  | "const" => some .const
  | _ => none

@[simp]
theorem ofKeyword?_keyword (k : DeclarationKind) : ofKeyword? k.keyword = some k := by
  cases k <;> rfl

end DeclarationKind

/-- The options of a hoister. -/
structure Options where
  /-- Report every hoisted element. -/
  verbose : Bool := false
  /-- The specifier of the library import after which the declarations go. -/
  importSource : String := "react"
  /-- What every generated name starts with. -/
  stem : String := "hoisted_constant_element"
  /-- The keyword of the generated declarations. -/
  declarationKind : DeclarationKind := .var
deriving DecidableEq, Repr, Inhabited

/-- Why an options text is refused. -/
inductive OptionsError where
  /-- The text is no JSON value of the right form. -/
  | invalidJson
  | emptyImportSource
  | emptyStem
  /-- The stem is no identifier. -/
  | invalidStem (stem : String)
deriving DecidableEq, Repr, Inhabited

/-- The wording of an error. On a text of the wrong form it ends with `detail?`, what the reader of
the text says about the fault, if that is known. -/
def OptionsError.message (e : OptionsError) (detail? : Option String := none) : String :=
  match e, detail? with
  | .invalidJson, none => "invalid plugin config"
  | .invalidJson, some detail => "invalid plugin config: " ++ detail
  | .emptyImportSource, _ => "importSource must not be empty"
  | .emptyStem, _ => "prefix must not be empty"
  | .invalidStem stem, _ => "prefix `" ++ stem ++ "` is not a valid identifier"

namespace Options

/-- Checks the import source, then the stem, and names the first fault. -/
def validate (o : Options) : Except OptionsError Unit :=
  if o.importSource = "" then .error .emptyImportSource
  else if o.stem = "" then .error .emptyStem
  else if IsIdentifier o.stem then .ok ()
  else .error (.invalidStem o.stem)

/-- Options are **valid** when there is an import source and the stem is an identifier. -/
def Valid (o : Options) : Prop :=
  o.importSource ≠ "" ∧ IsIdentifier o.stem

instance (o : Options) : Decidable o.Valid :=
  inferInstanceAs (Decidable (_ ∧ _))

theorem not_isIdentifier_empty : ¬ IsIdentifier "" := id

theorem validate_eq_ok_iff {o : Options} : o.validate = .ok () ↔ o.Valid := by
  have hne : IsIdentifier o.stem → o.stem ≠ "" :=
    fun h he => not_isIdentifier_empty (he ▸ h)
  unfold validate Valid
  split
  · simp_all
  · split
    · simp_all [not_isIdentifier_empty]
    · split <;> simp_all

end Options

end JsxHoist
