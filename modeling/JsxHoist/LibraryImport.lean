import JsxHoist.Tree.Basic

/-!
# The library import

The first import of the library is the **anchor**: declarations of hoisted elements go after it.
An import is recognised by the text of its specifier, quotes included.
-/

namespace JsxHoist

/-- Is the character a quote? -/
def IsQuote (c : Char) : Prop :=
  c = '\x27' ∨ c = '"'

instance (c : Char) : Decidable (IsQuote c) :=
  inferInstanceAs (Decidable (_ ∨ _))

/-- The characters between two quotes, which may differ, if there are some and none is a quote. -/
def unquote? : List Char → Option (List Char)
  | [] => none
  | q :: rest =>
    match rest.getLast? with
    | none => none
    | some r =>
      let inner := rest.dropLast
      if IsQuote q ∧ IsQuote r ∧ ¬ inner.isEmpty ∧ ¬ inner.any (IsQuote ·) then some inner else none

theorem unquote?_eq_some_iff {cs inner : List Char} :
    unquote? cs = some inner ↔ inner ≠ [] ∧ (∀ c ∈ inner, ¬ IsQuote c) ∧
      ∃ q r, IsQuote q ∧ IsQuote r ∧ cs = q :: inner ++ [r] := by
  constructor
  · intro h
    unfold unquote? at h
    split at h
    · simp at h
    · next q rest =>
      split at h
      · simp at h
      · next r hr =>
        simp only [Option.ite_none_right_eq_some, Option.some.injEq] at h
        obtain ⟨⟨hq, hr', hne, hfree⟩, rfl⟩ := h
        rw [List.isEmpty_iff] at hne
        simp only [List.any_eq_true, decide_eq_true_eq, not_exists, not_and] at hfree
        have hsplit : rest.dropLast ++ [r] = rest := by
          obtain ⟨before, rfl⟩ := List.getLast?_eq_some_iff.1 hr
          rw [List.dropLast_concat]
        exact ⟨hne, hfree, q, r, hq, hr', by rw [List.cons_append, hsplit]⟩
  · rintro ⟨hne, hfree, q, r, hq, hr, rfl⟩
    simp only [unquote?, List.cons_append, List.getLast?_concat, List.dropLast_concat]
    exact if_pos ⟨hq, hr, mt List.isEmpty_iff.1 hne, by simpa using hfree⟩

namespace StringLiteral

/-- The literal as it is written; without a written form, its value in double quotes. -/
def written (s : StringLiteral) : String :=
  s.raw.getD ("\"" ++ s.value ++ "\"")

/-- The module that the literal names as a specifier. -/
def specifier? (s : StringLiteral) : Option String :=
  (unquote? s.written.toList).map String.ofList

end StringLiteral

namespace Tree

/-- Is the item a directive, such as `"use strict"`: a statement that is a string? -/
def isDirective : Tree → Bool
  | node ⟨.expressionStatement, _, _⟩ [(_, node ⟨.string _ _, _, _⟩ _)] => true
  | _ => false

/-- Is the item an import of the given module? -/
def isImportOf (source : String) : Tree → Bool
  | node ⟨.importDeclaration literal, _, _⟩ _ => literal.specifier? = some source
  | _ => false

end Tree

/-- The index of the first import of the given module. Directives are passed over. -/
def anchor? (source : String) (items : List Tree) : Option Nat :=
  items.findIdx? fun item => !item.isDirective && item.isImportOf source

end JsxHoist
