import JsxHoist.Json.Token
import Mathlib.Data.List.Chain

/-!
# The spelling of JSON tokens

A text spells a list of tokens (`Token.Spells`) when it is made of one lexeme for each token, in
their order, with any spaces before, between and behind them. What a lexeme is, is said here without
a scanner:

* a number (`Token.IsNumber`) is made of a sign, digits, a fraction and an exponent;
* a string is made of pieces (`Token.SpellsPoint`), one for each code point, and denotes a text if
  its surrogates come in pairs (`Token.Decodes`).

Scanning goes from a text to its tokens. Every list that it finds is spelled by the text
(`Token.spells_of_scan`), and it finds every list that is spelled in which no two scalars are next
to each other (`Token.scan_of_spells`). Two numbers would run together; elsewhere a lexeme shows
where it ends.
-/

namespace JsxHoist

namespace Token

/-! ### Numbers -/

/-- A nonempty run of digits. -/
def IsDigits (cs : List Char) : Prop :=
  cs ≠ [] ∧ ∀ c ∈ cs, c.isDigit

/-- The digits of a whole number: no other digit follows a zero at the start. -/
def IsWhole (cs : List Char) : Prop :=
  cs = ['0'] ∨ IsDigits cs ∧ cs.head? ≠ some '0'

/-- A point with digits after it, or nothing. -/
def IsFraction (cs : List Char) : Prop :=
  cs = [] ∨ ∃ ds, IsDigits ds ∧ cs = '.' :: ds

/-- A mark with a sign, which may be missing, and digits after it, or nothing. -/
def IsExponent (cs : List Char) : Prop :=
  cs = [] ∨ ∃ mark sign ds, (mark = 'e' ∨ mark = 'E') ∧ (sign = [] ∨ sign = ['+'] ∨ sign = ['-']) ∧
    IsDigits ds ∧ cs = mark :: (sign ++ ds)

/-- A number: a minus sign, which may be missing, a whole number, a fraction and an exponent. -/
def IsNumber (cs : List Char) : Prop :=
  ∃ sign whole fraction exponent, (sign = [] ∨ sign = ['-']) ∧ IsWhole whole ∧
    IsFraction fraction ∧ IsExponent exponent ∧ cs = sign ++ (whole ++ fraction ++ exponent)

/-- A digit does not begin the text. -/
def NoDigit (cs : List Char) : Prop :=
  ∀ c ∈ cs.head?, ¬ c.isDigit

/-- Nothing begins the text that a number could go on with. -/
def Ends (cs : List Char) : Prop :=
  ∀ c ∈ cs.head?, ¬ c.isDigit ∧ c ≠ '.' ∧ c ≠ 'e' ∧ c ≠ 'E'

theorem Ends.noDigit {cs : List Char} (h : Ends cs) : NoDigit cs :=
  fun c hc => (h c hc).1

theorem IsDigits.exists_cons {ds : List Char} (h : IsDigits ds) :
    ∃ d ds', ds = d :: ds' ∧ d.isDigit := by
  obtain ⟨d, ds', rfl⟩ := List.exists_cons_of_ne_nil h.1
  exact ⟨d, ds', rfl, h.2 d List.mem_cons_self⟩

theorem isDigits_of_scanDigits {cs ds rest : List Char} (h : scanDigits cs = some (ds, rest)) :
    IsDigits ds ∧ cs = ds ++ rest := by
  simp only [scanDigits, spanDigits, Option.ite_none_left_eq_some, Option.some.injEq,
    Prod.mk.injEq, List.isEmpty_iff] at h
  obtain ⟨hne, rfl, rfl⟩ := h
  exact ⟨⟨hne, List.all_eq_true.1 List.all_takeWhile⟩, List.takeWhile_append_dropWhile.symm⟩

theorem scanDigits_append {ds rest : List Char} (hds : IsDigits ds) (hrest : NoDigit rest) :
    scanDigits (ds ++ rest) = some (ds, rest) := by
  have htake : (ds ++ rest).takeWhile Char.isDigit = ds := by
    rw [List.takeWhile_append_of_pos hds.2]
    cases rest with
    | nil => exact List.append_nil ds
    | cons c rest => simp [hrest c rfl]
  have hdrop : (ds ++ rest).dropWhile Char.isDigit = rest := by
    rw [List.dropWhile_append_of_pos hds.2]
    cases rest with
    | nil => rfl
    | cons c rest => simp [hrest c rfl]
  rw [scanDigits, spanDigits, htake, hdrop, if_neg (mt List.isEmpty_iff.1 hds.1)]

theorem isWhole_of_scanWhole {cs ds rest : List Char} (h : scanWhole cs = some (ds, rest)) :
    IsWhole ds ∧ cs = ds ++ rest := by
  unfold scanWhole at h
  split at h
  · obtain ⟨rfl, rfl⟩ := Prod.mk.inj (Option.some.inj h)
    exact ⟨Or.inl rfl, rfl⟩
  · next hzero =>
    obtain ⟨hds, rfl⟩ := isDigits_of_scanDigits h
    obtain ⟨d, ds', rfl, -⟩ := hds.exists_cons
    refine ⟨Or.inr ⟨hds, fun hd => ?_⟩, rfl⟩
    obtain rfl : d = '0' := Option.some.inj hd
    exact hzero _ rfl

theorem scanWhole_append {ds rest : List Char} (hds : IsWhole ds) (hrest : NoDigit rest) :
    scanWhole (ds ++ rest) = some (ds, rest) := by
  rcases hds with rfl | ⟨hds, hzero⟩
  · rfl
  · unfold scanWhole
    split
    · next tail heq =>
      -- the run of digits does not start with a zero
      obtain ⟨d, ds', rfl, -⟩ := hds.exists_cons
      obtain ⟨rfl, -⟩ := List.cons.inj heq
      exact absurd rfl hzero
    · exact scanDigits_append hds hrest

theorem isFraction_of_scanFraction {cs fs rest : List Char}
    (h : scanFraction cs = some (fs, rest)) : IsFraction fs ∧ cs = fs ++ rest := by
  unfold scanFraction at h
  split at h
  · obtain ⟨⟨ds, r⟩, hds, heq⟩ := Option.map_eq_some_iff.1 h
    obtain ⟨rfl, rfl⟩ := Prod.mk.inj heq
    obtain ⟨hdigits, rfl⟩ := isDigits_of_scanDigits hds
    exact ⟨Or.inr ⟨ds, hdigits, rfl⟩, rfl⟩
  · obtain ⟨rfl, rfl⟩ := Prod.mk.inj (Option.some.inj h)
    exact ⟨Or.inl rfl, rfl⟩

theorem scanFraction_append {fs rest : List Char} (hfs : IsFraction fs) (hrest : NoDigit rest)
    (hpoint : rest.head? ≠ some '.') : scanFraction (fs ++ rest) = some (fs, rest) := by
  rcases hfs with rfl | ⟨ds, hds, rfl⟩
  · unfold scanFraction
    split
    · next tail heq =>
      rw [List.nil_append] at heq
      exact absurd (congrArg List.head? heq) hpoint
    · rfl
  · rw [List.cons_append, scanFraction, scanDigits_append hds hrest]
    rfl

theorem scanSign_append {sign ds rest : List Char} (hsign : sign = [] ∨ sign = ['+'] ∨ sign = ['-'])
    (hds : IsDigits ds) : scanSign (sign ++ (ds ++ rest)) = (sign, ds ++ rest) := by
  rcases hsign with rfl | rfl | rfl
  · obtain ⟨d, ds', rfl, hd⟩ := hds.exists_cons
    rw [List.nil_append, List.cons_append]
    unfold scanSign
    -- a digit is neither of the signs
    split
    · next heq =>
      obtain ⟨rfl, -⟩ := List.cons.inj heq
      exact absurd hd (by decide)
    · next heq =>
      obtain ⟨rfl, -⟩ := List.cons.inj heq
      exact absurd hd (by decide)
    · rfl
  · rfl
  · rfl

theorem sign_of_scanSign {cs sign rest : List Char} (h : scanSign cs = (sign, rest)) :
    (sign = [] ∨ sign = ['+'] ∨ sign = ['-']) ∧ cs = sign ++ rest := by
  unfold scanSign at h
  split at h <;> obtain ⟨rfl, rfl⟩ := Prod.mk.inj h
  · exact ⟨Or.inr (Or.inl rfl), rfl⟩
  · exact ⟨Or.inr (Or.inr rfl), rfl⟩
  · exact ⟨Or.inl rfl, rfl⟩

theorem isExponent_of_scanExponent {cs es rest : List Char}
    (h : scanExponent cs = some (es, rest)) : IsExponent es ∧ cs = es ++ rest := by
  unfold scanExponent at h
  split at h
  · next c tail =>
    split at h
    · next hmark =>
      obtain ⟨sign, after, hscan⟩ : ∃ sign after, scanSign tail = (sign, after) := ⟨_, _, rfl⟩
      rw [hscan] at h
      obtain ⟨⟨ds, r⟩, hds, heq⟩ := Option.map_eq_some_iff.1 h
      obtain ⟨rfl, rfl⟩ := Prod.mk.inj heq
      obtain ⟨hdigits, rfl⟩ := isDigits_of_scanDigits hds
      obtain ⟨hsign, rfl⟩ := sign_of_scanSign hscan
      exact ⟨Or.inr ⟨c, sign, ds, hmark, hsign, hdigits, rfl⟩, by simp⟩
    · obtain ⟨rfl, rfl⟩ := Prod.mk.inj (Option.some.inj h)
      exact ⟨Or.inl rfl, rfl⟩
  · obtain ⟨rfl, rfl⟩ := Prod.mk.inj (Option.some.inj h)
    exact ⟨Or.inl rfl, rfl⟩

theorem scanExponent_append {es rest : List Char} (hes : IsExponent es) (hrest : Ends rest) :
    scanExponent (es ++ rest) = some (es, rest) := by
  rcases hes with rfl | ⟨mark, sign, ds, hmark, hsign, hds, rfl⟩
  · cases rest with
    | nil => rfl
    | cons c rest =>
      obtain ⟨-, -, he, hE⟩ := hrest c rfl
      rw [List.nil_append, scanExponent, if_neg (not_or.2 ⟨he, hE⟩)]
  · rw [List.cons_append, List.append_assoc, scanExponent, if_pos hmark,
      scanSign_append hsign hds]
    simp only [scanDigits_append hds hrest.noDigit, Option.map_some, List.cons_append]

theorem exists_parts_of_scanUnsigned {cs us rest : List Char}
    (h : scanUnsigned cs = some (us, rest)) :
    ∃ whole fraction exponent, IsWhole whole ∧ IsFraction fraction ∧ IsExponent exponent ∧
      us = whole ++ fraction ++ exponent ∧ cs = us ++ rest := by
  simp only [scanUnsigned, Option.bind_eq_bind, Option.bind_eq_some_iff] at h
  obtain ⟨⟨whole, r₁⟩, hw, ⟨fraction, r₂⟩, hf, ⟨exponent, r₃⟩, he, h⟩ := h
  obtain ⟨rfl, rfl⟩ := Prod.mk.inj (Option.some.inj h)
  obtain ⟨hwhole, rfl⟩ := isWhole_of_scanWhole hw
  obtain ⟨hfraction, rfl⟩ := isFraction_of_scanFraction hf
  obtain ⟨hexponent, rfl⟩ := isExponent_of_scanExponent he
  exact ⟨whole, fraction, exponent, hwhole, hfraction, hexponent, rfl, by simp⟩

theorem isNumber_of_scanNumber {cs ns rest : List Char} (h : scanNumber cs = some (ns, rest)) :
    IsNumber ns ∧ cs = ns ++ rest := by
  unfold scanNumber at h
  split at h
  · obtain ⟨⟨us, r⟩, hus, heq⟩ := Option.map_eq_some_iff.1 h
    obtain ⟨rfl, rfl⟩ := Prod.mk.inj heq
    obtain ⟨whole, fraction, exponent, hw, hf, he, rfl, rfl⟩ := exists_parts_of_scanUnsigned hus
    exact ⟨⟨['-'], whole, fraction, exponent, Or.inr rfl, hw, hf, he, rfl⟩, rfl⟩
  · obtain ⟨whole, fraction, exponent, hw, hf, he, rfl, rfl⟩ := exists_parts_of_scanUnsigned h
    exact ⟨⟨[], whole, fraction, exponent, Or.inl rfl, hw, hf, he, rfl⟩, rfl⟩

/-- What follows the digits of a whole number is no digit. -/
theorem noDigit_append {fraction exponent rest : List Char} (hf : IsFraction fraction)
    (he : IsExponent exponent) (hrest : Ends rest) : NoDigit (fraction ++ (exponent ++ rest)) := by
  intro c hc
  rcases hf with rfl | ⟨ds, -, rfl⟩
  · rcases he with rfl | ⟨mark, sign, ds, hmark, -, -, rfl⟩
    · exact hrest.noDigit c hc
    · obtain rfl : mark = c := Option.some.inj hc
      rcases hmark with rfl | rfl <;> decide
  · obtain rfl : '.' = c := Option.some.inj hc
    decide

theorem scanUnsigned_append {whole fraction exponent rest : List Char} (hw : IsWhole whole)
    (hf : IsFraction fraction) (he : IsExponent exponent) (hrest : Ends rest) :
    scanUnsigned (whole ++ fraction ++ exponent ++ rest) =
      some (whole ++ fraction ++ exponent, rest) := by
  have hexponent : NoDigit (exponent ++ rest) := noDigit_append (Or.inl rfl) he hrest
  have hpoint : (exponent ++ rest).head? ≠ some '.' := by
    rcases he with rfl | ⟨mark, sign, ds, hmark, -, -, rfl⟩
    · exact fun hc => (hrest '.' hc).2.1 rfl
    · rcases hmark with rfl | rfl <;> exact fun hc => absurd (Option.some.inj hc) (by decide)
  have hwhole := scanWhole_append hw (noDigit_append hf he hrest)
  have hfraction := scanFraction_append hf hexponent hpoint
  rw [List.append_assoc, List.append_assoc, scanUnsigned, hwhole]
  simp [hfraction, scanExponent_append he hrest]

/-- The first character of a whole number is a digit. -/
theorem IsWhole.exists_cons {cs : List Char} (h : IsWhole cs) :
    ∃ d ds, cs = d :: ds ∧ d.isDigit := by
  rcases h with rfl | ⟨h, -⟩
  · exact ⟨'0', [], rfl, rfl⟩
  · exact h.exists_cons

theorem scanNumber_append {ns rest : List Char} (hns : IsNumber ns) (hrest : Ends rest) :
    scanNumber (ns ++ rest) = some (ns, rest) := by
  obtain ⟨sign, whole, fraction, exponent, hsign, hw, hf, he, rfl⟩ := hns
  have hunsigned := scanUnsigned_append hw hf he hrest
  rcases hsign with rfl | rfl
  · rw [List.nil_append]
    unfold scanNumber
    split
    · next heq =>
      obtain ⟨d, ds, rfl, hd⟩ := hw.exists_cons
      obtain ⟨rfl, -⟩ := List.cons.inj heq
      exact absurd hd (by decide)
    · exact hunsigned
  · rw [List.cons_append, List.cons_append, List.nil_append, scanNumber, hunsigned]
    rfl

theorem IsNumber.exists_cons {ns : List Char} (h : IsNumber ns) :
    ∃ c cs, ns = c :: cs ∧ (c = '-' ∨ c.isDigit) := by
  obtain ⟨sign, whole, fraction, exponent, hsign, hw, -, -, rfl⟩ := h
  rcases hsign with rfl | rfl
  · obtain ⟨d, ds, rfl, hd⟩ := hw.exists_cons
    exact ⟨d, _, rfl, Or.inr hd⟩
  · exact ⟨'-', _, rfl, Or.inl rfl⟩

/-! ### Strings -/

/-- A piece of a string spells a code point: a character that needs no escape, an escape by a
letter, or an escape by four hexadecimal digits. -/
inductive SpellsPoint : Nat → List Char → Prop where
  | plain {c : Char} (hquote : c ≠ '"') (hslash : c ≠ '\\') (hcontrol : 0x20 ≤ c.toNat) :
    SpellsPoint c.toNat [c]
  | letter {l c : Char} (h : escaped? l = some c) : SpellsPoint c.toNat ['\\', l]
  | digits {a b c d : Char} {n : Nat} (h : codeUnit? a b c d = some n) :
    SpellsPoint n ['\\', 'u', a, b, c, d]

/-- The inside of a string spells its code points. -/
inductive SpellsPoints : List Nat → List Char → Prop where
  | nil : SpellsPoints [] []
  | cons {n : Nat} {ns : List Nat} {cs ds : List Char} (head : SpellsPoint n cs)
    (tail : SpellsPoints ns ds) : SpellsPoints (n :: ns) (cs ++ ds)

/-- The code points denote the characters: each stands for itself, and two surrogates in a pair for
one character. -/
inductive Decodes : List Nat → List Char → Prop where
  | nil : Decodes [] []
  | single {n : Nat} {ns : List Nat} {cs : List Char} (hhigh : ¬ IsHighSurrogate n)
    (hlow : ¬ IsLowSurrogate n) (tail : Decodes ns cs) : Decodes (n :: ns) (Char.ofNat n :: cs)
  | pair {m n : Nat} {ns : List Nat} {cs : List Char} (hhigh : IsHighSurrogate m)
    (hlow : IsLowSurrogate n) (tail : Decodes ns cs) :
    Decodes (m :: n :: ns) (Char.ofNat (0x10000 + (m - 0xD800) * 0x400 + (n - 0xDC00)) :: cs)

theorem joinSurrogates_eq_some_iff {ns : List Nat} {cs : List Char} :
    joinSurrogates ns = some cs ↔ Decodes ns cs := by
  constructor
  · intro h
    fun_induction joinSurrogates ns generalizing cs with
    | case1 =>
      obtain rfl := Option.some.inj h
      exact .nil
    | case2 n hn => exact absurd h nofun
    | case3 n hn =>
      obtain rfl := Option.some.inj h
      rw [not_or] at hn
      exact .single hn.1 hn.2 .nil
    | case4 m n rest hhigh hlow ih =>
      obtain ⟨ds, hds, rfl⟩ := Option.map_eq_some_iff.1 h
      exact .pair hhigh hlow (ih hds)
    | case5 m n rest hhigh hlow => exact absurd h nofun
    | case6 m n rest hhigh hlow => exact absurd h nofun
    | case7 m n rest hhigh hlow ih =>
      obtain ⟨ds, hds, rfl⟩ := Option.map_eq_some_iff.1 h
      exact .single hhigh hlow (ih hds)
  · intro h
    induction h with
    | nil => rfl
    | single hhigh hlow tail ih =>
      cases tail <;> simp_all [joinSurrogates]
    | pair hhigh hlow tail ih => simp [joinSurrogates, hhigh, hlow, ih]

theorem textOf?_eq_some_iff {ns : List Nat} {text : String} :
    textOf? ns = some text ↔ Decodes ns text.toList := by
  rw [textOf?, Option.map_eq_some_iff, ← joinSurrogates_eq_some_iff]
  constructor
  · rintro ⟨cs, hcs, rfl⟩
    rw [hcs, String.toList_ofList]
  · exact fun h => ⟨_, h, String.ofList_toList⟩

theorem spellsPoints_of_scanString {cs rest : List Char} {ns : List Nat}
    (h : scanString cs = some (ns, rest)) :
    ∃ inside, SpellsPoints ns inside ∧ cs = inside ++ '"' :: rest := by
  fun_induction scanString cs generalizing ns rest with
  | case1 => cases h
  | case2 tail =>
    obtain ⟨rfl, rfl⟩ := Prod.mk.inj (Option.some.inj h)
    exact ⟨[], .nil, rfl⟩
  | case3 a b c d tail ih =>
    simp only [Option.bind_eq_bind, Option.bind_eq_some_iff] at h
    obtain ⟨unit, hunit, ⟨units, r⟩, hr, h⟩ := h
    obtain ⟨rfl, rfl⟩ := Prod.mk.inj (Option.some.inj h)
    obtain ⟨inside, hinside, rfl⟩ := ih hr
    exact ⟨_, .cons (.digits hunit) hinside, rfl⟩
  | case4 letter tail _ ih =>
    simp only [Option.bind_eq_bind, Option.bind_eq_some_iff] at h
    obtain ⟨ch, hch, ⟨units, r⟩, hr, h⟩ := h
    obtain ⟨rfl, rfl⟩ := Prod.mk.inj (Option.some.inj h)
    obtain ⟨inside, hinside, rfl⟩ := ih hr
    exact ⟨_, .cons (.letter hch) hinside, rfl⟩
  | case5 => cases h
  | case6 c tail hquote _ _ hplain ih =>
    simp only [Option.bind_eq_bind, Option.bind_eq_some_iff] at h
    obtain ⟨⟨units, r⟩, hr, h⟩ := h
    obtain ⟨rfl, rfl⟩ := Prod.mk.inj (Option.some.inj h)
    obtain ⟨inside, hinside, rfl⟩ := ih hr
    rw [not_or, Nat.not_lt] at hplain
    exact ⟨_, .cons (.plain hquote hplain.1 hplain.2) hinside, rfl⟩

/-- A piece of a string is read as its code point. -/
theorem SpellsPoint.scanString {n : Nat} {piece : List Char} (h : SpellsPoint n piece)
    (cs : List Char) :
    Token.scanString (piece ++ cs) = (Token.scanString cs).map fun r => (n :: r.1, r.2) := by
  cases h with
  | @plain c hquote hslash hcontrol =>
    have hplain : ¬ (c = '\\' ∨ c.toNat < 0x20) := not_or.2 ⟨hslash, Nat.not_lt.2 hcontrol⟩
    rw [List.singleton_append, Token.scanString, if_neg hplain]
    · cases Token.scanString cs <;> rfl
    · exact hquote
    · exact fun _ _ _ _ _ heq _ => hslash heq
    · exact fun _ _ heq _ => hslash heq
  | @letter l c h =>
    have hu : l ≠ 'u' := by
      rintro rfl
      exact absurd h nofun
    rw [List.cons_append, List.singleton_append, Token.scanString, h]
    · cases Token.scanString cs <;> rfl
    · exact fun _ _ _ _ _ heq _ => hu heq
  | digits h =>
    rw [List.cons_append, List.cons_append, List.cons_append, List.cons_append, List.cons_append,
      List.singleton_append, Token.scanString, h]
    cases Token.scanString cs <;> rfl

theorem scanString_append {ns : List Nat} {inside : List Char} (h : SpellsPoints ns inside)
    (rest : List Char) : scanString (inside ++ '"' :: rest) = some (ns, rest) := by
  induction h with
  | nil => rfl
  | cons head tail ih => rw [List.append_assoc, head.scanString, ih, Option.map_some]

/-! ### Lexemes -/

/-- Is the token a value? -/
def isScalar : Token → Bool
  | scalar _ => true
  | _ => false

/-- The characters are a lexeme of the token. -/
inductive Lexeme : Token → List Char → Prop where
  | leftBrace : Lexeme .leftBrace ['\x7b']
  | rightBrace : Lexeme .rightBrace ['\x7d']
  | leftBracket : Lexeme .leftBracket ['[']
  | rightBracket : Lexeme .rightBracket [']']
  | comma : Lexeme .comma [',']
  | colon : Lexeme .colon [':']
  | null : Lexeme (.scalar .null) ['n', 'u', 'l', 'l']
  | boolTrue : Lexeme (.scalar (.bool true)) ['t', 'r', 'u', 'e']
  | boolFalse : Lexeme (.scalar (.bool false)) ['f', 'a', 'l', 's', 'e']
  /-- A number keeps its spelling. -/
  | number {cs : List Char} (h : IsNumber cs) :
    Lexeme (.scalar (.number (String.ofList cs))) cs
  /-- A string has the text that its code points denote, if they denote one. -/
  | string {ns : List Nat} {cs : List Char} {text? : Option String} (h : SpellsPoints ns cs)
    (htext : ∀ text, text? = some text ↔ Decodes ns text.toList) :
    Lexeme (.scalar (.string text?)) ('"' :: (cs ++ ['"']))

theorem exists_lexeme_of_next? {cs rest : List Char} {t : Token} (h : next? cs = some (t, rest)) :
    ∃ lexeme, Lexeme t lexeme ∧ cs = lexeme ++ rest := by
  unfold next? at h
  split at h
  case h_10 =>
    obtain ⟨⟨ns, r⟩, hns, heq⟩ := Option.map_eq_some_iff.1 h
    obtain ⟨rfl, rfl⟩ := Prod.mk.inj heq
    obtain ⟨inside, hinside, rfl⟩ := spellsPoints_of_scanString hns
    exact ⟨_, .string hinside fun _ => textOf?_eq_some_iff, by simp⟩
  case h_11 =>
    obtain ⟨⟨ns, r⟩, hns, heq⟩ := Option.map_eq_some_iff.1 h
    obtain ⟨rfl, rfl⟩ := Prod.mk.inj heq
    obtain ⟨hnumber, rfl⟩ := isNumber_of_scanNumber hns
    exact ⟨ns, .number hnumber, rfl⟩
  all_goals obtain ⟨rfl, rfl⟩ := Prod.mk.inj (Option.some.inj h)
  · exact ⟨_, .leftBrace, rfl⟩
  · exact ⟨_, .rightBrace, rfl⟩
  · exact ⟨_, .leftBracket, rfl⟩
  · exact ⟨_, .rightBracket, rfl⟩
  · exact ⟨_, .comma, rfl⟩
  · exact ⟨_, .colon, rfl⟩
  · exact ⟨_, .null, rfl⟩
  · exact ⟨_, .boolTrue, rfl⟩
  · exact ⟨_, .boolFalse, rfl⟩

/-- No other token begins like a number. -/
theorem next?_of_isNumber {ns : List Char} (h : IsNumber ns) (rest : List Char) :
    next? (ns ++ rest) = (scanNumber (ns ++ rest)).map fun (literal, rest) =>
      (.scalar (.number (String.ofList literal)), rest) := by
  obtain ⟨c, cs, rfl, hc⟩ := h.exists_cons
  rw [List.cons_append]
  unfold next?
  split
  case h_11 => rfl
  all_goals
    next heq =>
    obtain ⟨rfl, -⟩ := List.cons.inj heq
    exact absurd hc (by decide)

/-- A lexeme is read as its token. Behind a value the text must not go on like a number. -/
theorem Lexeme.next? {t : Token} {cs rest : List Char} (h : Lexeme t cs)
    (hrest : t.isScalar → Ends rest) : Token.next? (cs ++ rest) = some (t, rest) := by
  cases h with
  | number h =>
    rw [next?_of_isNumber h, scanNumber_append h (hrest rfl)]
    rfl
  | @string ns cs text? h htext =>
    obtain rfl : textOf? ns = text? := by
      ext text
      rw [htext, textOf?_eq_some_iff]
    rw [List.cons_append, List.append_assoc, List.singleton_append, Token.next?,
      scanString_append h]
    rfl
  | _ => rfl

/-- A lexeme does not begin with a space. -/
theorem Lexeme.exists_cons {t : Token} {cs : List Char} (h : Lexeme t cs) :
    ∃ c cs', cs = c :: cs' ∧ ¬ IsSpace c := by
  cases h with
  | number h =>
    obtain ⟨c, cs', rfl, hc⟩ := h.exists_cons
    refine ⟨c, cs', rfl, ?_⟩
    rintro (rfl | rfl | rfl | rfl) <;> exact absurd hc (by decide)
  | _ => exact ⟨_, _, rfl, by decide⟩

/-- The lexeme of a mark ends a number. -/
theorem Lexeme.ends {t : Token} {cs : List Char} (h : Lexeme t cs) (ht : t.isScalar = false)
    (rest : List Char) : Ends (cs ++ rest) := by
  intro c hc
  cases h with
  | null | boolTrue | boolFalse | number | string => exact Bool.noConfusion ht
  | _ =>
    obtain rfl := Option.some.inj hc
    decide

/-! ### Texts -/

/-- The text **spells** the tokens: it is made of their lexemes, with any spaces around each. -/
inductive Spells : List Token → List Char → Prop where
  | nil {spaces : List Char} (hspaces : ∀ c ∈ spaces, IsSpace c) : Spells [] spaces
  | cons {spaces lexeme cs : List Char} {t : Token} {ts : List Token}
    (hspaces : ∀ c ∈ spaces, IsSpace c) (head : Lexeme t lexeme) (tail : Spells ts cs) :
    Spells (t :: ts) (spaces ++ (lexeme ++ cs))

/-- Every token that a text spells has a lexeme. -/
theorem Spells.exists_lexeme {ts : List Token} {cs : List Char} (h : Spells ts cs) :
    ∀ t ∈ ts, ∃ lexeme, Lexeme t lexeme := by
  induction h with
  | nil hspaces => exact nofun
  | cons hspaces head tail ih => exact List.forall_mem_cons.2 ⟨⟨_, head⟩, ih⟩

theorem ends_cons_of_isSpace {c : Char} (h : IsSpace c) (cs : List Char) : Ends (c :: cs) := by
  intro d hd
  obtain rfl := Option.some.inj hd
  rcases h with rfl | rfl | rfl | rfl <;> decide

/-- A text that begins with no value ends a number. -/
theorem Spells.ends {ts : List Token} {cs : List Char} (h : Spells ts cs)
    (hts : ∀ t ∈ ts.head?, t.isScalar = false) : Ends cs := by
  cases h with
  | nil hspaces =>
    cases cs with
    | nil => exact fun c hc => absurd hc nofun
    | cons c cs => exact ends_cons_of_isSpace (hspaces c List.mem_cons_self) cs
  | @cons spaces lexeme cs t ts hspaces head tail =>
    cases spaces with
    | nil => exact head.ends (hts t rfl) cs
    | cons c spaces => exact ends_cons_of_isSpace (hspaces c List.mem_cons_self) _

theorem scan_spaces_append {spaces : List Char} (h : ∀ c ∈ spaces, IsSpace c) (cs : List Char) :
    scan (spaces ++ cs) = scan cs := by
  induction spaces with
  | nil => rfl
  | cons c spaces ih =>
    rw [List.cons_append, scan, if_pos (h c List.mem_cons_self)]
    exact ih fun d hd => h d (List.mem_cons_of_mem c hd)

theorem scan_lexeme_append {t : Token} {lexeme rest : List Char} (h : Lexeme t lexeme)
    (hrest : t.isScalar → Ends rest) : scan (lexeme ++ rest) = (scan rest).map (t :: ·) := by
  have hnext := h.next? hrest
  obtain ⟨c, cs, rfl, hc⟩ := h.exists_cons
  rw [List.cons_append] at hnext ⊢
  rw [scan, if_neg hc]
  split
  · next heq => exact absurd (hnext.symm.trans heq) (Option.some_ne_none _)
  · next t' after heq =>
    obtain ⟨rfl, rfl⟩ := Prod.mk.inj (Option.some.inj (hnext.symm.trans heq))
    rfl

/-- **Completeness of scanning**: a text that spells tokens, of which no two values are next to each
other, is scanned into these tokens. -/
theorem scan_of_spells {ts : List Token} {cs : List Char} (h : Spells ts cs)
    (hts : ts.IsChain fun t u => ¬ (t.isScalar ∧ u.isScalar)) : scan cs = some ts := by
  induction h with
  | @nil spaces hspaces =>
    have := scan_spaces_append hspaces []
    rwa [List.append_nil, scan] at this
  | @cons spaces lexeme cs t ts hspaces head tail ih =>
    have hrest : t.isScalar → Ends cs := by
      intro ht
      refine tail.ends fun u hu => ?_
      obtain ⟨us, rfl⟩ := List.head?_eq_some_iff.1 hu
      exact Bool.eq_false_iff.2 fun hu => (List.isChain_cons_cons.1 hts).1 ⟨ht, hu⟩
    rw [scan_spaces_append hspaces, scan_lexeme_append head hrest, ih hts.tail]
    rfl

theorem Spells.space_cons {ts : List Token} {cs : List Char} {c : Char} (h : Spells ts cs)
    (hc : IsSpace c) : Spells ts (c :: cs) := by
  cases h with
  | nil hspaces => exact .nil (List.forall_mem_cons.2 ⟨hc, hspaces⟩)
  | @cons spaces lexeme cs t ts hspaces head tail =>
    have hspaces' : ∀ d ∈ c :: spaces, IsSpace d := List.forall_mem_cons.2 ⟨hc, hspaces⟩
    exact .cons hspaces' head tail

/-- **Soundness of scanning**: a text spells the tokens that it is scanned into. -/
theorem spells_of_scan {ts : List Token} {cs : List Char} (h : scan cs = some ts) :
    Spells ts cs := by
  fun_induction scan cs generalizing ts with
  | case1 =>
    obtain rfl := Option.some.inj h
    exact .nil nofun
  | case2 c rest hspace ih => exact (ih h).space_cons hspace
  | case3 c rest hspace hnone => exact absurd h nofun
  | case4 c rest hspace t after hnext _ ih =>
    obtain ⟨us, hus, rfl⟩ := Option.map_eq_some_iff.1 h
    obtain ⟨lexeme, hlexeme, heq⟩ := exists_lexeme_of_next? hnext
    rw [heq]
    exact .cons (List.forall_mem_nil IsSpace) hlexeme (ih hus)

end Token

end JsxHoist
