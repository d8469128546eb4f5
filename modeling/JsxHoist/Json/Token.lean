/-!
# JSON values and tokens

The values that an options text can denote, and the tokens that it is made of. Two points of a value
follow the text closely: a number is kept as it is written, since no option is a number, and a
string whose escapes leave a surrogate unpaired denotes no text.

`Token.scan` splits a text into the tokens of strict JSON: six punctuation marks, three words,
numbers and strings, with spaces, tabs and line ends between them. The scanner of a token takes the
characters from the token's first one on and returns what is left, which is always shorter, so that
`Token.scan` ends.

* `scanString` reads up to the closing quote and yields code points, where an escape may yield a
  surrogate; `joinSurrogates` turns them into characters.
* `scanNumber` reads the longest number.
-/

namespace JsxHoist

/-- A JSON value. Members of an object keep their order and may repeat a key. -/
inductive Json where
  | null
  | bool (b : Bool)
  | number (literal : String)
  /-- A string, or `none` if an escape in it is an unpaired surrogate. -/
  | string (text : Option String)
  | array (items : List Json)
  | object (members : List (Option String × Json))
deriving Inhabited

/-- A token: punctuation, or a value that holds no other. -/
inductive Token where
  | leftBrace
  | rightBrace
  | leftBracket
  | rightBracket
  | comma
  | colon
  | scalar (value : Json)
deriving Inhabited

namespace Token

/-! ### Strings -/

/-- The value of a hexadecimal digit. -/
def hexDigit? (c : Char) : Option Nat :=
  if '0' ≤ c ∧ c ≤ '9' then some (c.toNat - '0'.toNat)
  else if 'a' ≤ c ∧ c ≤ 'f' then some (c.toNat - 'a'.toNat + 10)
  else if 'A' ≤ c ∧ c ≤ 'F' then some (c.toNat - 'A'.toNat + 10)
  else none

/-- The code unit that four hexadecimal digits denote. -/
def codeUnit? (a b c d : Char) : Option Nat := do
  let a ← hexDigit? a
  let b ← hexDigit? b
  let c ← hexDigit? c
  let d ← hexDigit? d
  return a * 0x1000 + b * 0x100 + c * 0x10 + d

/-- The character that an escape letter stands for. -/
def escaped? : Char → Option Char
  | '"' => some '"'
  | '\\' => some '\\'
  | '/' => some '/'
  | 'b' => some '\x08'
  | 'f' => some '\x0c'
  | 'n' => some '\n'
  | 'r' => some '\r'
  | 't' => some '\t'
  | _ => none

/-- Reads the rest of a string after its opening quote: the code points of its content and what
follows the closing quote. A control character may only be written as an escape. -/
def scanString : List Char → Option (List Nat × List Char)
  | [] => none
  | '"' :: rest => some ([], rest)
  | '\\' :: 'u' :: a :: b :: c :: d :: rest => do
    let unit ← codeUnit? a b c d
    let (units, rest) ← scanString rest
    return (unit :: units, rest)
  | '\\' :: letter :: rest => do
    let ch ← escaped? letter
    let (units, rest) ← scanString rest
    return (ch.toNat :: units, rest)
  | c :: rest =>
    if c = '\\' ∨ c.toNat < 0x20 then none
    else do
      let (units, rest) ← scanString rest
      return (c.toNat :: units, rest)

/-- Is the code point the first half of a surrogate pair? -/
def IsHighSurrogate (n : Nat) : Prop := 0xD800 ≤ n ∧ n < 0xDC00

instance (n : Nat) : Decidable (IsHighSurrogate n) := inferInstanceAs (Decidable (_ ∧ _))

/-- Is the code point the second half of a surrogate pair? -/
def IsLowSurrogate (n : Nat) : Prop := 0xDC00 ≤ n ∧ n < 0xE000

instance (n : Nat) : Decidable (IsLowSurrogate n) := inferInstanceAs (Decidable (_ ∧ _))

/-- Joins each surrogate pair into the character it stands for; fails on a surrogate that is not
part of a pair. -/
def joinSurrogates : List Nat → Option (List Char)
  | [] => some []
  | [n] => if IsHighSurrogate n ∨ IsLowSurrogate n then none else some [Char.ofNat n]
  | m :: n :: rest =>
    if IsHighSurrogate m then
      if IsLowSurrogate n then
        (joinSurrogates rest).map (Char.ofNat (0x10000 + (m - 0xD800) * 0x400 + (n - 0xDC00)) :: ·)
      else none
    else if IsLowSurrogate m then none
    else (joinSurrogates (n :: rest)).map (Char.ofNat m :: ·)

/-- The text that a string's code points denote, if any. -/
def textOf? (units : List Nat) : Option String :=
  (joinSurrogates units).map String.ofList

/-! ### Numbers -/

/-- Splits off the longest run of digits. -/
def spanDigits (cs : List Char) : List Char × List Char :=
  (cs.takeWhile Char.isDigit, cs.dropWhile Char.isDigit)

/-- A nonempty run of digits and the rest. -/
def scanDigits (cs : List Char) : Option (List Char × List Char) :=
  if (spanDigits cs).1.isEmpty then none else some (spanDigits cs)

/-- The digits before the point: a single `0`, or a run that starts with another digit. -/
def scanWhole : List Char → Option (List Char × List Char)
  | '0' :: rest => some (['0'], rest)
  | cs => scanDigits cs

/-- The fraction, if a point follows: the point needs a digit after it. -/
def scanFraction : List Char → Option (List Char × List Char)
  | '.' :: rest => (scanDigits rest).map fun (ds, rest) => ('.' :: ds, rest)
  | cs => some ([], cs)

/-- A sign, if one follows. -/
def scanSign : List Char → List Char × List Char
  | '+' :: rest => (['+'], rest)
  | '-' :: rest => (['-'], rest)
  | cs => ([], cs)

/-- The exponent, if its mark follows: the mark and the sign need a digit after them. -/
def scanExponent : List Char → Option (List Char × List Char)
  | c :: rest =>
    if c = 'e' ∨ c = 'E' then
      let (sign, rest) := scanSign rest
      (scanDigits rest).map fun (ds, rest) => (c :: sign ++ ds, rest)
    else some ([], c :: rest)
  | [] => some ([], [])

/-- Reads a number without its leading minus sign. -/
def scanUnsigned (cs : List Char) : Option (List Char × List Char) := do
  let (whole, cs) ← scanWhole cs
  let (fraction, cs) ← scanFraction cs
  let (exponent, cs) ← scanExponent cs
  return (whole ++ fraction ++ exponent, cs)

/-- Reads a number. -/
def scanNumber : List Char → Option (List Char × List Char)
  | '-' :: rest => (scanUnsigned rest).map fun (cs, rest) => ('-' :: cs, rest)
  | cs => scanUnsigned cs

/-! ### Every scanner returns a shorter rest -/

theorem length_scanString_lt {cs rest : List Char} {units : List Nat}
    (h : scanString cs = some (units, rest)) : rest.length < cs.length := by
  fun_induction scanString cs generalizing units rest with
  | case1 => simp at h
  | case2 => simp_all
  | case3 a b c d tail ih =>
    simp only [Option.bind_eq_bind, Option.bind_eq_some_iff] at h
    obtain ⟨_, _, ⟨us, r⟩, hr, h⟩ := h
    have := ih hr
    simp_all only [Option.pure_def, Option.some.injEq, Prod.mk.injEq, List.length_cons]
    omega
  | case4 letter tail _ ih =>
    simp only [Option.bind_eq_bind, Option.bind_eq_some_iff] at h
    obtain ⟨_, _, ⟨us, r⟩, hr, h⟩ := h
    have := ih hr
    simp_all only [Option.pure_def, Option.some.injEq, Prod.mk.injEq, List.length_cons]
    omega
  | case5 => simp at h
  | case6 c tail _ _ _ _ ih =>
    simp only [Option.bind_eq_bind, Option.bind_eq_some_iff] at h
    obtain ⟨⟨us, r⟩, hr, h⟩ := h
    have := ih hr
    simp_all only [Option.pure_def, Option.some.injEq, Prod.mk.injEq, List.length_cons]
    omega

theorem length_scanDigits_lt {cs ds rest : List Char} (h : scanDigits cs = some (ds, rest)) :
    rest.length < cs.length := by
  simp only [scanDigits, spanDigits, Option.ite_none_left_eq_some, Option.some.injEq,
    Prod.mk.injEq, List.isEmpty_iff] at h
  obtain ⟨hne, -, rfl⟩ := h
  have hlen := congrArg List.length (List.takeWhile_append_dropWhile (p := Char.isDigit) (l := cs))
  have := List.length_pos_iff.2 hne
  rw [List.length_append] at hlen
  omega

theorem length_scanWhole_lt {cs ds rest : List Char} (h : scanWhole cs = some (ds, rest)) :
    rest.length < cs.length := by
  unfold scanWhole at h
  split at h
  · simp_all
  · exact length_scanDigits_lt h

theorem length_scanFraction_le {cs ds rest : List Char} (h : scanFraction cs = some (ds, rest)) :
    rest.length ≤ cs.length := by
  unfold scanFraction at h
  split at h
  · simp only [Option.map_eq_some_iff, Prod.mk.injEq] at h
    obtain ⟨⟨_, _⟩, hd, -, rfl⟩ := h
    have := length_scanDigits_lt hd
    simp only [List.length_cons]
    omega
  · simp_all

theorem length_scanSign_le (cs : List Char) : (scanSign cs).2.length ≤ cs.length := by
  unfold scanSign
  split <;> simp

theorem length_scanExponent_le {cs ds rest : List Char} (h : scanExponent cs = some (ds, rest)) :
    rest.length ≤ cs.length := by
  unfold scanExponent at h
  split at h
  · next c tail =>
    split at h
    · simp only [Option.map_eq_some_iff, Prod.mk.injEq] at h
      obtain ⟨⟨_, _⟩, hd, -, rfl⟩ := h
      have := length_scanDigits_lt hd
      have := length_scanSign_le tail
      simp only [List.length_cons]
      omega
    · simp_all
  · simp_all

theorem length_scanUnsigned_lt {cs ds rest : List Char} (h : scanUnsigned cs = some (ds, rest)) :
    rest.length < cs.length := by
  simp only [scanUnsigned, Option.bind_eq_bind, Option.bind_eq_some_iff] at h
  obtain ⟨⟨_, _⟩, hw, ⟨_, _⟩, hf, ⟨_, _⟩, he, h⟩ := h
  have := length_scanWhole_lt hw
  have := length_scanFraction_le hf
  have := length_scanExponent_le he
  simp_all only [Option.pure_def, Option.some.injEq, Prod.mk.injEq]
  omega

theorem length_scanNumber_lt {cs ds rest : List Char} (h : scanNumber cs = some (ds, rest)) :
    rest.length < cs.length := by
  unfold scanNumber at h
  split at h
  · simp only [Option.map_eq_some_iff, Prod.mk.injEq] at h
    obtain ⟨⟨_, _⟩, hu, -, rfl⟩ := h
    have := length_scanUnsigned_lt hu
    simp only [List.length_cons]
    omega
  · exact length_scanUnsigned_lt h

/-! ### Texts -/

/-- May the character stand between tokens? -/
def IsSpace (c : Char) : Prop := c = ' ' ∨ c = '\t' ∨ c = '\n' ∨ c = '\r'

instance (c : Char) : Decidable (IsSpace c) := inferInstanceAs (Decidable (_ ∨ _))

/-- The first token of a text that starts with one, and what follows it. -/
def next? : List Char → Option (Token × List Char)
  | '\x7b' :: rest => some (.leftBrace, rest)
  | '\x7d' :: rest => some (.rightBrace, rest)
  | '[' :: rest => some (.leftBracket, rest)
  | ']' :: rest => some (.rightBracket, rest)
  | ',' :: rest => some (.comma, rest)
  | ':' :: rest => some (.colon, rest)
  | 'n' :: 'u' :: 'l' :: 'l' :: rest => some (.scalar .null, rest)
  | 't' :: 'r' :: 'u' :: 'e' :: rest => some (.scalar (.bool true), rest)
  | 'f' :: 'a' :: 'l' :: 's' :: 'e' :: rest => some (.scalar (.bool false), rest)
  | '"' :: rest =>
    (scanString rest).map fun (units, rest) => (.scalar (.string (textOf? units)), rest)
  | cs =>
    (scanNumber cs).map fun (literal, rest) => (.scalar (.number (String.ofList literal)), rest)

theorem length_next?_lt {cs rest : List Char} {t : Token} (h : next? cs = some (t, rest)) :
    rest.length < cs.length := by
  unfold next? at h
  split at h
  case h_10 =>
    simp only [Option.map_eq_some_iff, Prod.mk.injEq] at h
    obtain ⟨⟨_, _⟩, hs, -, rfl⟩ := h
    have := length_scanString_lt hs
    simp only [List.length_cons]
    omega
  case h_11 =>
    simp only [Option.map_eq_some_iff, Prod.mk.injEq] at h
    obtain ⟨⟨_, _⟩, hn, -, rfl⟩ := h
    exact length_scanNumber_lt hn
  all_goals
    simp only [Option.some.injEq, Prod.mk.injEq] at h
    simp only [← h.2, List.length_cons]
    omega

/-- The tokens of a text; `none` if some part of it is no token. -/
def scan (cs : List Char) : Option (List Token) :=
  match cs with
  | [] => some []
  | c :: rest =>
    if IsSpace c then scan rest
    else
      match h : next? (c :: rest) with
      | none => none
      | some (t, after) =>
        have := length_next?_lt h
        (scan after).map (t :: ·)
termination_by cs.length
decreasing_by
  · exact Nat.lt_succ_self _
  · exact this

end Token

end JsxHoist
