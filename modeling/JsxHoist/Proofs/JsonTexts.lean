import JsxHoist.Json.Reader
import JsxHoist.Proofs.JsonTokens

/-!
# JSON texts

A text **writes** a JSON value (`Json.Writes`) when it spells the tokens of the value: a scalar is a
single token, the items of an array stand in brackets and the members of an object in braces, with
commas between them (`Json.tokens`). Reading a text gives a value if and only if the text writes it
(`Json.ofText?_eq_some_iff`), so that no text writes two values, and spaces between tokens make no
difference.

The reader runs a machine over the tokens, with a frame for each array and object that is open.

* From the start of a value the machine comes to its end with all frames as they were
  (`Json.foldlM_tokens`).
* Whatever state the machine is in, it has read the tokens that the state stands for
  (`Json.Progress.tokens`): a step adds the token that it reads (`Json.Progress.tokens_step`), and a
  run all of them (`Json.Progress.tokens_foldlM`).
-/

namespace JsxHoist

namespace Json

/-! ### The tokens of a value -/

mutual

/-- The tokens of a value. -/
def tokens : Json → List Token
  | array items => .leftBracket :: (tokensOfItems items ++ [.rightBracket])
  | object members => .leftBrace :: (tokensOfMembers members ++ [.rightBrace])
  | v => [.scalar v]

/-- The tokens of the items of an array. -/
def tokensOfItems : List Json → List Token
  | [] => []
  | [v] => v.tokens
  | v :: w :: vs => v.tokens ++ .comma :: tokensOfItems (w :: vs)

/-- The tokens of the members of an object. -/
def tokensOfMembers : List (Option String × Json) → List Token
  | [] => []
  | [(key, v)] => .scalar (.string key) :: .colon :: v.tokens
  | (key, v) :: m :: ms =>
    .scalar (.string key) :: .colon :: (v.tokens ++ .comma :: tokensOfMembers (m :: ms))

end

/-- The text **writes** the value: it spells its tokens, with any spaces around them. -/
def Writes (text : String) (v : Json) : Prop :=
  Token.Spells v.tokens text.toList

/-- The items of an array that goes on: a comma stands behind each. -/
def tokensOfItemsBefore (items : List Json) : List Token :=
  items.flatMap fun v => v.tokens ++ [.comma]

/-- The members of an object that goes on: a comma stands behind each. -/
def tokensOfMembersBefore (members : List (Option String × Json)) : List Token :=
  members.flatMap fun m => .scalar (.string m.1) :: .colon :: (m.2.tokens ++ [.comma])

theorem tokensOfItems_concat (items : List Json) (v : Json) :
    tokensOfItems (items ++ [v]) = tokensOfItemsBefore items ++ v.tokens := by
  induction items with
  | nil => rfl
  | cons w items ih =>
    have hcons : tokensOfItems (w :: (items ++ [v])) =
        w.tokens ++ .comma :: tokensOfItems (items ++ [v]) := by
      cases items <;> rfl
    rw [List.cons_append, hcons, ih]
    simp [tokensOfItemsBefore]

theorem tokensOfMembers_concat (members : List (Option String × Json)) (key : Option String)
    (v : Json) :
    tokensOfMembers (members ++ [(key, v)]) =
      tokensOfMembersBefore members ++ .scalar (.string key) :: .colon :: v.tokens := by
  induction members with
  | nil => rfl
  | cons m members ih =>
    have hcons : tokensOfMembers (m :: (members ++ [(key, v)])) =
        .scalar (.string m.1) :: .colon ::
          (m.2.tokens ++ .comma :: tokensOfMembers (members ++ [(key, v)])) := by
      cases members <;> rfl
    rw [List.cons_append, hcons, ih]
    simp [tokensOfMembersBefore]

/-! ### From the tokens of a value to its end -/

open Progress

/-- At the start of an array that is not empty, the machine reads a value. -/
theorem foldlM_item {items : List Json} (h : items ≠ []) (frames : List Frame) (ts : List Token) :
    (tokensOfItems items ++ ts).foldlM step (item frames) =
      (tokensOfItems items ++ ts).foldlM step (value (.array [] :: frames)) := by
  match items with
  | [v] => cases v <;> rfl
  | v :: w :: items => cases v <;> rfl

/-- At the start of an object that is not empty, the machine reads a key. -/
theorem foldlM_member {members : List (Option String × Json)} (h : members ≠ [])
    (frames : List Frame) (ts : List Token) :
    (tokensOfMembers members ++ ts).foldlM step (member frames) =
      (tokensOfMembers members ++ ts).foldlM step (nextKey [] frames) := by
  match members with
  | [m] => rfl
  | m :: m' :: members => rfl

mutual

/-- **Reading the tokens of a value** leads from its start to its end. -/
theorem foldlM_tokens :
    ∀ (v : Json) (frames : List Frame),
      v.tokens.foldlM step (value frames) = some (complete v frames)
  | array items, frames => by
    rw [tokens, List.foldlM_cons]
    by_cases h : items = []
    · rw [h]
      rfl
    · exact (foldlM_item h frames _).trans (foldlM_tokensOfItems items h [] frames)
  | object members, frames => by
    rw [tokens, List.foldlM_cons]
    by_cases h : members = []
    · rw [h]
      rfl
    · exact (foldlM_member h frames _).trans (foldlM_tokensOfMembers members h [] frames)
  | null, _ => rfl
  | bool _, _ => rfl
  | number _, _ => rfl
  | string _, _ => rfl

/-- From the start of an item, the tokens of the items that are left lead to the array's end. -/
theorem foldlM_tokensOfItems :
    ∀ (items : List Json), items ≠ [] → ∀ (before : List Json) (frames : List Frame),
      (tokensOfItems items ++ [Token.rightBracket]).foldlM step (value (.array before :: frames)) =
        some (complete (.array (before.reverse ++ items)) frames)
  | [], h, _, _ => absurd rfl h
  | [v], _, before, frames => by
    rw [tokensOfItems, List.foldlM_append, foldlM_tokens v, ← List.reverse_cons]
    rfl
  | v :: w :: items, _, before, frames => by
    have hrest := foldlM_tokensOfItems (w :: items) (List.cons_ne_nil _ _) (v :: before) frames
    rw [List.reverse_cons, List.append_assoc] at hrest
    rw [tokensOfItems, List.append_assoc, List.foldlM_append, foldlM_tokens v]
    exact hrest

/-- From the start of a member, the tokens of the members that are left lead to the end of the
object. -/
theorem foldlM_tokensOfMembers :
    ∀ (members : List (Option String × Json)), members ≠ [] →
      ∀ (before : List (Option String × Json)) (frames : List Frame),
      (tokensOfMembers members ++ [Token.rightBrace]).foldlM step (nextKey before frames) =
        some (complete (.object (before.reverse ++ members)) frames)
  | [], h, _, _ => absurd rfl h
  | [(key, v)], _, before, frames => by
    have hvalue : (v.tokens ++ [Token.rightBrace]).foldlM step
        (value (.object before key :: frames)) =
          some (complete (.object ((key, v) :: before).reverse) frames) := by
      rw [List.foldlM_append, foldlM_tokens v]
      rfl
    rw [← List.reverse_cons]
    exact hvalue
  | (key, v) :: m :: members, _, before, frames => by
    have hrest := foldlM_tokensOfMembers (m :: members) (List.cons_ne_nil _ _)
      ((key, v) :: before) frames
    rw [List.reverse_cons, List.append_assoc] at hrest
    have hvalue : (v.tokens ++ (Token.comma :: (tokensOfMembers (m :: members) ++
        [Token.rightBrace]))).foldlM step (value (.object before key :: frames)) =
          some (complete (.object (before.reverse ++ (key, v) :: m :: members)) frames) := by
      rw [List.foldlM_append, foldlM_tokens v]
      exact hrest
    rw [tokensOfMembers, List.cons_append, List.cons_append, List.append_assoc]
    exact hvalue

end

/-- A value cannot follow a value: the machine waits for a mark after it. -/
theorem step_scalar_eq_none {p q : Progress} {v : Json} (h : step p (.scalar v) = some q)
    (w : Json) : step q (.scalar w) = none := by
  cases p with
  | value frames =>
    obtain rfl := Option.some.inj h
    cases frames with
    | nil => rfl
    | cons frame frames => cases frame <;> rfl
  | item frames =>
    obtain rfl := Option.some.inj h
    rfl
  | member frames | nextKey members frames =>
    cases v with
    | string key =>
      obtain rfl := Option.some.inj h
      rfl
    | _ => exact absurd h nofun
  | colon members key frames => exact absurd h nofun
  | complete v frames =>
    cases frames with
    | nil => exact absurd h nofun
    | cons frame frames => cases frame <;> exact absurd h nofun

/-- In what the machine reads, no two values are next to each other. -/
theorem isChain_of_foldlM {ts : List Token} {p q : Progress} (h : ts.foldlM step p = some q) :
    ts.IsChain fun t u => ¬ (t.isScalar ∧ u.isScalar) := by
  induction ts generalizing p with
  | nil => exact .nil
  | cons t ts ih =>
    rw [List.foldlM_cons] at h
    obtain ⟨p', hp', hrest⟩ := Option.bind_eq_some_iff.1 h
    cases ts with
    | nil => exact .singleton t
    | cons u ts =>
      refine List.isChain_cons_cons.2 ⟨?_, ih hrest⟩
      rintro ⟨ht, hu⟩
      rw [List.foldlM_cons] at hrest
      obtain ⟨p'', hp'', -⟩ := Option.bind_eq_some_iff.1 hrest
      cases t with
      | scalar v =>
        cases u with
        | scalar w => exact absurd (hp''.symm.trans (step_scalar_eq_none hp' w)) nofun
        | _ => exact absurd hu nofun
      | _ => exact absurd ht nofun

/-! ### From a state of the machine to the tokens before it -/

/-- The tokens of an array or object that is still open, up to the value that is being read. -/
def Frame.tokens : Frame → List Token
  | array items => .leftBracket :: tokensOfItemsBefore items.reverse
  | object members key =>
    .leftBrace :: (tokensOfMembersBefore members.reverse ++ [.scalar (.string key), .colon])

/-- The tokens of all that is still open. -/
def Frame.tokensOfAll (frames : List Frame) : List Token :=
  frames.reverse.flatMap Frame.tokens

theorem Frame.tokensOfAll_cons (frame : Frame) (frames : List Frame) :
    tokensOfAll (frame :: frames) = tokensOfAll frames ++ frame.tokens := by
  simp [tokensOfAll]

/-- The tokens that have been read when the machine is in a state. -/
def Progress.tokens : Progress → List Token
  | value frames => Frame.tokensOfAll frames
  | item frames => Frame.tokensOfAll frames ++ [.leftBracket]
  | member frames => Frame.tokensOfAll frames ++ [.leftBrace]
  | nextKey members frames =>
    Frame.tokensOfAll frames ++ .leftBrace :: tokensOfMembersBefore members.reverse
  | colon members key frames =>
    Frame.tokensOfAll frames ++
      .leftBrace :: (tokensOfMembersBefore members.reverse ++ [.scalar (.string key)])
  | complete v frames => Frame.tokensOfAll frames ++ v.tokens

namespace Progress

/-- A token that a lexeme spells holds no array and no object. -/
theorem tokens_of_lexeme {t : Token} {cs : List Char} (h : Token.Lexeme t cs) {v : Json}
    (hv : t = .scalar v) : v.tokens = [t] := by
  cases h <;> cases hv <;> rfl

theorem tokens_openValue {frames : List Frame} {t : Token} {p : Progress} {cs : List Char}
    (ht : Token.Lexeme t cs) (h : openValue frames t = some p) :
    p.tokens = Frame.tokensOfAll frames ++ [t] := by
  cases t with
  | scalar v =>
    obtain rfl := Option.some.inj h
    rw [Progress.tokens, tokens_of_lexeme ht rfl]
  | leftBracket | leftBrace =>
    obtain rfl := Option.some.inj h
    rfl
  | _ => exact absurd h nofun

theorem tokens_openMember {members : List (Option String × Json)} {frames : List Frame}
    {t : Token} {p : Progress} (h : openMember members frames t = some p) :
    p.tokens = Frame.tokensOfAll frames ++
      .leftBrace :: (tokensOfMembersBefore members.reverse ++ [t]) := by
  unfold openMember at h
  split at h
  · obtain rfl := Option.some.inj h
    rfl
  · exact absurd h nofun

/-- **The step**: the machine reads one token. -/
theorem tokens_step {p q : Progress} {t : Token} {cs : List Char} (ht : Token.Lexeme t cs)
    (h : step p t = some q) : q.tokens = p.tokens ++ [t] := by
  unfold step at h
  split at h
  · exact tokens_openValue ht h
  · obtain rfl := Option.some.inj h
    simp [Progress.tokens, Json.tokens, tokensOfItems]
  · rw [tokens_openValue ht h]
    simp [Progress.tokens, Frame.tokensOfAll_cons, Frame.tokens, tokensOfItemsBefore]
  · obtain rfl := Option.some.inj h
    simp [Progress.tokens, Json.tokens, tokensOfMembers]
  · rw [tokens_openMember h]
    simp [Progress.tokens, tokensOfMembersBefore]
  · rw [tokens_openMember h]
    simp [Progress.tokens]
  · obtain rfl := Option.some.inj h
    simp [Progress.tokens, Frame.tokensOfAll_cons, Frame.tokens]
  · obtain rfl := Option.some.inj h
    simp [Progress.tokens, Frame.tokensOfAll_cons, Frame.tokens, tokensOfItemsBefore]
  · obtain rfl := Option.some.inj h
    simp [Progress.tokens, Frame.tokensOfAll_cons, Frame.tokens, Json.tokens,
      tokensOfItems_concat]
  · obtain rfl := Option.some.inj h
    simp [Progress.tokens, Frame.tokensOfAll_cons, Frame.tokens, tokensOfMembersBefore]
  · obtain rfl := Option.some.inj h
    simp [Progress.tokens, Frame.tokensOfAll_cons, Frame.tokens, Json.tokens,
      tokensOfMembers_concat]
  · exact absurd h nofun

/-- **The run**: the machine reads all tokens. -/
theorem tokens_foldlM {ts : List Token} {p q : Progress}
    (hts : ∀ t ∈ ts, ∃ cs, Token.Lexeme t cs) (h : ts.foldlM step p = some q) :
    q.tokens = p.tokens ++ ts := by
  induction ts generalizing p with
  | nil =>
    obtain rfl := Option.some.inj h
    exact (List.append_nil _).symm
  | cons t ts ih =>
    rw [List.foldlM_cons] at h
    obtain ⟨p', hp', hrest⟩ := Option.bind_eq_some_iff.1 h
    obtain ⟨cs, hcs⟩ := hts t List.mem_cons_self
    rw [ih (fun u hu => hts u (List.mem_cons_of_mem t hu)) hrest, tokens_step hcs hp',
      List.append_assoc, List.singleton_append]

end Progress

/-! ### Texts -/

theorem eq_tokens_of_ofTokens? {ts : List Token} {v : Json}
    (hts : ∀ t ∈ ts, ∃ cs, Token.Lexeme t cs) (h : ofTokens? ts = some v) : ts = v.tokens := by
  obtain ⟨p, hp, hresult⟩ := Option.bind_eq_some_iff.1 h
  have hread := Progress.tokens_foldlM hts hp
  unfold result? at hresult
  split at hresult
  · obtain rfl := Option.some.inj hresult
    simpa [Progress.tokens, Frame.tokensOfAll] using hread.symm
  · exact absurd hresult nofun

/-- **Reading a text gives the value that the text writes**, if it writes one, and else none. -/
theorem ofText?_eq_some_iff {text : String} {v : Json} :
    ofText? text = some v ↔ Writes text v := by
  constructor
  · intro h
    obtain ⟨ts, hscan, hts⟩ := Option.bind_eq_some_iff.1 h
    have hspells := Token.spells_of_scan hscan
    rwa [eq_tokens_of_ofTokens? hspells.exists_lexeme hts] at hspells
  · intro h
    have hrun := foldlM_tokens v []
    have hscan := Token.scan_of_spells h (isChain_of_foldlM hrun)
    rw [ofText?, hscan, Option.bind_some, ofTokens?, hrun]
    rfl

end Json

end JsxHoist
