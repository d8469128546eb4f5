import JsxHoist.Options.Reader
import JsxHoist.Proofs.JsonTexts
import Mathlib.Data.Multiset.Count
import Mathlib.Data.Multiset.MapFold

/-!
# Options from the members of an object

What a text with a JSON object says about options depends on the members with the keys of options
alone, and on these in no order (`Options.known`). They are **malformed** (`Options.Malformed`) if a
key is repeated or a value is not of the form that its key asks for; such a text is refused as JSON.
Otherwise there is one way to **overlay** the defaults with them (`Options.Overlays`), and the text
says what comes of it, or is refused for what is wrong with it (`Options.ofText_of_writes`).

So the order of members, members with other keys, whatever their values, and spaces between tokens
make no difference.
-/

namespace JsxHoist

namespace Json

theorem bool?_eq_some_iff {v : Json} {b : Bool} : v.bool? = some b ↔ v = .bool b := by
  cases v <;> simp [bool?]

theorem text?_eq_some_iff {v : Json} {text : String} :
    v.text? = some text ↔ v = .string (some text) := by
  cases v <;> simp [text?]

/-- A text with an object is not blank, for it has a brace. -/
theorem not_isBlank_of_writes {text : String} {members : List (Option String × Json)}
    (h : Writes text (.object members)) : ¬ IsBlank text := by
  have hbrace : ∀ {ts : List Token} {cs : List Char}, Token.Spells (.leftBrace :: ts) cs →
      '\x7b' ∈ cs := by
    rintro ts _ (_ | ⟨-, ⟨⟩, -⟩)
    simp
  intro hblank
  exact absurd (hblank _ (hbrace h)) (by decide)

end Json

namespace DeclarationKind

theorem ofKeyword?_eq_some_iff {word : String} {k : DeclarationKind} :
    ofKeyword? word = some k ↔ word = k.keyword := by
  constructor
  · intro h
    unfold ofKeyword? at h
    split at h
    · exact Option.some.inj h ▸ rfl
    · exact Option.some.inj h ▸ rfl
    · exact Option.some.inj h ▸ rfl
    · exact absurd h nofun
  · rintro rfl
    exact ofKeyword?_keyword k

theorem ofJson?_eq_some_iff {v : Json} {k : DeclarationKind} :
    ofJson? v = some k ↔
      v = .string (some k.keyword) ∨ v = .object [(some k.keyword, .null)] := by
  unfold ofJson?
  split
  · simp [ofKeyword?_eq_some_iff]
  · simp [ofKeyword?_eq_some_iff]
  · next hstring hobject =>
    refine iff_of_false nofun ?_
    rintro (rfl | rfl)
    · exact hstring _ rfl
    · exact hobject _ rfl

end DeclarationKind

namespace Options

/-! ### Members and options -/

/-- The keys of options. -/
def keys : List String :=
  ["verbose", "importSource", "prefix", "declarationKind"]

/-- A member of an object, if its key is one of options. -/
def known? : Option String × Json → Option (String × Json)
  | (some key, v) => if key ∈ keys then some (key, v) else none
  | (none, _) => none

/-- The members of an object that have keys of options, in no order. -/
def known (members : List (Option String × Json)) : Multiset (String × Json) :=
  Multiset.ofList (members.filterMap known?)

/-- The options have what a member says: its value is that of the option, in the form that the key
asks for. -/
def Agrees (o : Options) : String × Json → Prop
  | ("verbose", v) => v = .bool o.verbose
  | ("importSource", v) => v = .string (some o.importSource)
  | ("prefix", v) => v = .string (some o.stem)
  | ("declarationKind", v) =>
    v = .string (some o.declarationKind.keyword) ∨
      v = .object [(some o.declarationKind.keyword, .null)]
  | _ => True

/-- Members are **malformed** if a key is repeated, or if a value does not have the form that its
key asks for, so that no options agree with it. -/
def Malformed (ms : Multiset (String × Json)) : Prop :=
  (∃ key, 2 ≤ (ms.map Prod.fst).count key) ∨ ∃ m ∈ ms, ∀ o : Options, ¬ o.Agrees m

/-- The options are the defaults **overlaid** with members. -/
structure Overlays (o : Options) (ms : Multiset (String × Json)) : Prop where
  agrees : ∀ m ∈ ms, o.Agrees m
  verbose : "verbose" ∉ ms.map Prod.fst → o.verbose = ({} : Options).verbose
  importSource : "importSource" ∉ ms.map Prod.fst → o.importSource = ({} : Options).importSource
  stem : "prefix" ∉ ms.map Prod.fst → o.stem = ({} : Options).stem
  declarationKind :
    "declarationKind" ∉ ms.map Prod.fst → o.declarationKind = ({} : Options).declarationKind

variable {members : List (Option String × Json)} {key : String} {v : Json}

theorem known?_eq_some_iff {m : Option String × Json} :
    known? m = some (key, v) ↔ key ∈ keys ∧ m = (some key, v) := by
  unfold known?
  split
  · next k w =>
    rw [Option.ite_none_right_eq_some, Option.some.injEq, Prod.mk.injEq, Prod.mk.injEq,
      Option.some.injEq]
    constructor
    · rintro ⟨hk, rfl, rfl⟩
      exact ⟨hk, rfl, rfl⟩
    · rintro ⟨hk, rfl, rfl⟩
      exact ⟨hk, rfl, rfl⟩
  · exact iff_of_false nofun nofun

theorem mem_known : (key, v) ∈ known members ↔ key ∈ keys ∧ (some key, v) ∈ members := by
  rw [known, Multiset.mem_coe, List.mem_filterMap]
  constructor
  · rintro ⟨m, hm, h⟩
    obtain ⟨hkey, rfl⟩ := known?_eq_some_iff.1 h
    exact ⟨hkey, hm⟩
  · rintro ⟨hkey, hm⟩
    exact ⟨_, hm, known?_eq_some_iff.2 ⟨hkey, rfl⟩⟩

theorem key_mem_known_iff : key ∈ (known members).map Prod.fst ↔ ∃ v, (key, v) ∈ known members := by
  simp

/-- A key of options stands among the members as often as in the object. -/
theorem count_known (hkey : key ∈ keys) :
    ((known members).map Prod.fst).count key = (members.filter (·.1 = some key)).length := by
  rw [known, Multiset.map_coe, Multiset.coe_count, List.map_filterMap, List.count,
    List.countP_filterMap, ← List.countP_eq_length_filter]
  refine List.countP_congr ?_
  rintro ⟨key?, v⟩ -
  cases key? with
  | none => simp [known?]
  | some k =>
    by_cases hk : k = key
    · simp [known?, hk, hkey]
    · by_cases hmem : k ∈ keys <;> simp [known?, hk, hmem]

/-- Under a key of options the default is found if the key is missing, what the value is read as if
the key stands once, and nothing if it is repeated. -/
theorem memberOr_cases {α : Type} (members : List (Option String × Json)) (fallback : α)
    (read? : Json → Option α) (hkey : key ∈ keys) :
    (key ∉ (known members).map Prod.fst ∧
        memberOr fallback read? key members = some fallback) ∨
      (∃ v, ((known members).map Prod.fst).count key = 1 ∧
        (∀ w, (key, w) ∈ known members ↔ w = v) ∧
        memberOr fallback read? key members = read? v) ∨
      (2 ≤ ((known members).map Prod.fst).count key ∧
        memberOr fallback read? key members = none) := by
  have hmem : ∀ w, (key, w) ∈ known members ↔ (some key, w) ∈ members.filter (·.1 = some key) := by
    intro w
    simp [mem_known, hkey]
  rw [count_known hkey, key_mem_known_iff]
  unfold memberOr
  rcases hfilter : members.filter (·.1 = some key) with _ | ⟨⟨key?, v⟩, _ | ⟨m, rest⟩⟩
  · refine .inl ⟨?_, by rw [hfilter]⟩
    rintro ⟨v, hv⟩
    exact absurd (hfilter ▸ (hmem v).1 hv) List.not_mem_nil
  · have hin : (key?, v) ∈ members.filter (·.1 = some key) := hfilter ▸ List.mem_singleton_self _
    obtain rfl : key? = some key := of_decide_eq_true (List.mem_filter.1 hin).2
    refine .inr (.inl ⟨v, by rw [hfilter]; rfl, fun w => ?_, by rw [hfilter]⟩)
    rw [hmem, hfilter]
    simp
  · exact .inr (.inr ⟨by simp [hfilter], by rw [hfilter]⟩)

theorem memberOr_eq_some_iff {α : Type} {fallback x : α} {read? : Json → Option α}
    (hkey : key ∈ keys) :
    memberOr fallback read? key members = some x ↔
      ((known members).map Prod.fst).count key ≤ 1 ∧
        (∀ v, (key, v) ∈ known members → read? v = some x) ∧
        (key ∉ (known members).map Prod.fst → x = fallback) := by
  rcases memberOr_cases members fallback read? hkey with
    ⟨hmissing, h⟩ | ⟨v, hcount, hv, h⟩ | ⟨hcount, h⟩
  · have hnone : ∀ v, (key, v) ∉ known members := fun v hv =>
      hmissing (key_mem_known_iff.2 ⟨v, hv⟩)
    rw [h, Multiset.count_eq_zero_of_notMem hmissing]
    simp [hnone, hmissing, eq_comm]
  · have hin : key ∈ (known members).map Prod.fst := key_mem_known_iff.2 ⟨v, (hv v).2 rfl⟩
    rw [h, hcount]
    simp [hv, hin]
  · rw [h]
    exact iff_of_false nofun fun hx => absurd hx.1 (by omega)

/-! ### Objects -/

theorem count_le_one_iff :
    (∀ key, ((known members).map Prod.fst).count key ≤ 1) ↔
      ∀ key ∈ keys, ((known members).map Prod.fst).count key ≤ 1 := by
  refine ⟨fun h key _ => h key, fun h key => ?_⟩
  by_cases hkey : key ∈ keys
  · exact h key hkey
  · have hmissing : key ∉ (known members).map Prod.fst := fun hmem => by
      obtain ⟨v, hv⟩ := key_mem_known_iff.1 hmem
      exact hkey (mem_known.1 hv).1
    rw [Multiset.count_eq_zero_of_notMem hmissing]
    exact Nat.zero_le 1

/-- The options agree with the members that have keys of options, key by key. -/
theorem forall_agrees_iff {o : Options} :
    (∀ m ∈ known members, o.Agrees m) ↔
      ∀ key ∈ keys, ∀ v, (key, v) ∈ known members → o.Agrees (key, v) := by
  refine ⟨fun h key _ v hv => h _ hv, fun h => ?_⟩
  rintro ⟨key, v⟩ hv
  exact h key (mem_known.1 hv).1 v hv

theorem ofMembers?_eq_some_iff_memberOr (hkeys : ∀ m ∈ members, m.1.isSome) {o : Options} :
    ofMembers? members = some o ↔
      memberOr ({} : Options).verbose Json.bool? "verbose" members = some o.verbose ∧
      memberOr ({} : Options).importSource Json.text? "importSource" members =
        some o.importSource ∧
      memberOr ({} : Options).stem Json.text? "prefix" members = some o.stem ∧
      memberOr ({} : Options).declarationKind DeclarationKind.ofJson? "declarationKind" members =
        some o.declarationKind := by
  have hguard : (members.all (·.1.isSome)) = true := List.all_eq_true.2 hkeys
  constructor
  · intro h
    simp only [ofMembers?, Option.bind_eq_bind, Option.bind_eq_some_iff] at h
    obtain ⟨-, -, verbose, h1, importSource, h2, stem, h3, kind, h4, ho⟩ := h
    obtain rfl := Option.some.inj ho
    exact ⟨h1, h2, h3, h4⟩
  · rintro ⟨h1, h2, h3, h4⟩
    simp only [ofMembers?, hguard, guard_true, Option.bind_eq_bind, h1, h2, h3, h4]
    rfl

theorem ofMembers?_eq_some_iff (hkeys : ∀ m ∈ members, m.1.isSome) {o : Options} :
    ofMembers? members = some o ↔
      (∀ key, ((known members).map Prod.fst).count key ≤ 1) ∧ o.Overlays (known members) := by
  have hin : "verbose" ∈ keys ∧ "importSource" ∈ keys ∧ "prefix" ∈ keys ∧
      "declarationKind" ∈ keys := by decide
  obtain ⟨h1, h2, h3, h4⟩ := hin
  rw [ofMembers?_eq_some_iff_memberOr hkeys, memberOr_eq_some_iff h1, memberOr_eq_some_iff h2,
    memberOr_eq_some_iff h3, memberOr_eq_some_iff h4]
  simp only [Json.bool?_eq_some_iff, Json.text?_eq_some_iff, DeclarationKind.ofJson?_eq_some_iff]
  constructor
  · rintro ⟨⟨c1, a1, d1⟩, ⟨c2, a2, d2⟩, ⟨c3, a3, d3⟩, ⟨c4, a4, d4⟩⟩
    refine ⟨count_le_one_iff.2 ?_, forall_agrees_iff.2 ?_, d1, d2, d3, d4⟩
    · simpa [keys] using ⟨c1, c2, c3, c4⟩
    · simpa [keys] using ⟨a1, a2, a3, a4⟩
  · rintro ⟨hcount, ha, d1, d2, d3, d4⟩
    exact ⟨⟨hcount _, fun v hv => ha _ hv, d1⟩, ⟨hcount _, fun v hv => ha _ hv, d2⟩,
      ⟨hcount _, fun v hv => ha _ hv, d3⟩, ⟨hcount _, fun v hv => ha _ hv, d4⟩⟩

theorem not_malformed_iff {ms : Multiset (String × Json)} :
    ¬ Malformed ms ↔
      (∀ key, (ms.map Prod.fst).count key ≤ 1) ∧ ∀ m ∈ ms, ∃ o : Options, o.Agrees m := by
  simp only [Malformed, not_or, not_exists, not_and, not_forall, not_not, Nat.not_le,
    Nat.lt_succ_iff]

theorem ofMembers?_eq_none (hkeys : ∀ m ∈ members, m.1.isSome)
    (hmalformed : Malformed (known members)) : ofMembers? members = none := by
  rw [Option.eq_none_iff_forall_ne_some]
  intro o ho
  obtain ⟨hcount, hoverlays⟩ := (ofMembers?_eq_some_iff hkeys).1 ho
  exact not_malformed_iff.2 ⟨hcount, fun m hm => ⟨o, hoverlays.agrees m hm⟩⟩ hmalformed

/-- If members are not malformed, then something is found under a key that asks for the form which
`read?` reads. -/
theorem exists_memberOr_eq_some {α : Type} (key : String) (fallback : α) {field : Options → α}
    {read? : Json → Option α} (hkey : key ∈ keys) (hformed : ¬ Malformed (known members))
    (hread : ∀ (o : Options) (v : Json), o.Agrees (key, v) → read? v = some (field o)) :
    ∃ x, memberOr fallback read? key members = some x := by
  obtain ⟨hcount, hagrees⟩ := not_malformed_iff.1 hformed
  rcases memberOr_cases members fallback read? hkey with ⟨-, h⟩ | ⟨v, -, hv, h⟩ | ⟨htwo, -⟩
  · exact ⟨fallback, h⟩
  · obtain ⟨o, ho⟩ := hagrees _ ((hv v).2 rfl)
    exact ⟨field o, h.trans (hread o v ho)⟩
  · exact absurd (hcount key) (by omega)

theorem exists_ofMembers?_eq_some (hkeys : ∀ m ∈ members, m.1.isSome)
    (hformed : ¬ Malformed (known members)) : ∃ o, ofMembers? members = some o := by
  obtain ⟨verbose, h1⟩ := exists_memberOr_eq_some "verbose" ({} : Options).verbose (by decide)
    hformed fun _ _ h => Json.bool?_eq_some_iff.2 h
  obtain ⟨importSource, h2⟩ := exists_memberOr_eq_some "importSource" ({} : Options).importSource
    (by decide) hformed fun _ _ h => Json.text?_eq_some_iff.2 h
  obtain ⟨stem, h3⟩ := exists_memberOr_eq_some "prefix" ({} : Options).stem (by decide) hformed
    fun _ _ h => Json.text?_eq_some_iff.2 h
  obtain ⟨declarationKind, h4⟩ := exists_memberOr_eq_some "declarationKind"
    ({} : Options).declarationKind (by decide) hformed
    fun _ _ h => DeclarationKind.ofJson?_eq_some_iff.2 h
  exact ⟨⟨verbose, importSource, stem, declarationKind⟩,
    (ofMembers?_eq_some_iff_memberOr hkeys).2 ⟨h1, h2, h3, h4⟩⟩

/-- The options that an object says are the only ones that overlay the defaults with its members. -/
theorem overlays_iff_eq (hkeys : ∀ m ∈ members, m.1.isSome) {o o' : Options}
    (ho : ofMembers? members = some o) : o'.Overlays (known members) ↔ o' = o := by
  obtain ⟨hcount, -⟩ := (ofMembers?_eq_some_iff hkeys).1 ho
  have heq : ofMembers? members = some o' ↔ o'.Overlays (known members) :=
    (ofMembers?_eq_some_iff hkeys).trans (and_iff_right hcount)
  rw [← heq, ho, Option.some.injEq, eq_comm]

/-- Two objects say the same if they have the same members with keys of options. -/
theorem ofMembers?_congr {members' : List (Option String × Json)}
    (hkeys : ∀ m ∈ members, m.1.isSome) (hkeys' : ∀ m ∈ members', m.1.isSome)
    (h : known members' = known members) : ofMembers? members' = ofMembers? members := by
  refine Option.ext fun o => ?_
  rw [ofMembers?_eq_some_iff hkeys, ofMembers?_eq_some_iff hkeys', h]

/-! ### Texts -/

/-- What comes of options that a text has, valid or not. -/
theorem ofText_eq_of_writes {text : String} (h : Json.Writes text (.object members)) :
    ofText text =
      match ofMembers? members with
      | none => .error .invalidJson
      | some o => o.validate.map fun _ => o := by
  rw [ofText, if_neg (Json.not_isBlank_of_writes h), Json.ofText?_eq_some_iff.2 h]
  rfl

/-- Two texts with objects say the same if these have the same members with keys of options. -/
theorem ofText_congr {text text' : String} {members' : List (Option String × Json)}
    (hwrites : Json.Writes text (.object members)) (hwrites' : Json.Writes text' (.object members'))
    (hkeys : ∀ m ∈ members, m.1.isSome) (hkeys' : ∀ m ∈ members', m.1.isSome)
    (h : known members' = known members) : ofText text' = ofText text := by
  rw [ofText_eq_of_writes hwrites, ofText_eq_of_writes hwrites', ofMembers?_congr hkeys hkeys' h]

theorem map_validate (o : Options) :
    (o.validate.map fun _ => o) =
      if o.importSource = "" then .error .emptyImportSource
      else if o.stem = "" then .error .emptyStem
      else if IsIdentifier o.stem then .ok o
      else .error (.invalidStem o.stem) := by
  unfold validate
  split_ifs <;> rfl

/-- Other members and the order of members do not count. -/
theorem known_eq_of_perm {members' others : List (Option String × Json)}
    (hothers : ∀ m ∈ others, known? m = none) (h : members'.Perm (others ++ members)) :
    known members' = known members := by
  refine Multiset.coe_eq_coe.2 ((h.filterMap known?).trans ?_)
  rw [List.filterMap_append, List.filterMap_eq_nil_iff.2 hothers, List.nil_append]

/-- **Options from a text with an object**, all of whose keys denote texts. If the members with keys
of options are malformed, then the text is refused as JSON. Otherwise there is one way to overlay
the defaults with them, and the text says that, unless it is refused for the first of its faults.
In either case nothing else about the text counts: not the order of members, not other members, and
not the spaces between tokens. -/
theorem ofText_of_writes {text : String} (hwrites : Json.Writes text (.object members))
    (hkeys : ∀ m ∈ members, m.1.isSome) :
    (Malformed (known members) → ofText text = .error .invalidJson) ∧
      (¬ Malformed (known members) →
        ∃ o : Options, (∀ o' : Options, o'.Overlays (known members) ↔ o' = o) ∧
          ofText text =
            if o.importSource = "" then .error .emptyImportSource
            else if o.stem = "" then .error .emptyStem
            else if IsIdentifier o.stem then .ok o
            else .error (.invalidStem o.stem)) ∧
      (∀ (text' : String) (members' : List (Option String × Json)),
        Json.Writes text' (.object members') → (∀ m ∈ members', m.1.isSome) →
        known members' = known members → ofText text' = ofText text) ∧
      ∀ (text' : String) (members' others : List (Option String × Json)),
        Json.Writes text' (.object members') → (∀ m ∈ others, ∃ key ∉ keys, m.1 = some key) →
        members'.Perm (others ++ members) → ofText text' = ofText text := by
  refine ⟨fun hmalformed => ?_, fun hformed => ?_, ?_, ?_⟩
  · rw [ofText_eq_of_writes hwrites, ofMembers?_eq_none hkeys hmalformed]
  · obtain ⟨o, ho⟩ := exists_ofMembers?_eq_some hkeys hformed
    refine ⟨o, fun o' => overlays_iff_eq hkeys ho, ?_⟩
    rw [ofText_eq_of_writes hwrites, ho]
    exact map_validate o
  · intro text' members' hwrites' hkeys' hknown
    exact ofText_congr hwrites hwrites' hkeys hkeys' hknown
  · intro text' members' others hwrites' hothers hperm
    refine ofText_congr hwrites hwrites' hkeys (fun m hm => ?_) (known_eq_of_perm ?_ hperm)
    · rcases List.mem_append.1 (hperm.mem_iff.1 hm) with hm | hm
      · obtain ⟨key, -, hkey⟩ := hothers m hm
        rw [hkey]
        rfl
      · exact hkeys m hm
    · rintro ⟨_, v⟩ hm
      obtain ⟨key, hkey, rfl⟩ := hothers _ hm
      exact if_neg hkey

/-- A text with two options, the same with another member, in another order and with an escape in a
key, and a text that repeats a key. -/
theorem ofText_of_writes_sample :
    ofText "\x7b\"prefix\":\"x\",\"verbose\":true\x7d" = .ok { stem := "x", verbose := true } ∧
      ofText " \x7b \"verbose\":true,\"size\":[1e9,\x7b\x7d],\n\"pre\\u0066ix\":\"x\" \x7d" =
        .ok { stem := "x", verbose := true } ∧
      ofText "\x7b\"prefix\":\"x\",\"prefix\":\"x\"\x7d" = .error .invalidJson := by
  have hwrites : Json.Writes "\x7b\"prefix\":\"x\",\"verbose\":true\x7d"
      (.object [(some "prefix", .string (some "x")), (some "verbose", .bool true)]) :=
    Json.ofText?_eq_some_iff.1 (by with_unfolding_all rfl)
  have hwrites' : Json.Writes
      " \x7b \"verbose\":true,\"size\":[1e9,\x7b\x7d],\n\"pre\\u0066ix\":\"x\" \x7d"
      (.object [(some "verbose", .bool true), (some "size", .array [.number "1e9", .object []]),
        (some "prefix", .string (some "x"))]) :=
    Json.ofText?_eq_some_iff.1 (by with_unfolding_all rfl)
  have htwice : Json.Writes "\x7b\"prefix\":\"x\",\"prefix\":\"x\"\x7d"
      (.object [(some "prefix", .string (some "x")), (some "prefix", .string (some "x"))]) :=
    Json.ofText?_eq_some_iff.1 (by with_unfolding_all rfl)
  have hkeys : ∀ m ∈ [(some "prefix", Json.string (some "x")), (some "verbose", .bool true)],
      m.1.isSome := by simp
  obtain ⟨-, hformed, -, hother⟩ := ofText_of_writes hwrites hkeys
  have ho : ofMembers? [(some "prefix", Json.string (some "x")), (some "verbose", .bool true)] =
      some { stem := "x", verbose := true } := rfl
  obtain ⟨hcount, hoverlays⟩ := (ofMembers?_eq_some_iff hkeys).1 ho
  obtain ⟨o, hunique, htext⟩ :=
    hformed (not_malformed_iff.2 ⟨hcount, fun m hm => ⟨_, hoverlays.agrees m hm⟩⟩)
  obtain rfl := (hunique _).1 hoverlays
  have hok : ofText "\x7b\"prefix\":\"x\",\"verbose\":true\x7d" =
      .ok { stem := "x", verbose := true } := by
    rw [htext, if_neg (by decide), if_neg (by decide), if_pos (by decide)]
  refine ⟨hok, ?_, ?_⟩
  · rw [← hok]
    refine hother _ _ [(some "size", .array [.number "1e9", .object []])] hwrites' ?_ ?_
    · rintro m hm
      obtain rfl := List.mem_singleton.1 hm
      exact ⟨"size", by decide, rfl⟩
    · exact .trans (.swap _ _ _) (.cons _ (.swap _ _ _))
  · refine (ofText_of_writes htwice (by simp)).1 (.inl ⟨"prefix", ?_⟩)
    simp [known, known?, keys]

end Options

end JsxHoist
