import JsxHoist.Proofs.Lockstep
import JsxHoist.Proofs.WalkStates

/-!
# The least free numbers

The names that a walk makes up are numbered, and the numbers are the least that the module leaves
free, in increasing order. What carries this through the walk is an initial segment: the numbers
that a supply has **issued** are those up to its counter that were free at the start
(`NameSupply.Issued`). Handing out a name moves the counter over taken numbers to the next free one,
so that the segment grows by one number at its end (`NameSupply.Issued.fresh`). A binding that is
used again hands out no name, and nothing changes at all (`Scope.bind_of_repeats`).
-/

namespace JsxHoist

/-- A list holds the **least** numbers with a property when it is strictly increasing, all numbers
in it have the property, and with each number every smaller one that has the property is in it. -/
structure LeastNumbers (p : Nat → Prop) (ns : List Nat) : Prop where
  increasing : ns.Pairwise (· < ·)
  holds : ∀ n ∈ ns, p n
  closed : ∀ n ∈ ns, ∀ k < n, p k → k ∈ ns

/-- A number is **unused** in a module for a stem when it is at least `1` and its name is no word of
the module. -/
def Module.Unused (m : Module) (stem : String) (n : Nat) : Prop :=
  1 ≤ n ∧ numbered stem n ∉ m.words

/-! ### Supplies -/

namespace NameSupply

/-- A supply has **issued** a list of numbers, out of those with a property, when these are the ones
up to its counter and all after the counter are still free. -/
structure Issued (s : NameSupply) (p : Nat → Prop) (ns : List Nat) : Prop where
  increasing : ns.Pairwise (· < ·)
  mem_iff : ∀ n, n ∈ ns ↔ p n ∧ n ≤ s.counter
  free_iff : ∀ n, s.counter < n → (s.Free n ↔ p n)

namespace Issued

variable {s : NameSupply} {p : Nat → Prop} {ns : List Nat}

/-- **The step**: the next number comes behind all that are issued, and none is left out. -/
theorem fresh (h : s.Issued p ns) : s.fresh.2.Issued p (ns ++ [s.next]) where
  increasing := by
    rw [List.pairwise_append]
    refine ⟨h.increasing, List.pairwise_singleton _ _, fun n hn n' hn' => ?_⟩
    have hle : n ≤ s.counter := ((h.mem_iff n).1 hn).2
    have hlt : s.counter < s.next := s.counter_lt_next
    rw [List.mem_singleton] at hn'
    omega
  mem_iff n := by
    have hcounter : s.fresh.2.counter = s.next := rfl
    have hlt : s.counter < s.next := s.counter_lt_next
    rw [List.mem_append, List.mem_singleton, h.mem_iff, hcounter]
    constructor
    · rintro (⟨hp, hle⟩ | rfl)
      · exact ⟨hp, by omega⟩
      · exact ⟨(h.free_iff _ hlt).1 s.free_next, Nat.le_refl _⟩
    · rintro ⟨hp, hle⟩
      -- between the counter and the next number all are taken
      by_cases hold : n ≤ s.counter
      · exact Or.inl ⟨hp, hold⟩
      · have hn : s.counter < n := by omega
        refine Or.inr (Nat.le_antisymm hle (Nat.le_of_not_lt fun hbetween => ?_))
        exact not_free_of_lt_next hn hbetween ((h.free_iff n hn).2 hp)
  free_iff n hn := by
    have hnext : s.next < n := hn
    rw [free_fresh_iff hnext]
    exact h.free_iff n (Nat.lt_trans s.counter_lt_next hnext)

/-- What is issued are the least numbers with the property. -/
theorem leastNumbers (h : s.Issued p ns) : LeastNumbers p ns where
  increasing := h.increasing
  holds n hn := ((h.mem_iff n).1 hn).1
  closed n hn k hk hp := by
    have hle : n ≤ s.counter := ((h.mem_iff n).1 hn).2
    exact (h.mem_iff k).2 ⟨hp, by omega⟩

end Issued

end NameSupply

/-! ### Scopes -/

namespace Scope

/-- The bindings of a scope have the names with the numbers that its supply has issued, in order. -/
structure NamedBy (s : Scope) (p : Nat → Prop) (ns : List Nat) : Prop where
  issued : s.names.Issued p ns
  boundNames_eq : s.boundNames = ns.map (numbered s.names.stem)

variable {s : Scope} {p : Nat → Prop} {ns : List Nat}

/-- **The step**: binding an element issues the next number or none. -/
theorem NamedBy.bind (h : s.NamedBy p ns) (e : Tree) : ∃ ns', (s.bind e).2.NamedBy p ns' := by
  rcases s.boundNames_bind e with hsame | ⟨-, hsupply, hnames⟩
  · refine ⟨ns, ?_⟩
    rw [hsame]
    exact h
  · refine ⟨ns ++ [s.names.next], ?_, ?_⟩
    · rw [hsupply]
      exact h.issued.fresh
    · rw [hnames, h.boundNames_eq, stem_bind, List.map_append]
      rfl

/-- **The run**: binding a list of elements keeps the names those of the numbers issued. -/
theorem NamedBy.bindAll (h : s.NamedBy p ns) (es : List Tree) :
    ∃ ns', (s.bindAll es).2.NamedBy p ns' := by
  induction es generalizing s ns with
  | nil => exact ⟨ns, h⟩
  | cons e es ih =>
    obtain ⟨ns', h'⟩ := h.bind e
    exact ih h'

/-- **A binding that is used again costs nothing**: an element that repeats one that is recorded
leaves the scope as it is, its supply of names included. -/
theorem bind_of_repeats {before : List Tree} (h : s.registry.Records before) {e : Tree}
    (he : e.Repeats before) : (s.bind e).2 = s := by
  rcases s.bind_cases e with ⟨id, b, -, -, hbind⟩ | ⟨hnew, -⟩
  · rw [hbind]
  · exact absurd he (h.not_repeats hnew)

end Scope

/-! ### Modules -/

namespace Hoister

variable {h : Hoister} {m : Module} {i : Nat}

/-- Before the walk no number is issued, and all that are unused in the module are free. -/
theorem namedBy_moduleScope (h : Hoister) (m : Module) :
    (h.moduleScope m).NamedBy (m.Unused h.options.stem) [] := by
  refine ⟨⟨List.Pairwise.nil, fun n => ?_, fun n hn => ?_⟩, rfl⟩
  · refine iff_of_false List.not_mem_nil ?_
    rintro ⟨⟨hpos, -⟩, hle⟩
    have hzero : n ≤ 0 := hle
    omega
  · exact ⟨fun hfree => ⟨hn, hfree⟩, fun hunused => hunused.2⟩

/-- The bindings for a module have the least numbers that are unused in it. -/
theorem exists_leastNumbers_bindings (h : Hoister) (m : Module) (i : Nat) :
    ∃ ns, (h.bindings m i).map Binding.name = ns.map (numbered h.options.stem) ∧
      LeastNumbers (m.Unused h.options.stem) ns := by
  obtain ⟨ns, hissued, hnames⟩ :=
    (h.namedBy_moduleScope m).bindAll ((m.sitesAfter i).map Site.element)
  refine ⟨ns, ?_, hissued.leastNumbers⟩
  rw [bindings, walk_eq]
  rw [Scope.stem_bindAll] at hnames
  exact hnames

/-- A site whose element repeats that of an earlier site leaves the scope of the walk as it was. -/
theorem getElem?_scopes_succ_of_repeats {k : Nat} {site : Site}
    (hk : (m.sitesAfter i)[k]? = some site)
    (hrepeats : site.element.Repeats (((m.sitesAfter i).take k).map Site.element)) :
    (h.scopes m i)[k + 1]? = (h.scopes m i)[k]? := by
  obtain ⟨hlt, hget⟩ := List.getElem?_eq_some_iff.1 hk
  have htake : (m.sitesAfter i).take (k + 1) = (m.sitesAfter i).take k ++ [site] := by
    rw [List.take_succ_eq_append_getElem hlt, hget]
  have hrecords :=
    Scope.records_bindAll (s := h.moduleScope m) Registry.records_empty
      (((m.sitesAfter i).take k).map Site.element)
  rw [getElem?_scopes h m i hlt, getElem?_scopes h m i (Nat.le_of_lt hlt), htake, List.map_append,
    Scope.bindAll_append]
  exact congrArg some (Scope.bind_of_repeats hrecords hrepeats)

/-- **Names have the least free numbers, in order.** In the outcome for a module with an anchor at
`i`, the names that are declared behind the anchor are, from first to last, those with the least
numbers that are unused in the module, as many as there are declarations. There is one for each
original among the elements at the sites; a site whose element repeats that of an earlier site
changes nothing in the scope of the walk, and so takes no number. -/
theorem leastNumbers_visitModule (hi : anchor? h.options.importSource m.body = some i) :
    ∃ (bs : List Binding) (tail : List Tree) (ns : List Nat),
      (h.visitModule m).result =
        { m with
          body := m.body.take (i + 1) ++
            bs.map (Binding.declaration h.options.declarationKind) ++ tail } ∧
      tail.length = (m.body.drop (i + 1)).length ∧
      bs.map Binding.name = ns.map (numbered h.options.stem) ∧
      LeastNumbers (m.Unused h.options.stem) ns ∧
      bs.map Binding.element = originals ((m.sitesAfter i).map Site.element) ∧
      (∀ b ∈ bs, (b.declaration h.options.declarationKind).Declares
        h.options.declarationKind.keyword b.name b.element) ∧
      ∀ k site, (m.sitesAfter i)[k]? = some site →
        site.element.Repeats (((m.sitesAfter i).take k).map Site.element) →
        (h.scopes m i)[k + 1]? = (h.scopes m i)[k]? := by
  obtain ⟨ns, hnames, hleast⟩ := h.exists_leastNumbers_bindings m i
  exact ⟨h.bindings m i, h.tail m i, ns, result_visitModule hi, h.length_tail m i, hnames, hleast,
    h.elements_bindings m i, fun b _ => b.declares_declaration _,
    fun k site hk hrepeats => getElem?_scopes_succ_of_repeats hk hrepeats⟩

/-- In the sample the first number is used, and the second site repeats the first. -/
theorem leastNumbers_visitModule_sample :
    anchor? "react" Module.sample.body = some 0 ∧
      ∃ (bs : List Binding) (tail : List Tree) (ns : List Nat),
        (({ options := {} } : Hoister).visitModule Module.sample).result =
          { Module.sample with
            body := Module.sample.body.take 1 ++ bs.map (Binding.declaration .var) ++ tail } ∧
        bs.map Binding.name = ns.map (numbered "hoisted_constant_element") ∧
        LeastNumbers (Module.sample.Unused "hoisted_constant_element") ns ∧
        bs.length = 3 ∧
        (∀ b ∈ bs, (b.declaration .var).Declares "var" b.name b.element) ∧
        (({ options := {} } : Hoister).scopes Module.sample 0)[2]? =
          (({ options := {} } : Hoister).scopes Module.sample 0)[1]? := by
  obtain ⟨bs, tail, ns, hresult, -, hnames, hleast, helements, hdeclares, hrepeat⟩ :=
    leastNumbers_visitModule (h := { options := {} }) anchor?_sample
  rw [Module.sitesAfter_sample] at helements hrepeat
  have hlen : bs.length = 3 := by
    rw [← List.length_map (f := Binding.element), helements]
    decide
  exact ⟨anchor?_sample, bs, tail, ns, hresult, hnames, hleast, hlen, hdeclares,
    hrepeat 1 ⟨.child, .lineBreak ⟨10, 16⟩⟩ rfl (by decide)⟩

end Hoister

end JsxHoist
