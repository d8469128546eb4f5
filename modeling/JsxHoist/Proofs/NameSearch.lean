import JsxHoist.Proofs.Lockstep
import JsxHoist.Proofs.WalkStates
import Mathlib.Data.Finset.Card
import Mathlib.Order.Bounds.Defs
import Mathlib.Order.Interval.Finset.Nat

/-!
# How far the search for a name counts

A supply looks for its next name by counting: the counter goes up by one, turn after turn, until the
name with its number is not taken. `NameSupply.search` is this loop, with the numbers that it counts
through as a further result, and `NameSupply.search_eq` says that it comes to the name and the
supply of `NameSupply.fresh`.

Nothing in the loop bounds it. It stops because numbers have different names, so that the names of
a stretch of numbers cannot all be taken unless there are as many taken names
(`sub_le_card_of_forall_numbered_mem`). This one count bounds two things:

* a **single search**, by the stretch of taken numbers that it passes over
  (`NameSupply.length_search_le`);
* the **counter along a walk**, by all the numbers up to it. Their names are taken, either by the
  module or by a binding (`Scope.Spent`), so that what one search passes over is paid for only once
  in the walk, however many searches there are (`Scope.Spent.counter_le`).

So a counter of fixed width never wraps around in a walk if it can hold the second bound
(`Hoister.toNat_add_one_of_mem_counted`).
-/

namespace JsxHoist

/-- If the names of all numbers of a stretch are taken, there are as many taken names. -/
theorem sub_le_card_of_forall_numbered_mem {stem : String} {taken : List String} {a b : Nat}
    (h : ∀ n, a < n → n ≤ b → numbered stem n ∈ taken) : b - a ≤ taken.toFinset.card := by
  have hmaps : ∀ n ∈ Finset.Ioc a b, numbered stem n ∈ taken.toFinset := by
    intro n hn
    rw [Finset.mem_Ioc] at hn
    exact List.mem_toFinset.2 (h n hn.1 hn.2)
  have hinj : Set.InjOn (numbered stem) (Finset.Ioc a b) := fun _ _ _ _ heq =>
    numbered_injective heq
  have hcard := Finset.card_le_card_of_injOn (numbered stem) hmaps hinj
  rwa [Nat.card_Ioc] at hcard

/-! ### A single search -/

namespace NameSupply

/-- The next number is the least one after the counter whose name is not taken. -/
theorem isLeast_next (s : NameSupply) :
    IsLeast {n | s.counter < n ∧ numbered s.stem n ∉ s.taken} s.next := by
  refine ⟨⟨s.counter_lt_next, s.free_next⟩, fun n hn => ?_⟩
  obtain ⟨hlt, hfree⟩ := hn
  by_contra hnext
  exact not_free_of_lt_next hlt (by omega) hfree

/-- The supply with its counter one up. -/
def countUp (s : NameSupply) : NameSupply :=
  { s with counter := s.counter + 1 }

/-- A number whose name is taken can be passed over. -/
theorem next_countUp {s : NameSupply} (h : numbered s.stem (s.counter + 1) ∈ s.taken) :
    s.countUp.next = s.next := by
  have hne : s.counter + 1 ≠ s.next := fun heq => s.free_next (heq ▸ h)
  have hlt : s.counter < s.next := s.counter_lt_next
  have hcounter : s.countUp.counter = s.counter + 1 := rfl
  refine next_eq_of_forall_not_free (by omega) s.free_next fun k hk hk' => ?_
  exact not_free_of_lt_next (s := s) (by omega) hk'

/-- **The search, turn by turn**: the counter goes up by one, and the name with its number is handed
out unless it is taken. The results are the numbers that are counted through, the name, and the
supply afterwards. -/
def search (s : NameSupply) : List Nat × String × NameSupply :=
  let n := s.counter + 1
  let name := numbered s.stem n
  if name ∈ s.taken then
    let (ns, found) := s.countUp.search
    (n :: ns, found)
  else
    ([n], name, { s.countUp with taken := name :: s.taken })
termination_by s.next - s.counter
decreasing_by
  have hnext : s.countUp.next = s.next := next_countUp ‹_›
  have hcounter : s.countUp.counter = s.counter + 1 := rfl
  have hlt : s.counter < s.next := s.counter_lt_next
  omega

theorem fresh_countUp {s : NameSupply} (h : numbered s.stem (s.counter + 1) ∈ s.taken) :
    s.countUp.fresh = s.fresh := by
  rw [fresh, next_countUp h]
  rfl

/-- **The search is the choice of the next name**: it counts up to the next number, one by one, and
comes to the name with that number. -/
theorem search_eq (s : NameSupply) :
    s.search = (List.range' (s.counter + 1) (s.next - s.counter), s.fresh) := by
  fun_induction search s with
  | case1 s n name htaken ns found heq ih =>
    -- the rest of the search starts one number higher and ends at the same
    have hlt : s.countUp.counter < s.countUp.next := s.countUp.counter_lt_next
    rw [next_countUp htaken] at ih hlt
    rw [heq, fresh_countUp htaken, Prod.mk.injEq] at ih
    obtain ⟨rfl, rfl⟩ := ih
    have hcounter : s.countUp.counter = s.counter + 1 := rfl
    have hlength : s.next - s.counter = s.next - s.countUp.counter + 1 := by omega
    rw [hlength, List.range'_succ, hcounter]
  | case2 s n name hfree =>
    have hnext : s.next = s.counter + 1 :=
      next_eq_of_forall_not_free (Nat.lt_succ_self _) hfree fun k hk hk' => by omega
    have hlength : s.next - s.counter = 1 := by omega
    rw [hlength, List.range'_one, fresh, hnext]
    rfl

/-- **A search is over after as many turns as there are taken names, and one more.** -/
theorem length_search_le (s : NameSupply) :
    s.search.1.length ≤ s.taken.toFinset.card + 1 := by
  have htaken : ∀ n, s.counter < n → n ≤ s.next - 1 → numbered s.stem n ∈ s.taken := by
    intro n hn hle
    have hlt : s.counter < s.next := s.counter_lt_next
    exact not_not.1 (not_free_of_lt_next hn (by omega))
  have hcard := sub_le_card_of_forall_numbered_mem htaken
  rw [search_eq, List.length_range']
  omega

/-- Handing out a name adds one to the names that are taken. -/
theorem card_taken_fresh (s : NameSupply) :
    s.fresh.2.taken.toFinset.card = s.taken.toFinset.card + 1 := by
  rw [taken_fresh, List.toFinset_cons, Finset.card_insert_of_notMem]
  rw [List.mem_toFinset]
  exact s.fresh_notMem_taken

/-- A supply is **used up** to its counter when no number up to it is left. -/
def UsedUp (s : NameSupply) : Prop :=
  ∀ n, 0 < n → n ≤ s.counter → numbered s.stem n ∈ s.taken

namespace UsedUp

variable {s : NameSupply}

/-- The step: the numbers that a search passes over are taken, and so is the one that it finds,
from then on. -/
theorem fresh (h : s.UsedUp) : s.fresh.2.UsedUp := by
  intro n hpos hle
  have hn : n ≤ s.next := hle
  have hmem : numbered s.stem n ∈ s.fresh.1 :: s.taken := by
    rcases Nat.lt_or_ge s.counter n with hlt | hge
    · rcases Nat.lt_or_eq_of_le hn with hbetween | rfl
      · exact List.mem_cons_of_mem _ (not_not.1 (not_free_of_lt_next hlt hbetween))
      · exact List.mem_cons_self
    · exact List.mem_cons_of_mem _ (h n hpos hge)
  exact hmem

theorem counter_le (h : s.UsedUp) : s.counter ≤ s.taken.toFinset.card :=
  sub_le_card_of_forall_numbered_mem (a := 0) h

end UsedUp

end NameSupply

/-! ### The searches of a walk -/

namespace Scope

/-- The numbers that binding an element counts through: those of a search, unless the element is
found. -/
def counted (s : Scope) (element : Tree) : List Nat :=
  match element.identity?.bind s.registry.get? with
  | some _ => []
  | none => s.names.search.1

/-- The numbers that binding a list of elements counts through, one element after the other. -/
def countedAll (s : Scope) : List Tree → List Nat
  | [] => []
  | e :: es => s.counted e ++ (s.bind e).2.countedAll es

/-- Binding an element never takes the counter back. -/
theorem counter_le_bind (s : Scope) (e : Tree) :
    s.names.counter ≤ (s.bind e).2.names.counter := by
  rcases s.boundNames_bind e with hsame | ⟨-, hnames, -⟩
  · rw [hsame]
  · rw [hnames]
    exact Nat.le_of_lt s.names.counter_lt_next

theorem counter_le_bindAll (s : Scope) (es : List Tree) :
    s.names.counter ≤ (s.bindAll es).2.names.counter := by
  induction es generalizing s with
  | nil => exact Nat.le_refl _
  | cons e es ih => exact Nat.le_trans (s.counter_le_bind e) (ih _)

/-- Binding an element counts from the counter before it to the counter after it. -/
theorem counted_eq (s : Scope) (e : Tree) :
    s.counted e =
      List.range' (s.names.counter + 1) ((s.bind e).2.names.counter - s.names.counter) := by
  rcases s.bind_cases e with ⟨id, b, hid, hget, hbind⟩ | ⟨hnew, hbind⟩
  · have hfound : e.identity?.bind s.registry.get? = some b := by
      rw [hid, Option.bind_some, hget]
    rw [counted, hfound, hbind, Nat.sub_self]
    rfl
  · have hnone : e.identity?.bind s.registry.get? = none := by
      rw [Option.bind_eq_none_iff]
      exact hnew
    rw [counted, hnone, hbind, NameSupply.search_eq]
    rfl

/-- Binding a list of elements counts on from search to search, with no number left out or counted
again. -/
theorem countedAll_eq (s : Scope) (es : List Tree) :
    s.countedAll es =
      List.range' (s.names.counter + 1) ((s.bindAll es).2.names.counter - s.names.counter) := by
  induction es generalizing s with
  | nil =>
    rw [bindAll_nil, Nat.sub_self]
    rfl
  | cons e es ih =>
    have hfirst : s.names.counter ≤ (s.bind e).2.names.counter := s.counter_le_bind e
    have hrest := (s.bind e).2.counter_le_bindAll es
    have hstart : (s.bind e).2.names.counter + 1 =
        s.names.counter + 1 + 1 * ((s.bind e).2.names.counter - s.names.counter) := by omega
    have hlength : (s.bind e).2.names.counter - s.names.counter +
        (((s.bind e).2.bindAll es).2.names.counter - (s.bind e).2.names.counter) =
        ((s.bind e).2.bindAll es).2.names.counter - s.names.counter := by omega
    rw [countedAll, ih, counted_eq, hstart, List.range'_append, hlength, bindAll_cons]

/-- A scope has **spent** its numbers when each one up to its counter is taken, and the names that
are taken are as many as at the start and the bindings made since. -/
structure Spent (s : Scope) (start : Nat) : Prop where
  usedUp : s.names.UsedUp
  card_taken : s.names.taken.toFinset.card = start + s.registry.size

namespace Spent

variable {s : Scope} {start : Nat}

/-- **The step**: binding an element makes a binding for each name that it takes. -/
theorem bind (h : s.Spent start) (e : Tree) : (s.bind e).2.Spent start := by
  rcases s.bind_cases e with ⟨id, b, -, -, hbind⟩ | ⟨-, hbind⟩
  · rw [hbind]
    exact h
  · rw [hbind]
    refine ⟨h.usedUp.fresh, ?_⟩
    rw [NameSupply.card_taken_fresh, Registry.size_insert, h.card_taken, Nat.add_assoc]

theorem counter_le (h : s.Spent start) : s.names.counter ≤ start + s.registry.size := by
  have hle := h.usedUp.counter_le
  rwa [h.card_taken] at hle

end Spent

end Scope

/-! ### Modules -/

namespace Hoister

variable (h : Hoister) (m : Module) (i : Nat)

/-- The numbers that the walk over the items behind an item of a module counts through, in all its
searches for names. -/
def counted : List Nat :=
  (h.moduleScope m).countedAll ((m.sitesAfter i).map Site.element)

/-- The walk counts `1`, `2`, … up to the counter that it ends with. -/
theorem counted_eq : h.counted m i = List.range' 1 (h.walk m i).2.names.counter := by
  rw [counted, Scope.countedAll_eq, walk_eq]
  rfl

/-- Before the walk nothing is counted, and as many names are taken as the module has words. -/
theorem spent_moduleScope : (h.moduleScope m).Spent m.words.toFinset.card := by
  refine ⟨fun n hpos hle => ?_, rfl⟩
  have hzero : n ≤ 0 := hle
  omega

/-- **The run**: the numbers up to the counter are spent in every scope of the walk. -/
theorem spent_of_mem_scopes {h : Hoister} {m : Module} {i : Nat} {s : Scope}
    (hs : s ∈ h.scopes m i) : s.Spent m.words.toFinset.card := by
  rw [scopes_eq] at hs
  exact Scope.forall_mem_states (P := fun t => t.Spent m.words.toFinset.card)
    (fun t e _ ht => ht.bind e) (h.spent_moduleScope m) s hs

theorem counter_walk_le :
    (h.walk m i).2.names.counter ≤ m.words.toFinset.card + (h.bindings m i).length := by
  have hlast : (h.walk m i).2 ∈ h.scopes m i := List.mem_of_getLast? (h.getLast?_scopes m i)
  exact (spent_of_mem_scopes hlast).counter_le

/-- A counter of `w` bits that can hold the number of different words and of bindings of a module
never wraps around in the walk. -/
theorem toNat_add_one_of_mem_counted {h : Hoister} {m : Module} {i w : Nat}
    (hw : m.words.toFinset.card + (h.bindings m i).length < 2 ^ w) {c : Nat}
    (hc : c + 1 ∈ h.counted m i) : (BitVec.ofNat w c + 1#w).toNat = c + 1 := by
  rw [counted_eq, List.mem_range'_1] at hc
  have hbound := h.counter_walk_le m i
  have hlt : c + 1 < 2 ^ w := by omega
  rw [BitVec.toNat_add, BitVec.toNat_ofNat, BitVec.toNat_ofNat, Nat.add_mod_mod, Nat.mod_add_mod,
    Nat.mod_eq_of_lt hlt]

/-- The supply that is left after a visit is the one that the walk ends with. -/
theorem names_visitModule {h : Hoister} {m : Module} {i : Nat}
    (hi : anchor? h.options.importSource m.body = some i) :
    (h.visitModule m).hoister.scope.names = (h.walk m i).2.names := by
  rw [visitModule_of_anchor? hi]

/-- **Every search for a name stops, and the counter stays within the words and the bindings.**

* A search, from whatever supply, counts up one by one to the least number after the counter whose
  name is not taken, in at most one turn more than there are different taken names. It hands out the
  name with that number, and nothing else becomes taken.
* While a module with an anchor at `i` is visited, the counter is never greater than the number of
  different words of the module and of the bindings made so far. All searches together count
  `1`, `2`, … up to the counter that is left after the visit, and a counter of `w` bits that can hold
  the different words and the bindings wraps around in none of these steps. -/
theorem bounded_searches :
    (∀ s : NameSupply, ∃ n,
      IsLeast {k | s.counter < k ∧ numbered s.stem k ∉ s.taken} n ∧
      s.search = (List.range' (s.counter + 1) (n - s.counter), numbered s.stem n,
        { s with taken := numbered s.stem n :: s.taken, counter := n }) ∧
      s.search.1.length ≤ s.taken.toFinset.card + 1 ∧
      s.fresh = s.search.2) ∧
    ∀ (h : Hoister) (m : Module) (i : Nat), anchor? h.options.importSource m.body = some i →
      (∀ s ∈ h.scopes m i, s.names.counter ≤ m.words.toFinset.card + s.registry.size) ∧
      h.counted m i = List.range' 1 (h.visitModule m).hoister.scope.names.counter ∧
      ∀ w, m.words.toFinset.card + (h.bindings m i).length < 2 ^ w →
        ∀ c, c + 1 ∈ h.counted m i → (BitVec.ofNat w c + 1#w).toNat = c + 1 := by
  constructor
  · intro s
    refine ⟨s.next, s.isLeast_next, s.search_eq, s.length_search_le, ?_⟩
    rw [s.search_eq]
  · intro h m i hi
    refine ⟨fun s hs => (spent_of_mem_scopes hs).counter_le, ?_, ?_⟩
    · rw [counted_eq, names_visitModule hi]
    · intro w hw c hc
      exact toNat_add_one_of_mem_counted hw hc

/-- In the sample the first number is used, so that three bindings take the counter to `4`. With the
four different words that makes `7`, for which three bits are enough. -/
theorem bounded_searches_sample :
    anchor? "react" Module.sample.body = some 0 ∧
      ({ options := {} } : Hoister).counted Module.sample 0 = [1, 2, 3, 4] ∧
      Module.sample.words.toFinset.card +
        (({ options := {} } : Hoister).bindings Module.sample 0).length < 2 ^ 3 ∧
      (BitVec.ofNat 3 3 + 1#3).toNat = 4 := by
  obtain ⟨-, hwalks⟩ := bounded_searches
  obtain ⟨-, hcounted, hwords⟩ := hwalks { options := {} } Module.sample 0 anchor?_sample
  have hcounter : (({ options := {} } : Hoister).visitModule
      Module.sample).hoister.scope.names.counter = 4 := by
    decide +kernel
  have hfits : Module.sample.words.toFinset.card +
      (({ options := {} } : Hoister).bindings Module.sample 0).length < 2 ^ 3 := by
    decide +kernel
  rw [hcounter] at hcounted
  have hlast : 3 + 1 ∈ ({ options := {} } : Hoister).counted Module.sample 0 := by
    rw [hcounted]
    decide
  exact ⟨anchor?_sample, hcounted, hfits, hwords 3 hfits 3 hlast⟩

end Hoister

end JsxHoist
