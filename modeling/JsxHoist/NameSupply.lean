/-!
# Fresh names

A name supply hands out the names `stem_1`, `stem_2`, …, leaving out those that are taken. Names of
different numbers differ (`numbered_injective`), so among one more numbers than there are taken
names one is free (`NameSupply.exists_free`), and the search for it needs to look no further.
-/

namespace JsxHoist

/-- The name with the given number. -/
def numbered (stem : String) (n : Nat) : String :=
  stem ++ "_" ++ toString n

theorem numbered_injective {stem : String} {m n : Nat} (h : numbered stem m = numbered stem n) :
    m = n := by
  have hl : (toString m).toList = (toString n).toList := by
    simpa [numbered, String.append_assoc] using congrArg String.toList h
  have hd : Nat.toDigits 10 m = Nat.toDigits 10 n := by
    simpa only [Nat.toString_eq_repr, Nat.toList_repr] using hl
  simpa using congrArg (Nat.ofDigitChars 10 · 0) hd

/-- The names of as many numbers as a list is longer than another cannot all be in the other. -/
private theorem length_le_of_forall_numbered_mem {stem : String} {ns : List Nat}
    {taken : List String} (hns : ns.Nodup) (h : ∀ n ∈ ns, numbered stem n ∈ taken) :
    ns.length ≤ taken.length := by
  induction ns generalizing taken with
  | nil => simp
  | cons n ns ih =>
    rw [List.nodup_cons] at hns
    have hn := h n (by simp)
    have hrest : ∀ m ∈ ns, numbered stem m ∈ taken.erase (numbered stem n) := fun m hm =>
      have hne : numbered stem m ≠ numbered stem n := fun he =>
        hns.1 (numbered_injective he ▸ hm)
      (List.mem_erase_of_ne hne).2 (h m (by simp [hm]))
    have hle := ih hns.2 hrest
    rw [List.length_erase_of_mem hn] at hle
    have := List.length_pos_of_mem hn
    simp only [List.length_cons]
    omega

/-- A supply of numbered names. -/
structure NameSupply where
  /-- What every name starts with. -/
  stem : String := ""
  /-- The names that must not be handed out. -/
  taken : List String := []
  /-- The number of the last name handed out. -/
  counter : Nat := 0
deriving Repr, Inhabited

namespace NameSupply

/-- The numbers among which the next one is found. -/
def candidates (s : NameSupply) : List Nat :=
  List.range' (s.counter + 1) (s.taken.length + 1)

/-- Is the name with the number free? -/
def Free (s : NameSupply) (n : Nat) : Prop :=
  numbered s.stem n ∉ s.taken

instance (s : NameSupply) (n : Nat) : Decidable (s.Free n) :=
  inferInstanceAs (Decidable (¬ _))

theorem exists_free (s : NameSupply) : ∃ n ∈ s.candidates, s.Free n := by
  refine Classical.byContradiction fun hno => ?_
  have hall : ∀ n ∈ s.candidates, numbered s.stem n ∈ s.taken := fun n hn =>
    Classical.byContradiction fun h => hno ⟨n, hn, h⟩
  have := length_le_of_forall_numbered_mem List.nodup_range' hall
  rw [List.length_range'] at this
  omega

theorem isSome_find?_candidates (s : NameSupply) :
    (s.candidates.find? fun n => s.Free n).isSome := by
  simpa using s.exists_free

/-- The number of the next name: the least free one after the counter. -/
def next (s : NameSupply) : Nat :=
  (s.candidates.find? fun n => s.Free n).get s.isSome_find?_candidates

theorem find?_candidates (s : NameSupply) :
    (s.candidates.find? fun n => s.Free n) = some s.next := by
  simp [next]

/-- The next name is free. -/
theorem free_next (s : NameSupply) : s.Free s.next := by
  simpa using List.find?_some s.find?_candidates

theorem next_mem_candidates (s : NameSupply) : s.next ∈ s.candidates :=
  List.mem_of_find?_eq_some s.find?_candidates

theorem counter_lt_next (s : NameSupply) : s.counter < s.next := by
  have := s.next_mem_candidates
  simp only [candidates, List.mem_range'_1] at this
  omega

theorem next_le (s : NameSupply) : s.next ≤ s.counter + s.taken.length + 1 := by
  have := s.next_mem_candidates
  simp only [candidates, List.mem_range'_1] at this
  omega

/-- No number between the counter and the next one is free. -/
theorem not_free_of_lt_next {s : NameSupply} {n : Nat} (hn : s.counter < n) (hlt : n < s.next) :
    ¬ s.Free n := by
  obtain ⟨-, before, after, hsplit, hbefore⟩ := List.find?_eq_some_iff_append.1 s.find?_candidates
  have hmem : n ∈ s.candidates := by
    have := s.next_le
    simp only [candidates, List.mem_range'_1]
    omega
  have hsorted : s.candidates.Pairwise (· < ·) := List.pairwise_lt_range'
  rw [hsplit, List.mem_append, List.mem_cons] at hmem
  rw [hsplit, List.pairwise_append, List.pairwise_cons] at hsorted
  rcases hmem with hmem | rfl | hmem
  · simpa using hbefore n hmem
  · omega
  · have := hsorted.2.1.1 n hmem
    omega

/-- Hands out the next name, which is taken from then on. -/
def fresh (s : NameSupply) : String × NameSupply :=
  let name := numbered s.stem s.next
  (name, { s with taken := name :: s.taken, counter := s.next })

end NameSupply

end JsxHoist
