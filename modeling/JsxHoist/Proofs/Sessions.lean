import JsxHoist.Proofs.ModuleWalk

/-!
# Sessions

A hoister can visit one program after another (`Hoister.session`), and what it has in its scope
differs from visit to visit: a module with an anchor leaves its supply of names behind, and scripts
and modules without an anchor leave the scope as they find it. None of this shows. A visit reads the
options and the source of the hoister only (`Hoister.outcome_visitProgram`) and keeps both
(`Hoister.settings_visitProgram`), so every program of a session comes out as if it were visited by
a new hoister (`Hoister.session_carries_nothing`).
-/

namespace JsxHoist

/-- What a visit shows to the outside: what was visited, as it is afterwards, and what was told. -/
def Visit.outcome {α : Type} (v : Visit α) : α × List Event :=
  (v.result, v.events)

namespace Hoister

/-- A hoister without its scope: the options, and the source if it is known. -/
def settings (h : Hoister) : Options × Option SourceMap :=
  (h.options, h.source)

/-- The visits of a list of programs, each by the hoister that the visit before it left. -/
def session (h : Hoister) : List Program → List (Visit Program)
  | [] => []
  | p :: ps => h.visitProgram p :: (h.visitProgram p).hoister.session ps

/-! ### One visit -/

/-- A visit does not read the scope. -/
theorem outcome_visitProgram {h h' : Hoister} (heq : h.settings = h'.settings) (p : Program) :
    (h.visitProgram p).outcome = (h'.visitProgram p).outcome := by
  obtain ⟨o, source, s⟩ := h
  obtain ⟨o', source', s'⟩ := h'
  obtain ⟨rfl, rfl⟩ : o = o' ∧ source = source' := Prod.mk.inj heq
  cases p with
  | script content => rfl
  | module m =>
    cases hi : anchor? o.importSource m.body with
    | none =>
      rw [visitProgram, visitProgram, visitModule_of_anchor?_eq_none (h := ⟨o, source, s⟩) hi,
        visitModule_of_anchor?_eq_none (h := ⟨o, source, s'⟩) hi]
      rfl
    | some i =>
      -- the module is walked in a scope of its own, and the report is on what that scope holds
      have hwalk : walk ⟨o, source, s⟩ m i = walk ⟨o, source, s'⟩ m i := rfl
      rw [visitProgram, visitProgram, visitModule_of_anchor? (h := ⟨o, source, s⟩) hi,
        visitModule_of_anchor? (h := ⟨o, source, s'⟩) hi]
      simp only [Visit.outcome, declarations, bindings, tail, hwalk]
      rfl

/-- A visit changes nothing but the scope. -/
theorem settings_visitProgram (h : Hoister) (p : Program) :
    (h.visitProgram p).hoister.settings = h.settings := by
  cases p with
  | script content => rfl
  | module m =>
    cases hi : anchor? h.options.importSource m.body with
    | none => rw [visitProgram, visitModule_of_anchor?_eq_none hi]
    | some i =>
      rw [visitProgram, visitModule_of_anchor? hi]
      rfl

/-- The bindings made for a module are forgotten when they have been declared. -/
theorem registry_visitProgram {h : Hoister} {m : Module}
    (hi : (anchor? h.options.importSource m.body).isSome) :
    (h.visitProgram (.module m)).hoister.scope.registry = {} := by
  obtain ⟨i, hi⟩ := Option.isSome_iff_exists.1 hi
  rw [visitProgram, visitModule_of_anchor? hi]

/-! ### All visits of a session -/

/-- Every visit of a session shows what a visit by any hoister with the same settings shows. -/
theorem outcomes_session {h h' : Hoister} (heq : h.settings = h'.settings) (ps : List Program) :
    (h.session ps).map Visit.outcome = ps.map fun p => (h'.visitProgram p).outcome := by
  induction ps generalizing h with
  | nil => rfl
  | cons p ps ih =>
    rw [session, List.map_cons, List.map_cons, outcome_visitProgram heq,
      ih ((h.settings_visitProgram p).trans heq)]

/-- Each visit of a session is a visit by a hoister with the same settings. -/
theorem exists_visitor_of_getElem?_session {h : Hoister} {ps : List Program} {k : Nat}
    {v : Visit Program} {p : Program} (hv : (h.session ps)[k]? = some v) (hp : ps[k]? = some p) :
    ∃ h' : Hoister, h'.settings = h.settings ∧ v = h'.visitProgram p := by
  induction ps generalizing h k with
  | nil => simp at hp
  | cons q ps ih =>
    cases k with
    | zero =>
      obtain rfl : q = p := by simpa using hp
      obtain rfl : h.visitProgram q = v := by simpa [session] using hv
      exact ⟨h, rfl, rfl⟩
    | succ k =>
      obtain ⟨h', hsettings, rfl⟩ := ih (by simpa [session] using hv) (by simpa using hp)
      exact ⟨h', hsettings.trans (h.settings_visitProgram q), rfl⟩

/-- **A hoister carries nothing from one program to the next.** Whatever its scope holds at the
start, bindings or a supply of names with any stem, taken names and counter, each program of a
session becomes what a new hoister with the same options and source makes of it, and with the same
events; and after every module with an anchor the registry is empty. -/
theorem session_carries_nothing (o : Options) (source : Option SourceMap) (s : Scope)
    (ps : List Program) :
    (session ⟨o, source, s⟩ ps).map Visit.outcome =
        ps.map (fun p => (visitProgram { options := o, source } p).outcome) ∧
      ∀ (k : Nat) (v : Visit Program) (m : Module), (session ⟨o, source, s⟩ ps)[k]? = some v →
        ps[k]? = some (.module m) → (anchor? o.importSource m.body).isSome →
        v.hoister.scope.registry = {} := by
  have hsame : settings ⟨o, source, s⟩ = settings { options := o, source } := rfl
  refine ⟨outcomes_session hsame ps, ?_⟩
  intro k v m hv hp hi
  obtain ⟨h, hsettings, rfl⟩ := exists_visitor_of_getElem?_session hv hp
  obtain ⟨rfl, -⟩ : h.options = o ∧ h.source = source := Prod.mk.inj hsettings
  exact registry_visitProgram hi

/-- The sample after a script and a module without an import, by a hoister that knows a line break
with the span of those in the sample and has names of its own. -/
theorem session_carries_nothing_sample :
    let leftover : Scope :=
      { registry := Registry.insert {} (some ⟨10, 16⟩) ⟨"stale_7", .lineBreak ⟨10, 16⟩⟩
        names := { stem := "stale", taken := ["stale_7"], counter := 7 } }
    let visits := session ⟨{ verbose := true }, none, leftover⟩
      [.script .null, .module { body := [] }, .module Module.sample]
    visits.map Visit.outcome =
        [.script .null, .module { body := [] }, .module Module.sample].map
          (fun p => (visitProgram { options := { verbose := true } } p).outcome) ∧
      ∀ v : Visit Program, visits[2]? = some v → v.hoister.scope.registry = {} := by
  intro leftover visits
  obtain ⟨houtcomes, hregistry⟩ := session_carries_nothing { verbose := true } none leftover
    [.script .null, .module { body := [] }, .module Module.sample]
  exact ⟨houtcomes, fun v hv => hregistry 2 v Module.sample hv rfl (by decide)⟩

end Hoister

end JsxHoist
