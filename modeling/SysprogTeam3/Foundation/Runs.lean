import Mathlib.Tactic.ByContra

/-!
# Runs of partial step functions

A labelled transition system is a function `step : σ → ε → Option σ`, where
`none` means that the event is not possible in that state.  This file gives
finite runs over a list of events, what it means that every step or every
state of a run has a property, and the induction rules that lift a one-step
argument to whole runs.  Nothing here depends on a particular system.
-/

namespace SysprogTeam3.Foundation

variable {σ ε : Type}

/-- Execute a list of events; `none` when one of them is not possible. -/
def run (step : σ → ε → Option σ) : σ → List ε → Option σ
  | s, [] => some s
  | s, e :: events => (step s e).bind fun s' => run step s' events

/-- Every step of the run from `s` is taken in a state and with an event
related by `C`. -/
def AllSteps (step : σ → ε → Option σ) (C : σ → ε → Prop) : σ → List ε → Prop
  | _, [] => True
  | s, e :: events =>
      C s e ∧ ∀ s', step s e = some s' → AllSteps step C s' events

/-- `P` holds in every state that the run from `s` visits, both ends included. -/
def AllStates (step : σ → ε → Option σ) (P : σ → Prop) : σ → List ε → Prop
  | s, [] => P s
  | s, e :: events =>
      P s ∧ ∀ s', step s e = some s' → AllStates step P s' events

instance AllSteps.decidable (step : σ → ε → Option σ) (C : σ → ε → Prop)
    [∀ s e, Decidable (C s e)] :
    ∀ s events, Decidable (AllSteps step C s events)
  | _, [] => isTrue trivial
  | s, e :: events =>
      match hnext : step s e with
      | none => decidable_of_iff (C s e) (by simp [AllSteps, hnext])
      | some next =>
          have := AllSteps.decidable step C next events
          decidable_of_iff (C s e ∧ AllSteps step C next events)
            (by simp [AllSteps, hnext])

variable {step : σ → ε → Option σ}

theorem exists_of_any {x : Option σ} {P : σ → Prop} [DecidablePred P]
    (h : (x.any fun s => decide (P s)) = true) : ∃ s, x = some s ∧ P s := by
  obtain ⟨s, hs, hP⟩ := (Option.any_eq_true _ x).mp h
  exact ⟨s, hs, of_decide_eq_true hP⟩

@[simp] theorem run_nil (s : σ) : run step s [] = some s := rfl

theorem run_cons_eq_some {s s' : σ} {e : ε} {events : List ε} :
    run step s (e :: events) = some s' ↔
      ∃ next, step s e = some next ∧ run step next events = some s' := by
  simp [run, Option.bind_eq_some_iff]

theorem run_append (s : σ) (first second : List ε) :
    run step s (first ++ second) =
      (run step s first).bind fun s' => run step s' second := by
  induction first generalizing s with
  | nil => rfl
  | cons e first ih =>
      simp only [List.cons_append, run]
      cases step s e with
      | none => rfl
      | some next => exact ih next

theorem run_append_eq_some {s s' : σ} {first second : List ε} :
    run step s (first ++ second) = some s' ↔
      ∃ middle, run step s first = some middle ∧
        run step middle second = some s' := by
  rw [run_append, Option.bind_eq_some_iff]

/--
The invariant rule.  An invariant that every step meeting `C` preserves holds
at the end of every run whose steps all meet `C`.
-/
theorem run_invariant {Inv : σ → Prop} {C : σ → ε → Prop}
    (hstep : ∀ s e s', Inv s → C s e → step s e = some s' → Inv s')
    {s s' : σ} {events : List ε} (hs : Inv s)
    (hC : AllSteps step C s events) (hrun : run step s events = some s') :
    Inv s' := by
  induction events generalizing s with
  | nil =>
      simp only [run_nil, Option.some.injEq] at hrun
      exact hrun ▸ hs
  | cons e events ih =>
      obtain ⟨next, hnext, hrest⟩ := run_cons_eq_some.mp hrun
      exact ih (hstep s e next hs hC.1 hnext) (hC.2 next hnext) hrest

theorem AllSteps.of_append {C : σ → ε → Prop} {s : σ} {first second : List ε}
    (h : AllSteps step C s (first ++ second)) :
    AllSteps step C s first ∧
      ∀ s', run step s first = some s' → AllSteps step C s' second := by
  induction first generalizing s with
  | nil => exact ⟨trivial, fun s' hs' => Option.some.inj hs' ▸ h⟩
  | cons e first ih =>
      refine ⟨⟨h.1, fun next hnext => (ih (h.2 next hnext)).1⟩, fun s' hrun => ?_⟩
      obtain ⟨next, hnext, hrest⟩ := run_cons_eq_some.mp hrun
      exact (ih (h.2 next hnext)).2 s' hrest

theorem AllSteps.after {C : σ → ε → Prop} {s s' : σ} (first : List ε) {rest : List ε}
    {e : ε} (h : AllSteps step C s (first ++ e :: rest)) (hrun : run step s first = some s') :
    C s' e :=
  (h.of_append.2 s' hrun).1

theorem AllSteps.of_forall {C : σ → ε → Prop} (h : ∀ s e, C s e) (s : σ)
    (events : List ε) : AllSteps step C s events := by
  induction events generalizing s with
  | nil => trivial
  | cons e events ih => exact ⟨h s e, fun s' _ => ih s'⟩

theorem AllSteps.congr {C D : σ → ε → Prop} (h : ∀ s e, C s e ↔ D s e) {s : σ}
    {events : List ε} : AllSteps step C s events ↔ AllSteps step D s events := by
  induction events generalizing s with
  | nil => exact Iff.rfl
  | cons e events ih =>
      constructor
      · exact fun hC => ⟨(h s e).mp hC.1, fun s' hs' => ih.mp (hC.2 s' hs')⟩
      · exact fun hD => ⟨(h s e).mpr hD.1, fun s' hs' => ih.mpr (hD.2 s' hs')⟩

/--
The step rule.  Under an invariant kept by the steps that meet `C`, a property
of single steps that follows from the invariant and `C` holds of every step.
-/
theorem AllSteps.of_invariant {Inv : σ → Prop} {C P : σ → ε → Prop}
    (hstep : ∀ s e s', Inv s → C s e → step s e = some s' → Inv s')
    (hP : ∀ s e, Inv s → C s e → P s e)
    {s : σ} {events : List ε} (hs : Inv s) (hC : AllSteps step C s events) :
    AllSteps step P s events := by
  induction events generalizing s with
  | nil => trivial
  | cons e events ih =>
      refine ⟨hP s e hs hC.1, fun s' hs' => ?_⟩
      exact ih (hstep s e s' hs hC.1 hs') (hC.2 s' hs')

/--
The exactness rule.  Suppose the steps meeting `C` keep an invariant that
implies `P`, and that a possible step from the invariant has `Q` and leads to a
state with `P` exactly when it meets `C`.  Then the runs all of whose states
have `P` and all of whose steps have `Q` are exactly the runs all of whose steps
meet `C`.
-/
theorem allStates_and_allSteps_iff {Inv P : σ → Prop} {C Q : σ → ε → Prop}
    (hP : ∀ s, Inv s → P s)
    (hstep : ∀ s e s', Inv s → C s e → step s e = some s' → Inv s')
    (hexact : ∀ s e s', Inv s → step s e = some s' → (Q s e ∧ P s' ↔ C s e))
    {s s' : σ} {events : List ε} (hs : Inv s)
    (hrun : run step s events = some s') :
    AllStates step P s events ∧ AllSteps step Q s events ↔
      AllSteps step C s events := by
  induction events generalizing s with
  | nil => exact ⟨fun _ => trivial, fun _ => ⟨hP s hs, trivial⟩⟩
  | cons e events ih =>
      obtain ⟨next, hnext, hrest⟩ := run_cons_eq_some.mp hrun
      constructor
      · rintro ⟨⟨-, hstates⟩, hQ, hsteps⟩
        have hnextP : P next := by
          cases events with
          | nil => exact hstates next hnext
          | cons _ _ => exact (hstates next hnext).1
        have hC : C s e := (hexact s e next hs hnext).mp ⟨hQ, hnextP⟩
        refine ⟨hC, fun t ht => ?_⟩
        obtain rfl : next = t := Option.some.inj (hnext.symm.trans ht)
        exact (ih (hstep s e next hs hC hnext) hrest).mp ⟨hstates next ht, hsteps next ht⟩
      · rintro ⟨hC, hsteps⟩
        have hall := (ih (hstep s e next hs hC hnext) hrest).mpr (hsteps next hnext)
        have hQ : Q s e := ((hexact s e next hs hnext).mpr hC).1
        refine ⟨⟨hP s hs, fun t ht => ?_⟩, hQ, fun t ht => ?_⟩ <;>
          obtain rfl : next = t := Option.some.inj (hnext.symm.trans ht)
        · exact hall.1
        · exact hall.2

theorem allStates_iff_allSteps {Inv P : σ → Prop} {C : σ → ε → Prop}
    (hP : ∀ s, Inv s → P s)
    (hstep : ∀ s e s', Inv s → C s e → step s e = some s' → Inv s')
    (hbreak : ∀ s e s', Inv s → ¬ C s e → step s e = some s' → ¬ P s')
    {s s' : σ} {events : List ε} (hs : Inv s)
    (hrun : run step s events = some s') :
    AllStates step P s events ↔ AllSteps step C s events := by
  have hexact : ∀ s e s', Inv s → step s e = some s' → (True ∧ P s' ↔ C s e) := by
    intro s e s' hs hnext
    refine ⟨fun h => ?_, fun hC => ⟨trivial, hP s' (hstep s e s' hs hC hnext)⟩⟩
    by_contra hC
    exact hbreak s e s' hs hC hnext h.2
  have hboth := allStates_and_allSteps_iff (Q := fun _ _ => True) hP hstep hexact hs hrun
  exact ⟨fun h => hboth.mp ⟨h, .of_forall (fun _ _ => trivial) _ _⟩,
    fun h => (hboth.mpr h).1⟩

end SysprogTeam3.Foundation
