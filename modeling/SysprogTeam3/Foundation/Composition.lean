import SysprogTeam3.Foundation.Simulation

/-!
# A component in its environment

The environment takes what a step of the component shows, in order, and has steps of
its own.  A component that matches the steps of another and shows the same can stand
in for it in every environment.
-/

namespace SysprogTeam3.Foundation

variable {σ τ κ ε γ δ η : Type}

/-- The component takes an event, and the environment what that shows; or the
environment takes an event of its own. -/
def composed (step : σ → ε → Option σ) (label : σ → ε → List δ) (react : κ → δ → Option κ)
    (own : κ → η → Option κ) (s : σ × κ) : ε ⊕ η → Option (σ × κ)
  | .inl e =>
      (step s.1 e).bind fun next => (run react s.2 (label s.1 e)).map fun k => (next, k)
  | .inr e => (own s.2 e).map fun k => (s.1, k)

def componentLabel (label : σ → ε → List δ) (s : σ × κ) : ε ⊕ η → List δ
  | .inl e => label s.1 e
  | .inr _ => []

def OnComponent (C : σ → ε → Prop) (s : σ × κ) : ε ⊕ η → Prop
  | .inl e => C s.1 e
  | .inr _ => True

instance (C : σ → ε → Prop) [∀ s e, Decidable (C s e)] (s : σ × κ) (e : ε ⊕ η) :
    Decidable (OnComponent C s e) :=
  match e with
  | .inl e => inferInstanceAs (Decidable (C s.1 e))
  | .inr _ => isTrue trivial

variable {step : σ → ε → Option σ} {label : σ → ε → List δ} {react : κ → δ → Option κ}
  {own : κ → η → Option κ}

theorem composed_inl {s s' : σ} {k k' : κ} {e : ε} :
    composed step label react own (s, k) (.inl e) = some (s', k') ↔
      step s e = some s' ∧ run react k (label s e) = some k' := by
  simp [composed, Option.bind_eq_some_iff]

theorem composed_inr {s s' : σ} {k k' : κ} {e : η} :
    composed step label react own (s, k) (.inr e) = some (s', k') ↔
      own k e = some k' ∧ s = s' := by
  simp [composed]

theorem run_composed {s s' : σ} {k k' : κ} {events : List ε}
    (hrun : run step s events = some s')
    (henv : run react k (observed step label s events) = some k') :
    run (composed step label react own) (s, k) (events.map .inl) = some (s', k') := by
  induction events generalizing s k with
  | nil =>
      simp only [run_nil, observed_nil, Option.some.injEq] at hrun henv
      rw [hrun, henv]
      rfl
  | cons e events ih =>
      obtain ⟨next, hnext, hrest⟩ := run_cons_eq_some.mp hrun
      rw [observed_cons hnext] at henv
      obtain ⟨middle, hfirst, hsecond⟩ := run_append_eq_some.mp henv
      exact run_cons_eq_some.mpr ⟨(next, middle), composed_inl.mpr ⟨hnext, hfirst⟩,
        ih hrest hsecond⟩

theorem observed_composed {s s' : σ} {k k' : κ} {events : List ε}
    (hrun : run step s events = some s')
    (henv : run react k (observed step label s events) = some k') :
    observed (composed step label react own) (componentLabel label) (s, k)
        (events.map .inl) = observed step label s events := by
  induction events generalizing s k with
  | nil => rfl
  | cons e events ih =>
      obtain ⟨next, hnext, hrest⟩ := run_cons_eq_some.mp hrun
      rw [observed_cons hnext] at henv ⊢
      obtain ⟨middle, hfirst, hsecond⟩ := run_append_eq_some.mp henv
      rw [List.map_cons, observed_cons (composed_inl.mpr ⟨hnext, hfirst⟩), ih hrest hsecond]
      rfl

theorem allSteps_composed {C : σ → ε → Prop} {s : σ} {k : κ} {events : List ε}
    (h : AllSteps step C s events) :
    AllSteps (composed step label react own) (OnComponent C) (s, k) (events.map .inl) := by
  induction events generalizing s k with
  | nil => trivial
  | cons e events ih =>
      refine ⟨h.1, fun next hnext => ?_⟩
      obtain ⟨s', k'⟩ := next
      exact ih (h.2 s' (composed_inl.mp hnext).1)

/--
Replacing the component.  When every step of a component is matched by a run of another
that shows the same, every run of the first in an environment is matched by a run of the
second in that environment, and the component shows the same in both.
-/
theorem composed_matched {step' : τ → γ → Option τ} {label' : τ → γ → List δ}
    {R : σ → τ → Prop} {C : σ → ε → Prop} {D : τ → γ → Prop}
    (hstep : ∀ s t e s', R s t → C s e → step s e = some s' →
      ∃ matching t', run step' t matching = some t' ∧ AllSteps step' D t matching ∧
        observed step' label' t matching = label s e ∧ R s' t')
    {s s' : σ} {t : τ} {k k' : κ} {events : List (ε ⊕ η)} (hR : R s t)
    (hC : AllSteps (composed step label react own) (OnComponent C) (s, k) events)
    (hrun : run (composed step label react own) (s, k) events = some (s', k')) :
    ∃ matching t', run (composed step' label' react own) (t, k) matching = some (t', k') ∧
      AllSteps (composed step' label' react own) (OnComponent D) (t, k) matching ∧
      observed (composed step' label' react own) (componentLabel label') (t, k) matching =
        observed (composed step label react own) (componentLabel label) (s, k) events ∧
      R s' t' := by
  have hboth : ∀ (x : σ × κ) (y : τ × κ) e x', R x.1 y.1 ∧ y.2 = x.2 → OnComponent C x e →
      composed step label react own x e = some x' →
      ∃ matching y', run (composed step' label' react own) y matching = some y' ∧
        AllSteps (composed step' label' react own) (OnComponent D) y matching ∧
        observed (composed step' label' react own) (componentLabel label') y matching =
          componentLabel label x e ∧ R x'.1 y'.1 ∧ y'.2 = x'.2 := by
    rintro ⟨s, k⟩ ⟨t, k₂⟩ e ⟨s', k'⟩ ⟨hR, hsame⟩ hC hnext
    obtain rfl : k₂ = k := hsame
    cases e with
    | inl e =>
        obtain ⟨hcomponent, hreact⟩ := composed_inl.mp hnext
        obtain ⟨first, u, hu, hD, hshown, hRu⟩ := hstep s t e s' hR hC hcomponent
        rw [← hshown] at hreact
        exact ⟨first.map .inl, (u, k'), run_composed hu hreact, allSteps_composed hD,
          (observed_composed hu hreact).trans hshown, hRu, rfl⟩
    | inr e =>
        obtain ⟨hown, rfl⟩ := composed_inr.mp hnext
        have hsame : composed step' label' react own (t, k₂) (.inr e) = some (t, k') :=
          composed_inr.mpr ⟨hown, rfl⟩
        exact ⟨[.inr e], (t, k'), run_cons_eq_some.mpr ⟨_, hsame, rfl⟩,
          ⟨trivial, fun _ _ => trivial⟩, observed_singleton _ _, hR, rfl⟩
  have hstart : R (s, k).1 (t, k).1 ∧ (t, k).2 = (s, k).2 := ⟨hR, rfl⟩
  obtain ⟨matching, ⟨t', k₂⟩, hmatching, hD, hshown, hR', hsame⟩ :=
    run_matched hboth hstart hC hrun
  obtain rfl : k₂ = k' := hsame
  exact ⟨matching, t', hmatching, hD, hshown, hR'⟩

end SysprogTeam3.Foundation
