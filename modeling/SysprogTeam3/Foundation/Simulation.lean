import SysprogTeam3.Foundation.Runs

/-!
# Simulations and internal steps

A simulation matches every step of one system with a run of another, and so
every run with a run.  A measure that every internal step makes smaller bounds
the internal runs, whatever the order of the steps, and shows that one of them
ends where no internal step is possible.
-/

namespace SysprogTeam3.Foundation

variable {σ τ ε γ δ : Type} {step : σ → ε → Option σ}

/-- What the steps of a run show, in their order. -/
def observed (step : σ → ε → Option σ) (label : σ → ε → List δ) : σ → List ε → List δ
  | _, [] => []
  | s, e :: events =>
      label s e ++ ((step s e).map fun s' => observed step label s' events).getD []

@[simp] theorem observed_nil {label : σ → ε → List δ} (s : σ) :
    observed step label s [] = [] := rfl

theorem observed_cons {label : σ → ε → List δ} {s s' : σ} {e : ε}
    (h : step s e = some s') (events : List ε) :
    observed step label s (e :: events) = label s e ++ observed step label s' events := by
  simp [observed, h]

theorem observed_singleton {label : σ → ε → List δ} (s : σ) (e : ε) :
    observed step label s [e] = label s e := by
  cases h : step s e <;> simp [observed, h]

theorem observed_flatMap {label : σ → ε → List δ} (f : δ → List γ) (s : σ) (events : List ε) :
    observed step (fun s e => (label s e).flatMap f) s events =
      (observed step label s events).flatMap f := by
  induction events generalizing s with
  | nil => rfl
  | cons e events ih =>
      cases hstep : step s e with
      | none => simp [observed, hstep]
      | some next => rw [observed_cons hstep, observed_cons hstep, List.flatMap_append, ih]

theorem observed_append {label : σ → ε → List δ} {s s' : σ} {first : List ε}
    (h : run step s first = some s') (second : List ε) :
    observed step label s (first ++ second) =
      observed step label s first ++ observed step label s' second := by
  induction first generalizing s with
  | nil =>
      simp only [run_nil, Option.some.injEq] at h
      simp [h]
  | cons e first ih =>
      obtain ⟨next, hnext, hrest⟩ := run_cons_eq_some.mp h
      rw [List.cons_append, observed_cons hnext, observed_cons hnext, ih hrest,
        List.append_assoc]

theorem AllSteps.append {C : σ → ε → Prop} {s s' : σ} {first second : List ε}
    (hfirst : AllSteps step C s first) (hrun : run step s first = some s')
    (hsecond : AllSteps step C s' second) : AllSteps step C s (first ++ second) := by
  induction first generalizing s with
  | nil =>
      simp only [run_nil, Option.some.injEq] at hrun
      exact hrun ▸ hsecond
  | cons e first ih =>
      obtain ⟨next, hnext, hrest⟩ := run_cons_eq_some.mp hrun
      refine ⟨hfirst.1, fun u hu => ?_⟩
      obtain rfl : next = u := Option.some.inj (hnext.symm.trans hu)
      exact ih (hfirst.2 next hu) hrest

/--
The simulation rule.  When every step is matched by a run of the other system
over what the step shows, every run is matched by a run over what it shows.
-/
theorem run_simulation {step' : τ → δ → Option τ} {label : σ → ε → List δ}
    {R : σ → τ → Prop}
    (hstep : ∀ s t e s', R s t → step s e = some s' →
      ∃ t', run step' t (label s e) = some t' ∧ R s' t')
    {s s' : σ} {t : τ} {events : List ε} (hR : R s t)
    (hrun : run step s events = some s') :
    ∃ t', run step' t (observed step label s events) = some t' ∧ R s' t' := by
  induction events generalizing s t with
  | nil =>
      simp only [run_nil, Option.some.injEq] at hrun
      exact ⟨t, rfl, hrun ▸ hR⟩
  | cons e events ih =>
      obtain ⟨next, hnext, hrest⟩ := run_cons_eq_some.mp hrun
      obtain ⟨u, hu, hRu⟩ := hstep s t e next hR hnext
      obtain ⟨t', ht', hR'⟩ := ih hRu hrest
      refine ⟨t', ?_, hR'⟩
      rw [observed_cons hnext]
      exact run_append_eq_some.mpr ⟨u, hu, ht'⟩

/--
The same when what a step shows does not determine the run that matches it.  The steps
meet `C`, those of the matching run meet `D`, and both runs show the same.
-/
theorem run_matched {step' : τ → γ → Option τ} {label : σ → ε → List δ}
    {label' : τ → γ → List δ} {R : σ → τ → Prop} {C : σ → ε → Prop} {D : τ → γ → Prop}
    (hstep : ∀ s t e s', R s t → C s e → step s e = some s' →
      ∃ matching t', run step' t matching = some t' ∧ AllSteps step' D t matching ∧
        observed step' label' t matching = label s e ∧ R s' t')
    {s s' : σ} {t : τ} {events : List ε} (hR : R s t) (hC : AllSteps step C s events)
    (hrun : run step s events = some s') :
    ∃ matching t', run step' t matching = some t' ∧ AllSteps step' D t matching ∧
      observed step' label' t matching = observed step label s events ∧ R s' t' := by
  induction events generalizing s t with
  | nil =>
      simp only [run_nil, Option.some.injEq] at hrun
      exact ⟨[], t, rfl, trivial, rfl, hrun ▸ hR⟩
  | cons e events ih =>
      obtain ⟨next, hnext, hrest⟩ := run_cons_eq_some.mp hrun
      obtain ⟨first, u, hu, hfirst, hshown, hRu⟩ := hstep s t e next hR hC.1 hnext
      obtain ⟨second, t', ht', hsecond, hshown', hR'⟩ := ih hRu (hC.2 next hnext) hrest
      refine ⟨first ++ second, t', run_append_eq_some.mpr ⟨u, hu, ht'⟩,
        hfirst.append hu hsecond, ?_, hR'⟩
      rw [observed_append hu, observed_cons hnext, hshown, hshown']

/-- Two systems that take the same events and show the same at each of them. -/
theorem run_lockstep {step' : τ → ε → Option τ} {label : σ → ε → List δ}
    {label' : τ → ε → List δ} {R : σ → τ → Prop}
    (hstep : ∀ s t e s', R s t → step s e = some s' →
      label' t e = label s e ∧ ∃ t', step' t e = some t' ∧ R s' t')
    {s s' : σ} {t : τ} {events : List ε} (hR : R s t)
    (hrun : run step s events = some s') :
    ∃ t', run step' t events = some t' ∧ R s' t' ∧
      observed step' label' t events = observed step label s events := by
  induction events generalizing s t with
  | nil =>
      simp only [run_nil, Option.some.injEq] at hrun
      exact ⟨t, rfl, hrun ▸ hR, rfl⟩
  | cons e events ih =>
      obtain ⟨next, hnext, hrest⟩ := run_cons_eq_some.mp hrun
      obtain ⟨hlabel, u, hu, hRu⟩ := hstep s t e next hR hnext
      obtain ⟨t', ht', hR', hsame⟩ := ih hRu hrest
      refine ⟨t', run_cons_eq_some.mpr ⟨u, hu, ht'⟩, hR', ?_⟩
      rw [observed_cons hu, observed_cons hnext, hlabel, hsame]

/--
Two systems that take the same events, where the second takes more of them: an event that
meets `P` is possible in the first system just when it is possible in the second and meets
`D` there.
-/
theorem run_bisimulation {step' : τ → ε → Option τ} {R : σ → τ → Prop} {P : ε → Prop}
    {D : τ → ε → Prop}
    (hforth : ∀ s t e s', R s t → P e → step s e = some s' →
      D t e ∧ ∃ t', step' t e = some t' ∧ R s' t')
    (hback : ∀ s t e t', R s t → P e → D t e → step' t e = some t' →
      ∃ s', step s e = some s' ∧ R s' t')
    {s : σ} {t : τ} {events : List ε} (hR : R s t) (hP : ∀ e ∈ events, P e) :
    (∀ s', run step s events = some s' →
        AllSteps step' D t events ∧ ∃ t', run step' t events = some t' ∧ R s' t') ∧
      ∀ t', AllSteps step' D t events → run step' t events = some t' →
        ∃ s', run step s events = some s' ∧ R s' t' := by
  induction events generalizing s t with
  | nil =>
      simp only [run_nil, Option.some.injEq]
      exact ⟨fun s' hs => ⟨trivial, t, rfl, hs ▸ hR⟩, fun t' _ ht => ⟨s, rfl, ht ▸ hR⟩⟩
  | cons e events ih =>
      have he : P e := hP e List.mem_cons_self
      have hrest : ∀ e' ∈ events, P e' := fun e' he' => hP e' (List.mem_cons_of_mem e he')
      constructor
      · intro s' hrun
        obtain ⟨next, hnext, htail⟩ := run_cons_eq_some.mp hrun
        obtain ⟨hD, u, hu, hRu⟩ := hforth s t e next hR he hnext
        obtain ⟨hsteps, t', ht', hR'⟩ := (ih hRu hrest).1 s' htail
        refine ⟨⟨hD, fun u' hu' => ?_⟩, t', run_cons_eq_some.mpr ⟨u, hu, ht'⟩, hR'⟩
        rw [hu, Option.some.injEq] at hu'
        exact hu' ▸ hsteps
      · intro t' hsteps hrun
        obtain ⟨u, hu, htail⟩ := run_cons_eq_some.mp hrun
        obtain ⟨next, hnext, hRu⟩ := hback s t e u hR he hsteps.1 hu
        obtain ⟨s', hs', hR'⟩ := (ih hRu hrest).2 t' (hsteps.2 u hu) htail
        exact ⟨s', run_cons_eq_some.mpr ⟨next, hnext, hs'⟩, hR'⟩

/-! ## Guarded steps -/

def guarded (step : σ → ε → Option σ) (C : σ → ε → Prop) [∀ s e, Decidable (C s e)] (s : σ)
    (e : ε) : Option σ := if C s e then step s e else none

section Guarded

variable {C : σ → ε → Prop} [∀ s e, Decidable (C s e)]

theorem guarded_eq_some {s s' : σ} {e : ε} :
    guarded step C s e = some s' ↔ C s e ∧ step s e = some s' := by
  rw [guarded, Option.ite_none_right_eq_some]

theorem run_guarded {s s' : σ} {events : List ε} :
    run (guarded step C) s events = some s' ↔
      run step s events = some s' ∧ AllSteps step C s events := by
  induction events generalizing s with
  | nil => simp [AllSteps]
  | cons e events ih =>
      rw [run_cons_eq_some, run_cons_eq_some]
      constructor
      · rintro ⟨next, hnext, hrest⟩
        obtain ⟨hC, hstep⟩ := guarded_eq_some.mp hnext
        obtain ⟨hrun, hsteps⟩ := ih.mp hrest
        refine ⟨⟨next, hstep, hrun⟩, hC, fun other hother => ?_⟩
        obtain rfl : next = other := Option.some.inj (hstep.symm.trans hother)
        exact hsteps
      · rintro ⟨⟨next, hstep, hrun⟩, hC, hsteps⟩
        exact ⟨next, guarded_eq_some.mpr ⟨hC, hstep⟩, ih.mpr ⟨hrun, hsteps next hstep⟩⟩

end Guarded

/-! ## Internal steps -/

def Quiescent (step : σ → ε → Option σ) (I : ε → Prop) (s : σ) : Prop :=
  ∀ e, I e → step s e = none

theorem AllSteps.of_mem {I : ε → Prop} {s : σ} {events : List ε} (hI : ∀ e ∈ events, I e) :
    AllSteps step (fun _ e => I e) s events := by
  induction events generalizing s with
  | nil => trivial
  | cons e events ih =>
      exact ⟨hI e List.mem_cons_self,
        fun _ _ => ih fun e' he' => hI e' (List.mem_cons_of_mem e he')⟩

section Bounded

variable {I : ε → Prop} {B : Nat → σ → Prop}

theorem length_add_bound_le
    (hless : ∀ n s e s', B n s → I e → step s e = some s' → ∃ m, m < n ∧ B m s')
    {n : Nat} {s s' : σ} {events : List ε} (hs : B n s) (hI : ∀ e ∈ events, I e)
    (hrun : run step s events = some s') : ∃ m, events.length + m ≤ n ∧ B m s' := by
  induction events generalizing n s with
  | nil =>
      simp only [run_nil, Option.some.injEq] at hrun
      exact ⟨n, by simp, hrun ▸ hs⟩
  | cons e events ih =>
      obtain ⟨next, hnext, hrest⟩ := run_cons_eq_some.mp hrun
      obtain ⟨m, hm, hB⟩ := hless n s e next hs (hI e List.mem_cons_self) hnext
      obtain ⟨k, hk, hB'⟩ :=
        ih hB (fun e' he' => hI e' (List.mem_cons_of_mem e he')) hrest
      refine ⟨k, ?_, hB'⟩
      rw [List.length_cons]
      omega

theorem exists_run_quiescent_of_bound
    (hless : ∀ n s e s', B n s → I e → step s e = some s' → ∃ m, m < n ∧ B m s')
    {n : Nat} {s : σ} (hs : B n s) :
    ∃ events s', (∀ e ∈ events, I e) ∧ run step s events = some s' ∧
      Quiescent step I s' := by
  induction n using Nat.strongRecOn generalizing s with
  | ind n ih =>
      by_cases hquiet : Quiescent step I s
      · exact ⟨[], s, by simp, rfl, hquiet⟩
      · simp only [Quiescent, not_forall] at hquiet
        obtain ⟨e, he, hpossible⟩ := hquiet
        obtain ⟨next, hnext⟩ := Option.ne_none_iff_exists'.mp hpossible
        obtain ⟨m, hm, hB⟩ := hless n s e next hs he hnext
        obtain ⟨events, s', hI, hrun, hend⟩ := ih m hm hB
        refine ⟨e :: events, s', ?_, run_cons_eq_some.mpr ⟨next, hnext, hrun⟩, hend⟩
        simpa using ⟨he, hI⟩

end Bounded

section Internal

variable {Inv : σ → Prop} {I : ε → Prop} {measure : σ → Nat}

theorem measure_bounds
    (hinv : ∀ s e s', Inv s → I e → step s e = some s' → Inv s')
    (hless : ∀ s e s', Inv s → I e → step s e = some s' → measure s' < measure s)
    (n : Nat) (s : σ) (e : ε) (s' : σ) (hs : Inv s ∧ measure s = n) (he : I e)
    (hstep : step s e = some s') : ∃ m, m < n ∧ Inv s' ∧ measure s' = m :=
  ⟨measure s', hs.2 ▸ hless s e s' hs.1 he hstep, hinv s e s' hs.1 he hstep, rfl⟩

theorem length_add_measure_le
    (hinv : ∀ s e s', Inv s → I e → step s e = some s' → Inv s')
    (hless : ∀ s e s', Inv s → I e → step s e = some s' → measure s' < measure s)
    {s s' : σ} {events : List ε} (hs : Inv s) (hI : ∀ e ∈ events, I e)
    (hrun : run step s events = some s') : events.length + measure s' ≤ measure s := by
  obtain ⟨m, hm, -, rfl⟩ :=
    length_add_bound_le (B := fun n s => Inv s ∧ measure s = n)
      (measure_bounds hinv hless) ⟨hs, rfl⟩ hI hrun
  exact hm

theorem exists_run_quiescent
    (hinv : ∀ s e s', Inv s → I e → step s e = some s' → Inv s')
    (hless : ∀ s e s', Inv s → I e → step s e = some s' → measure s' < measure s)
    {s : σ} (hs : Inv s) :
    ∃ events s', (∀ e ∈ events, I e) ∧ run step s events = some s' ∧
      Quiescent step I s' :=
  exists_run_quiescent_of_bound (B := fun n s => Inv s ∧ measure s = n)
    (measure_bounds hinv hless) ⟨hs, rfl⟩

/--
The potential rule.  Steps that take from the potential are bounded in number by what
there is at first and what the other steps bring.
-/
theorem countP_add_potential_le {takes brings : ε → Bool} {potential : σ → Nat}
    (hinv : ∀ s e s', Inv s → step s e = some s' → Inv s')
    (hpay : ∀ s e s', Inv s → step s e = some s' →
      (takes e).toNat + potential s' ≤ potential s + (brings e).toNat)
    {s s' : σ} {events : List ε} (hs : Inv s) (hrun : run step s events = some s') :
    events.countP takes + potential s' ≤ potential s + events.countP brings := by
  induction events generalizing s with
  | nil =>
      simp only [run_nil, Option.some.injEq] at hrun
      simp [hrun]
  | cons e events ih =>
      obtain ⟨next, hnext, hrest⟩ := run_cons_eq_some.mp hrun
      have hfirst := hpay s e next hs hnext
      have hlater := ih (hinv s e next hs hnext) hrest
      have hcount : ∀ f : ε → Bool,
          (e :: events).countP f = events.countP f + (f e).toNat := by
        intro f
        rw [List.countP_cons]
        cases f e <;> rfl
      rw [hcount, hcount]
      omega

end Internal

end SysprogTeam3.Foundation
