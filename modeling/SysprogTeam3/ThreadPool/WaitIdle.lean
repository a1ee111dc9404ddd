import SysprogTeam3.ThreadPool.Progress

/-!
# `thpool_wait`

It returns when every work that was added has been done.  The last worker to leave
signals one sleeping caller only, so that every call returns when at most one
thread is in `thpool_wait` at a time.
-/

namespace SysprogTeam3.ThreadPool

open SysprogTeam3.Foundation
open scoped List

variable {ω : Type}

def CallPlace.isWaiting : CallPlace → Bool
  | .testing | .sleeping => true
  | _ => false

namespace Thpool

section Returns

variable {s s' : Thpool ω} {numThreads callers caller : Nat} {events : List (Event ω)}

theorem idle_of_return (hstep : s.step (.test caller) = some s')
    (hreturn : s'.callers[caller]? = some .idle) :
    s.jobqueue.len = 0 ∧ s.numThreadsWorking = 0 := by
  simp only [step, Option.ite_none_right_eq_some, Option.some.injEq] at hstep
  obtain ⟨hcaller, rfl⟩ := hstep
  by_contra hbusy
  have hbusy' : s.jobqueue.len ≠ 0 ∨ s.numThreadsWorking ≠ 0 := by omega
  have hlt : caller < s.callers.length := (List.getElem?_eq_some_iff.mp hcaller).1
  simp [testIdle, setCaller, hbusy', hlt] at hreturn

theorem hand_of_not_working {place : Place} (h : place.isWorking = false) (memory : Memory ω) :
    place.hand memory = .empty := by
  cases place <;> first | rfl | simp [Place.isWorking] at h

variable [DecidableEq ω]

/--
When a call of `thpool_wait` returns, every work that was added up to its last test
has been done, once, whatever number of threads adds works and waits.
-/
theorem wait_returns_when_done (hrun : run step (init numThreads callers) events = some s)
    (hstep : s.step (.test caller) = some s') (hreturn : s'.callers[caller]? = some .idle) :
    (actionsOf numThreads callers events).filterMap WorkAction.finished ~
      (actionsOf numThreads callers events).filterMap WorkAction.added := by
  obtain ⟨hlen, hworking⟩ := idle_of_return hstep hreturn
  have hcount := (inv_of_run hrun).counts.working
  rw [hworking, eq_comm, List.countP_eq_zero] at hcount
  exact finished_perm_added hrun
    (fun place hmem => hand_of_not_working (by simpa using hcount place hmem) s.memory) hlen

def oneWait : List (Event Nat) :=
  [.thread 0 0, .initialised, .thread 0 0, .thread 0 0, .addWork 0 7 100, .post 0 0, .wait 0,
    .test 0]

def oneWork : List (Event Nat) := .replicate 7 (.thread 0 0)

theorem wait_returns_when_done_oneWait :
    ∃ s s', run step (init 1 1) (oneWait ++ oneWork) = some s ∧
      s.step (.test 0) = some s' ∧ s'.callers[0]? = some .idle ∧
      (actionsOf 1 1 (oneWait ++ oneWork)).filterMap WorkAction.finished ~
        (actionsOf 1 1 (oneWait ++ oneWork)).filterMap WorkAction.added := by
  obtain ⟨s', hs', hidle⟩ : ∃ s', run step (init 1 1) (oneWait ++ oneWork ++ [.test 0]) =
      some s' ∧ s'.callers[0]? = some .idle := exists_of_any (by decide)
  obtain ⟨s, hs, hrest⟩ := run_append_eq_some.mp hs'
  obtain ⟨next, hnext, hend⟩ := run_cons_eq_some.mp hrest
  obtain rfl : next = s' := Option.some.inj hend
  exact ⟨s, next, hs, hnext, hidle, wait_returns_when_done hs hnext hidle⟩

end Returns

/-! ## One caller at a time -/

/-- A thread enters `thpool_wait` when no other one is in it. -/
def WaitsAlone (s : Thpool ω) : Event ω → Prop
  | .wait _ => ∀ place ∈ s.callers, place.isWaiting = false
  | _ => True

instance (s : Thpool ω) (e : Event ω) : Decidable (s.WaitsAlone e) :=
  match e with
  | .wait _ => inferInstanceAs (Decidable (∀ place ∈ s.callers, place.isWaiting = false))
  | .initialised | .thread _ _ | .wakeThread _ | .addWork _ _ _ | .post _ _ | .test _
  | .wakeCaller _ | .stop | .postAll => isTrue trivial

/-- A sleeping caller has a work to wait for. -/
structure WaitsForWork (s : Thpool ω) : Prop where
  one : s.callers.countP CallPlace.isWaiting ≤ 1
  busy : .sleeping ∈ s.callers → s.jobqueue.len ≠ 0 ∨ s.numThreadsWorking ≠ 0

section Alone

variable {s s' : Thpool ω} {n woken caller : Nat} {place : Place}

theorem WaitsForWork.of_callers (h : s.WaitsForWork) (hcallers : s'.callers = s.callers)
    (hbusy : s.jobqueue.len ≠ 0 ∨ s.numThreadsWorking ≠ 0 →
      s'.jobqueue.len ≠ 0 ∨ s'.numThreadsWorking ≠ 0) : s'.WaitsForWork :=
  ⟨by rw [hcallers]; exact h.one, by rw [hcallers]; exact fun hmem => hbusy (h.busy hmem)⟩

theorem WaitsForWork.call (h : s.WaitsForWork) {before after : CallPlace}
    (hcaller : s.callers[caller]? = some before)
    (hcallers : s'.callers = s.callers.set caller after)
    (hone : after.isWaiting = true → before.isWaiting = true) (hasleep : after ≠ .sleeping)
    (hbusy : s.jobqueue.len ≠ 0 ∨ s.numThreadsWorking ≠ 0 →
      s'.jobqueue.len ≠ 0 ∨ s'.numThreadsWorking ≠ 0) : s'.WaitsForWork := by
  have hcount := countP_set_add hcaller after CallPlace.isWaiting
  refine ⟨?_, fun hmem => hbusy (h.busy ?_)⟩
  · rw [hcallers]
    have hle := h.one
    cases hafter : after.isWaiting
    · rw [hafter] at hcount
      simp only [Bool.false_eq_true, if_false] at hcount
      omega
    · rw [hafter, hone hafter] at hcount
      omega
  · rw [hcallers] at hmem
    exact (List.mem_or_eq_of_mem_set hmem).resolve_right hasleep.symm

theorem not_sleeping_of_signal {callers callers' : List CallPlace}
    (hone : callers.countP CallPlace.isWaiting ≤ 1)
    (hsignal : signal .sleeping .testing woken callers = some callers') :
    .sleeping ∉ callers' := by
  rcases signal_eq_some.mp hsignal with ⟨hnone, rfl⟩ | ⟨hwoken, rfl⟩
  · exact hnone
  · have hcount := countP_set_add hwoken .testing (· == .sleeping)
    have hle : callers.countP (· == .sleeping) ≤ callers.countP CallPlace.isWaiting := by
      refine List.countP_mono_left fun place _ hasleep => ?_
      rw [beq_iff_eq.mp hasleep]
      rfl
    simp only [beq_self_eq_true, if_true, reduceCtorEq, if_false, beq_iff_eq] at hcount
    have hzero : (callers.set woken .testing).countP (· == .sleeping) = 0 := by omega
    intro hmem
    exact absurd (List.countP_eq_zero.mp hzero _ hmem) (by simp)

theorem WaitsForWork.threadDo (h : s.WaitsForWork) (hinv : s.Inv)
    (hplace : s.threads[n]? = some place) (hstep : s.threadDo n woken place = some s') :
    s'.WaitsForWork := by
  obtain ⟨jobs, howns⟩ := hinv.owns
  cases place with
  | counted =>
      -- the worker that empties the queue is counted itself
      have hpos := hinv.counts.numThreadsWorking_pos hplace rfl
      obtain ⟨-, ⟨-, rfl⟩ | ⟨a, rest, jobqueue, -, -, ⟨-, rfl⟩ | rfl⟩⟩ :=
        pull_cases howns hstep
      · exact h.of_callers rfl id
      · exact h.of_callers rfl fun _ => .inr (by simp only [setPlace]; omega)
      · exact h.of_callers rfl fun _ => .inr (by simp only [setPlace]; omega)
  | entered =>
      simp only [Thpool.threadDo, Option.some.injEq] at hstep
      subst hstep
      exact h.of_callers rfl fun _ => .inr (by simp [setPlace])
  | leaving =>
      obtain ⟨callers, rfl, ⟨hbusy, rfl⟩ | ⟨-, hsignal⟩⟩ := leaving_cases hstep
      · exact h.of_callers rfl fun _ => .inr hbusy
      · refine ⟨?_, fun hmem => absurd hmem (not_sleeping_of_signal h.one hsignal)⟩
        change callers.countP CallPlace.isWaiting ≤ 1
        rw [countP_signal hsignal rfl]
        exact h.one
  | starting | atLoop | passed | running a | exiting =>
      simp only [Thpool.threadDo, Option.some.injEq] at hstep
      subst hstep
      exact h.of_callers rfl id
  | atWait =>
      simp only [Thpool.threadDo, Option.some.injEq] at hstep
      subst hstep
      cases s.v <;> exact h.of_callers rfl id
  | sleeping | gone => simp [Thpool.threadDo] at hstep
  | posting a =>
      obtain ⟨posted, hpost, rfl⟩ := Option.map_eq_some_iff.mp hstep
      obtain ⟨threads, -, rfl⟩ := bsemPost_eq_some.mp hpost
      exact h.of_callers rfl id
  | pulled job =>
      cases job with
      | none =>
          simp only [Thpool.threadDo, Option.some.injEq] at hstep
          subst hstep
          exact h.of_callers rfl id
      | some a =>
          simp only [Thpool.threadDo, Option.ite_none_right_eq_some,
            Option.some.injEq] at hstep
          obtain ⟨-, rfl⟩ := hstep
          exact h.of_callers rfl id

theorem WaitsForWork.step (h : s.WaitsForWork) (hinv : s.Inv) {e : Event ω}
    (halone : s.WaitsAlone e) (hstep : s.step e = some s') : s'.WaitsForWork := by
  cases e with
  | thread n woken =>
      obtain ⟨place, hplace, hdo⟩ := Option.bind_eq_some_iff.mp hstep
      exact h.threadDo hinv hplace hdo
  | addWork caller newjob work =>
      obtain ⟨jobs, howns⟩ := hinv.owns
      simp only [Thpool.step, Option.ite_none_right_eq_some] at hstep
      obtain ⟨⟨-, hcaller⟩, hadd⟩ := hstep
      have hlen := (howns.addWork hadd).1.holds.len
      obtain ⟨-, memory, jobqueue, rfl⟩ := addWork_eq_some hadd
      refine h.call hcaller rfl (by simp [CallPlace.isWaiting]) (by simp) fun _ => .inl ?_
      rw [hlen]
      simp
  | post caller woken =>
      simp only [Thpool.step, Option.ite_none_right_eq_some, Option.map_eq_some_iff] at hstep
      obtain ⟨hcaller, posted, hpost, rfl⟩ := hstep
      obtain ⟨threads, -, rfl⟩ := bsemPost_eq_some.mp hpost
      exact h.call hcaller rfl (by simp [CallPlace.isWaiting]) (by simp) id
  | wait caller =>
      simp only [Thpool.step, Option.ite_none_right_eq_some, Option.some.injEq] at hstep
      obtain ⟨⟨-, hcaller⟩, rfl⟩ := hstep
      have hzero : s.callers.countP CallPlace.isWaiting = 0 := by
        rw [List.countP_eq_zero]
        intro place hmem
        simp [halone place hmem]
      have hcount := countP_set_add hcaller .testing CallPlace.isWaiting
      rw [hzero] at hcount
      refine ⟨?_, fun hmem => h.busy ?_⟩
      · simp only [setCaller]
        simpa [CallPlace.isWaiting] using Nat.le_of_eq hcount
      · exact (List.mem_or_eq_of_mem_set hmem).resolve_right (by simp)
  | test caller =>
      simp only [Thpool.step, Option.ite_none_right_eq_some, Option.some.injEq] at hstep
      obtain ⟨hcaller, rfl⟩ := hstep
      by_cases hbusy : s.jobqueue.len ≠ 0 ∨ s.numThreadsWorking ≠ 0
      · have hcount := countP_set_of_eq hcaller (q := .sleeping) (f := CallPlace.isWaiting) rfl
        refine ⟨?_, fun _ => hbusy⟩
        simp only [testIdle, setCaller, hbusy, if_true, hcount]
        exact h.one
      · have hnext : (s.testIdle caller).callers = s.callers.set caller .idle := by
          simp [testIdle, setCaller, hbusy]
        exact h.call hcaller hnext (by simp [CallPlace.isWaiting]) (by simp) id
  | wakeCaller caller =>
      simp only [Thpool.step, Option.ite_none_right_eq_some, Option.some.injEq] at hstep
      obtain ⟨hcaller, rfl⟩ := hstep
      exact h.call hcaller rfl (fun _ => rfl) (by simp) id
  | initialised | wakeThread n | stop | postAll =>
      simp only [Thpool.step, Option.ite_none_right_eq_some, Option.some.injEq] at hstep
      obtain ⟨-, rfl⟩ := hstep
      exact h.of_callers rfl id

theorem waitsForWork_init (numThreads callers : Nat) :
    (init numThreads callers : Thpool ω).WaitsForWork := by
  refine ⟨?_, fun hmem => ?_⟩
  · simp [init, List.countP_replicate, CallPlace.isWaiting]
  · obtain ⟨-, hplace⟩ := List.mem_replicate.mp hmem
    exact absurd hplace (by simp)

theorem not_waiting_of_quiescent (h : s.WaitsForWork) (hinv : s.Inv)
    (hquiet : Quiescent Thpool.step Event.IsInternal s) (hkeep : s.threadsKeepalive)
    (hthreads : s.threads ≠ []) : ∀ place ∈ s.callers, place = .idle := by
  intro place hmem
  obtain ⟨caller, hcaller⟩ := List.mem_iff_getElem?.mp hmem
  cases place with
  | idle => rfl
  | posting =>
      obtain ⟨woken, s', hstep⟩ := post_can_step hcaller
      exact absurd (hquiet (.post caller woken) trivial) (by simp [hstep])
  | testing => exact absurd (hquiet (.test caller) trivial) (by simp [Thpool.step, hcaller])
  | sleeping =>
      have hworking : s.numThreadsWorking = 0 := by
        rw [hinv.counts.working, List.countP_eq_zero]
        intro place hplace
        rcases asleep_or_gone_of_quiescent hinv hquiet place hplace with rfl | rfl <;>
          simp [Place.isWorking]
      exact absurd (h.busy hmem)
        (by simp [hworking, len_of_quiescent hinv hquiet hkeep hthreads])

/--
Where threads enter `thpool_wait` one at a time every call returns: from every
reachable state of a pool with a worker that is kept alive, the steps that it takes
by itself are bounded, and when none is possible any more no call is under way.
-/
theorem wait_returns {numThreads callers : Nat} {events : List (Event ω)}
    (hrun : run Thpool.step (init (numThreads + 1) callers) events = some s)
    (halone : AllSteps Thpool.step WaitsAlone (init (numThreads + 1) callers) events)
    (hkeep : s.threadsKeepalive) {more : List (Event ω)}
    (hinternal : ∀ e ∈ more, e.IsInternal) (hmore : run Thpool.step s more = some s') :
    more.length ≤ s.measure ∧
      (Quiescent Thpool.step Event.IsInternal s' →
        ∀ place ∈ s'.callers, place = .idle) := by
  have hinv := inv_of_run hrun
  have hkept : ∀ (t : Thpool ω) (e : Event ω) t', t.Inv ∧ t.WaitsForWork → t.WaitsAlone e →
      t.step e = some t' → t'.Inv ∧ t'.WaitsForWork :=
    fun t e t' ht he hstep => ⟨ht.1.step hstep, ht.2.step ht.1 he hstep⟩
  have hboth := run_invariant hkept ⟨inv_init _ _, waitsForWork_init _ _⟩ halone hrun
  have hmoreAlone : ∀ (t : Thpool ω) (e : Event ω), e.IsInternal → t.WaitsAlone e := by
    intro t e he
    cases e with
    | wait caller => exact he.elim
    | _ => trivial
  have hkeptMore : ∀ (t : Thpool ω) (e : Event ω) t', t.Inv ∧ t.WaitsForWork → e.IsInternal →
      t.step e = some t' → t'.Inv ∧ t'.WaitsForWork :=
    fun t e t' ht he => hkept t e t' ht (hmoreAlone t e he)
  have hend := run_invariant hkeptMore hboth (AllSteps.of_mem hinternal) hmore
  refine ⟨internal_length_le hinv hinternal hmore, fun hquiet => ?_⟩
  have hall : run Thpool.step (init (numThreads + 1) callers) (events ++ more) = some s' :=
    run_append_eq_some.mpr ⟨s, hrun, hmore⟩
  exact not_waiting_of_quiescent hend.2 hend.1 hquiet
    ((threadsKeepalive_internal_run hinternal hmore).trans hkeep)
    (List.ne_nil_of_length_pos (by rw [length_of_run hall]; omega))

theorem wait_returns_oneWait :
    ∃ s s' : Thpool Nat, run Thpool.step (init 1 1) oneWait = some s ∧
      run Thpool.step s (oneWork ++ [.test 0]) = some s' ∧
      (oneWork ++ [Event.test 0]).length ≤ s.measure ∧
      (Quiescent Thpool.step Event.IsInternal s' → ∀ place ∈ s'.callers, place = .idle) := by
  obtain ⟨s', hs'⟩ := Option.isSome_iff_exists.mp (by decide :
    (run Thpool.step (init 1 1) (oneWait ++ (oneWork ++ [.test 0]))).isSome)
  obtain ⟨s, hs, hmore⟩ := run_append_eq_some.mp hs'
  obtain ⟨t, ht, hkeep⟩ : ∃ t, run Thpool.step (init 1 1) oneWait = some t ∧
      t.threadsKeepalive = true := exists_of_any (by decide)
  obtain rfl : s = t := Option.some.inj (hs.symm.trans ht)
  exact ⟨s, s', hs, hmore, wait_returns hs (by decide) hkeep (by decide) hmore⟩

def twoWaits : List (Event Nat) := .flatten
  [[.thread 0 0, .initialised, .thread 0 0, .thread 0 0, .addWork 0 7 100, .post 0 0, .wait 0,
    .wait 1, .test 0, .test 1],
   oneWork, [.test 0, .thread 0 0, .thread 0 0]]

/-- The second of two callers is left asleep although the pool is idle and at
rest. -/
theorem second_caller_left_asleep :
    ∃ s, run Thpool.step (init 1 2) twoWaits = some s ∧ s.callers = [.idle, .sleeping] ∧
      s.jobqueue.len = 0 ∧ s.numThreadsWorking = 0 ∧
      Quiescent Thpool.step Event.IsInternal s := by
  obtain ⟨s, hs, hcallers, hthreads, hlen, hworking⟩ :
      ∃ s, run Thpool.step (init 1 2) twoWaits = some s ∧ s.callers = [.idle, .sleeping] ∧
        s.threads = [.sleeping] ∧ s.jobqueue.len = 0 ∧ s.numThreadsWorking = 0 :=
    exists_of_any (by decide)
  exact ⟨s, hs, hcallers, hlen, hworking,
    quiescent_of_asleep (by simp [hthreads]) (by simp [hcallers])⟩

end Alone

end Thpool

end SysprogTeam3.ThreadPool
