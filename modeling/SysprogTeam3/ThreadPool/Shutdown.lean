import SysprogTeam3.ThreadPool.Progress

/-!
# `thpool_destroy`

The loops of `thpool_destroy` post again and again and wait for no worker.  With
`threads_keepalive` cleared a worker that takes a post ends, and one that misses it can
do no more than fall asleep again before the next post is taken.  So the posts make the
workers take only boundedly many steps, and when none of them is alive
`jobqueue_destroy` frees the jobs that nobody has taken.
-/

namespace SysprogTeam3.ThreadPool

open SysprogTeam3.Foundation
open scoped List

variable {ω : Type}

/-- A bound on the steps from this place to the end when `threads_keepalive` is
cleared, among `workers` workers.  The worker that takes a post pays for all the others
that may have to fall asleep again. -/
def Place.endWeight (workers : Nat) (v : Bool) : Place → Nat
  | .gone => 0
  | .exiting => 1
  | .atLoop => 2
  | .starting | .passed => 3
  -- also the test of the caller of `thpool_wait` that it wakes
  | .leaving => 4
  | .running _ => 5
  | .pulled _ => 6
  | .posting _ => 7
  | .counted => 8
  | .entered => 9
  | .sleeping => workers + 4
  | .atWait => workers + 4 + if v then 0 else 1

def CallPlace.endWeight : CallPlace → Nat
  | .idle | .sleeping => 0
  | .testing | .posting => 1

/-- A call of the program begins, or a thread wakes without a signal. -/
def Event.disturbs : Event ω → Bool
  | .addWork _ _ _ | .wait _ | .wakeThread _ | .wakeCaller _ => true
  | _ => false

namespace Thpool

/-! ## The loops of `thpool_destroy` -/

/-- A bound on the steps that the pool takes when `threads_keepalive` is cleared,
however often it is posted. -/
def endMeasure (s : Thpool ω) : Nat :=
  total (Place.endWeight s.threads.length s.v) s.threads + total CallPlace.endWeight s.callers

section Loop

variable {s s' : Thpool ω} {jobs : List Addr} {n woken : Nat} {place next : Place}

theorem endMeasure_move (hplace : s.threads[n]? = some place)
    (hthreads : s'.threads = s.threads.set n next) (hv : s'.v = s.v)
    (hcallers : s'.callers = s.callers) :
    s'.endMeasure + place.endWeight s.threads.length s.v =
      s.endMeasure + next.endWeight s.threads.length s.v := by
  have htotal := total_set_add hplace next (Place.endWeight s.threads.length s.v)
  rw [endMeasure, endMeasure, hthreads, hv, hcallers, List.length_set]
  omega

theorem endMeasure_lt (hplace : s.threads[n]? = some place)
    (hthreads : s'.threads = s.threads.set n next) (hv : s'.v = s.v)
    (hcallers : s'.callers = s.callers)
    (hless : next.endWeight s.threads.length s.v < place.endWeight s.threads.length s.v) :
    s'.endMeasure < s.endMeasure := by
  have hmove := endMeasure_move hplace hthreads hv hcallers
  omega

theorem endMeasure_posted {threads : List Place}
    (hlength : threads.length = s.threads.length)
    (htotal : total (Place.endWeight s.threads.length true) threads =
      total (Place.endWeight s.threads.length true) s.threads) :
    { s with v := true, threads := threads }.endMeasure ≤ s.endMeasure := by
  have hposted : total (Place.endWeight s.threads.length true) s.threads ≤
      total (Place.endWeight s.threads.length s.v) s.threads + 0 * s.threads.length :=
    total_le_mul 0 fun place => by cases place <;> simp [Place.endWeight]
  simp only [endMeasure, hlength, htotal]
  omega

theorem endMeasure_bsemPost_le (hstep : s.bsemPost woken = some s') :
    s'.endMeasure ≤ s.endMeasure := by
  obtain ⟨threads, hsignal, rfl⟩ := bsemPost_eq_some.mp hstep
  exact endMeasure_posted (length_signal hsignal) (total_signal hsignal rfl)

/-- The worker that takes a post never comes back to wait for one. -/
theorem endMeasure_atWait (hplace : s.threads[n]? = some .atWait)
    (hstep : s.threadDo n woken .atWait = some s') : s'.endMeasure < s.endMeasure := by
  simp only [threadDo, Option.some.injEq] at hstep
  subst hstep
  cases hv : s.v with
  | false =>
      refine endMeasure_lt hplace rfl rfl rfl ?_
      simp [Place.endWeight, hv]
  | true =>
      have htotal := total_set_add hplace .passed (Place.endWeight s.threads.length true)
      have hothers : total (Place.endWeight s.threads.length false) (s.threads.set n .passed) ≤
          total (Place.endWeight s.threads.length true) (s.threads.set n .passed) +
            1 * (s.threads.set n .passed).length :=
        total_le_mul 1 fun place => by cases place <;> simp [Place.endWeight]
      simp only [List.length_set, Place.endWeight, if_true] at htotal hothers
      simp only [if_true, endMeasure, setPlace, hv, List.length_set]
      omega

theorem endMeasure_threadDo (h : s.Owns jobs) (hstop : s.threadsKeepalive = false)
    (hplace : s.threads[n]? = some place) (hstep : s.threadDo n woken place = some s') :
    s'.endMeasure < s.endMeasure := by
  cases place with
  | atWait => exact endMeasure_atWait hplace hstep
  | counted =>
      obtain ⟨-, ⟨-, rfl⟩ | ⟨a, rest, jobqueue, -, -, ⟨-, rfl⟩ | rfl⟩⟩ := pull_cases h hstep
      · exact endMeasure_lt hplace rfl rfl rfl (by simp [Place.endWeight])
      · exact endMeasure_lt hplace rfl rfl rfl (by simp [Place.endWeight])
      · exact endMeasure_lt hplace rfl rfl rfl (by simp [Place.endWeight])
  | starting | entered | running a | exiting =>
      simp only [threadDo, Option.some.injEq] at hstep
      subst hstep
      exact endMeasure_lt hplace rfl rfl rfl (by simp [Place.endWeight])
  | atLoop | passed =>
      simp only [threadDo, hstop, Bool.false_eq_true, if_false, Option.some.injEq] at hstep
      subst hstep
      exact endMeasure_lt hplace rfl rfl rfl (by simp [Place.endWeight])
  | sleeping | gone => simp [threadDo] at hstep
  | posting a =>
      obtain ⟨posted, hpost, rfl⟩ := Option.map_eq_some_iff.mp hstep
      have hle := endMeasure_bsemPost_le hpost
      obtain ⟨threads, hsignal, rfl⟩ := bsemPost_eq_some.mp hpost
      have hless : Thpool.endMeasure
          ({ s with v := true, threads := threads, rwmutex := false }.setPlace n
            (.pulled (some a))) <
          { s with v := true, threads := threads }.endMeasure :=
        endMeasure_lt (signal_place hsignal hplace (by simp)) rfl rfl rfl
          (by simp [Place.endWeight])
      exact Nat.lt_of_lt_of_le hless hle
  | pulled job =>
      cases job with
      | none =>
          simp only [threadDo, Option.some.injEq] at hstep
          subst hstep
          exact endMeasure_lt hplace rfl rfl rfl (by simp [Place.endWeight])
      | some a =>
          simp only [threadDo, Option.ite_none_right_eq_some, Option.some.injEq] at hstep
          obtain ⟨-, rfl⟩ := hstep
          exact endMeasure_lt hplace rfl rfl rfl (by simp [Place.endWeight])
  | leaving =>
      obtain ⟨callers, rfl, hcallers⟩ := leaving_cases hstep
      have htotal := total_set_add hplace .atLoop (Place.endWeight s.threads.length s.v)
      have hwoken : total CallPlace.endWeight callers ≤
          total CallPlace.endWeight s.callers + 1 := by
        rcases hcallers with ⟨-, rfl⟩ | ⟨-, hsignal⟩
        · exact Nat.le_succ _
        · exact total_signal_le CallPlace.endWeight hsignal
      simp only [Place.endWeight] at htotal
      simp only [endMeasure, setPlace, List.length_set]
      omega

theorem endMeasure_setCaller {caller : Nat} {before : CallPlace}
    (hcaller : s.callers[caller]? = some before) (after : CallPlace) :
    (s.setCaller caller after).endMeasure + before.endWeight =
      s.endMeasure + after.endWeight := by
  have htotal := total_set_add hcaller after CallPlace.endWeight
  simp only [endMeasure, setCaller]
  omega

theorem endMeasure_internal (h : s.Inv) (hstop : s.threadsKeepalive = false) {e : Event ω}
    (hinternal : e.IsInternal) (hstep : s.step e = some s') : s'.endMeasure < s.endMeasure := by
  obtain ⟨jobs, howns⟩ := h.owns
  cases e with
  | thread n woken =>
      obtain ⟨place, hplace, hdo⟩ := Option.bind_eq_some_iff.mp hstep
      exact endMeasure_threadDo howns hstop hplace hdo
  | post caller woken =>
      simp only [step, Option.ite_none_right_eq_some, Option.map_eq_some_iff] at hstep
      obtain ⟨hcaller, posted, hpost, rfl⟩ := hstep
      have hle := endMeasure_bsemPost_le hpost
      obtain ⟨threads, hsignal, rfl⟩ := bsemPost_eq_some.mp hpost
      have hcall := endMeasure_setCaller
        (s := { s with v := true, threads := threads, rwmutex := false }) hcaller .idle
      exact Nat.lt_of_lt_of_le (Nat.lt_of_succ_le (Nat.le_of_eq hcall)) hle
  | test caller =>
      simp only [step, Option.ite_none_right_eq_some, Option.some.injEq] at hstep
      obtain ⟨hcaller, rfl⟩ := hstep
      have hafter : CallPlace.endWeight
          (if s.jobqueue.len ≠ 0 ∨ s.numThreadsWorking ≠ 0 then .sleeping else .idle) = 0 := by
        split <;> rfl
      have hcall := endMeasure_setCaller hcaller
        (if s.jobqueue.len ≠ 0 ∨ s.numThreadsWorking ≠ 0 then .sleeping else .idle)
      rw [hafter] at hcall
      exact Nat.lt_of_succ_le (Nat.le_of_eq hcall)
  | initialised | wakeThread n | addWork caller newjob work | wait caller
  | wakeCaller caller | stop | postAll => exact hinternal.elim

theorem endMeasure_le {e : Event ω} (hinternal : ¬ e.IsInternal)
    (hstep : s.step e = some s') : s'.endMeasure ≤ s.endMeasure + e.disturbs.toNat := by
  cases e with
  | thread | post | test => exact absurd trivial hinternal
  | addWork caller newjob work =>
      simp only [step, Option.ite_none_right_eq_some] at hstep
      obtain ⟨-, memory, jobqueue, rfl⟩ := addWork_eq_some hstep.2
      exact Nat.le_of_eq (endMeasure_setCaller
        (s := { s with memory := memory, jobqueue := jobqueue, rwmutex := true }) hstep.1.2
        .posting)
  | wait caller =>
      simp only [step, Option.ite_none_right_eq_some, Option.some.injEq] at hstep
      obtain ⟨⟨-, hcaller⟩, rfl⟩ := hstep
      exact Nat.le_of_eq (endMeasure_setCaller hcaller .testing)
  | wakeCaller caller =>
      simp only [step, Option.ite_none_right_eq_some, Option.some.injEq] at hstep
      obtain ⟨hcaller, rfl⟩ := hstep
      exact Nat.le_of_eq (endMeasure_setCaller hcaller .testing)
  | wakeThread n =>
      simp only [step, Option.ite_none_right_eq_some, Option.some.injEq] at hstep
      obtain ⟨hplace, rfl⟩ := hstep
      have hmove : (s.setPlace n .atWait).endMeasure + Place.endWeight s.threads.length s.v
          .sleeping = s.endMeasure + Place.endWeight s.threads.length s.v .atWait :=
        endMeasure_move hplace rfl rfl rfl
      simp only [Place.endWeight] at hmove
      simp only [Event.disturbs, Bool.toNat_true]
      split at hmove <;> omega
  | postAll =>
      simp only [step, Option.ite_none_right_eq_some, Option.some.injEq] at hstep
      obtain ⟨-, rfl⟩ := hstep
      exact endMeasure_posted (by simp [broadcast]) (total_broadcast rfl)
  | initialised | stop =>
      simp only [step, Option.ite_none_right_eq_some, Option.some.injEq] at hstep
      obtain ⟨-, rfl⟩ := hstep
      exact Nat.le_refl _

theorem endMeasure_step (h : s.Inv) (hstop : s.threadsKeepalive = false) {e : Event ω}
    (hstep : s.step e = some s') :
    (decide e.IsInternal).toNat + s'.endMeasure ≤ s.endMeasure + e.disturbs.toNat := by
  by_cases hinternal : e.IsInternal
  · have hless := endMeasure_internal h hstop hinternal hstep
    rw [decide_eq_true hinternal, Bool.toNat_true]
    omega
  · have hle := endMeasure_le hinternal hstep
    rw [decide_eq_false hinternal, Bool.toNat_false]
    omega

theorem stopped_step (h : s.Inv ∧ s.threadsKeepalive = false) {e : Event ω}
    (hstep : s.step e = some s') : s'.Inv ∧ s'.threadsKeepalive = false := by
  refine ⟨h.1.step hstep, ?_⟩
  cases e with
  | stop =>
      simp only [step, Option.ite_none_right_eq_some, Option.some.injEq] at hstep
      obtain ⟨-, rfl⟩ := hstep
      rfl
  | _ => exact ((keeps_of_step hstep).2 rfl).trans h.2

theorem can_step_after_postAll (h : s.Inv) (hstop : s.threadsKeepalive = false)
    (halive : s.numThreadsAlive ≠ 0) :
    ∃ posted e next, s.step .postAll = some posted ∧ e.IsInternal ∧
      posted.step e = some next := by
  obtain ⟨posted, hpost, hnone⟩ :
      ∃ posted, s.step .postAll = some posted ∧ .sleeping ∉ posted.threads :=
    ⟨{ s with v := true, threads := broadcast .sleeping .atWait s.threads },
      by simp [step, hstop, halive], not_mem_broadcast (by simp)⟩
  have hinv := h.step hpost
  by_contra hstuck
  have hquiet : Quiescent step Event.IsInternal posted := by
    intro e he
    by_contra hsome
    obtain ⟨next, hnext⟩ := Option.ne_none_iff_exists'.mp hsome
    exact hstuck ⟨posted, e, next, hpost, he, hnext⟩
  have hgone : ∀ place ∈ posted.threads, place = .gone := fun place hmem =>
    (asleep_or_gone_of_quiescent hinv hquiet place hmem).resolve_left
      (ne_of_mem_of_not_mem hmem hnone)
  have hdead : posted.numThreadsAlive = 0 := by
    rw [hinv.counts.alive, List.countP_eq_zero]
    intro place hmem
    simp [hgone place hmem, Place.isAlive]
  simp only [step, Option.ite_none_right_eq_some, Option.some.injEq] at hpost
  obtain ⟨-, rfl⟩ := hpost
  exact halive hdead

theorem exists_run_to_end (h : s.Inv ∧ s.threadsKeepalive = false) :
    ∃ rest last, (∀ e ∈ rest, e = .postAll ∨ Event.IsInternal e) ∧
      run step s rest = some last ∧ last.numThreadsAlive = 0 := by
  induction hmeasure : s.endMeasure using Nat.strongRecOn generalizing s with
  | ind bound ih =>
      by_cases halive : s.numThreadsAlive = 0
      · exact ⟨[], s, by simp, rfl, halive⟩
      · obtain ⟨posted, e, next, hpost, he, hnext⟩ := can_step_after_postAll h.1 h.2 halive
        have hposted := stopped_step h hpost
        have hle : posted.endMeasure ≤ s.endMeasure := endMeasure_le id hpost
        have hless := endMeasure_internal hposted.1 hposted.2 he hnext
        obtain ⟨rest, last, hrest, hlast, hend⟩ :=
          ih next.endMeasure (by omega) (stopped_step hposted hnext) rfl
        refine ⟨.postAll :: e :: rest, last, ?_, run_cons_eq_some.mpr ⟨posted, hpost,
          run_cons_eq_some.mpr ⟨next, hnext, hlast⟩⟩, hend⟩
        simpa using ⟨.inr he, hrest⟩

/--
The loops of `thpool_destroy` end.  Once `threads_keepalive` is cleared, the steps that
the pool takes are bounded in every run, however often it is posted: they are at most as
many as a measure of the state in which it was cleared, and one more for each call that
begins and each spurious wakeup.  While a worker is alive the loop can post again, after
which a step of the pool is possible, and some posts and steps end all workers.
-/
theorem destroy_loop_ends {numThreads callers : Nat} {events more : List (Event ω)}
    (hrun : run step (init numThreads callers) events = some s)
    (hstop : s.threadsKeepalive = false) (hmore : run step s more = some s') :
    more.countP (fun e => e.IsInternal) ≤ s.endMeasure + more.countP Event.disturbs ∧
      (s'.numThreadsAlive ≠ 0 → ∃ posted e next, s'.step .postAll = some posted ∧
        e.IsInternal ∧ posted.step e = some next) ∧
      ∃ rest last, (∀ e ∈ rest, e = .postAll ∨ Event.IsInternal e) ∧
        run step s' rest = some last ∧ last.numThreadsAlive = 0 := by
  have hstopped : s.Inv ∧ s.threadsKeepalive = false := ⟨inv_of_run hrun, hstop⟩
  have hkept : ∀ (t : Thpool ω) (e : Event ω) t', t.Inv ∧ t.threadsKeepalive = false →
      t.step e = some t' → t'.Inv ∧ t'.threadsKeepalive = false :=
    fun _ _ _ ht hstep => stopped_step ht hstep
  have hpays : ∀ (t : Thpool ω) (e : Event ω) t', t.Inv ∧ t.threadsKeepalive = false →
      t.step e = some t' →
        (decide e.IsInternal).toNat + t'.endMeasure ≤ t.endMeasure + e.disturbs.toNat :=
    fun _ _ _ ht hstep => endMeasure_step ht.1 ht.2 hstep
  have hstopped' : s'.Inv ∧ s'.threadsKeepalive = false :=
    run_invariant (C := fun _ _ => True) (fun t e t' ht _ hstep => hkept t e t' ht hstep)
      hstopped (.of_forall (fun _ _ => trivial) _ _) hmore
  refine ⟨?_, can_step_after_postAll hstopped'.1 hstopped'.2, exists_run_to_end hstopped'⟩
  have hbound := countP_add_potential_le hkept hpays hstopped hmore
  omega

def stopAsleep : List (Event Nat) :=
  [.thread 0 0, .initialised, .thread 0 0, .thread 0 0, .stop]

/-- Three posts, of which the second and the third wake nobody. -/
def threePosts : List (Event Nat) :=
  [.postAll, .postAll, .postAll, .thread 0 0, .thread 0 0, .thread 0 0]

theorem destroy_loop_ends_stopAsleep :
    ∃ s s', run step (init 1 1) stopAsleep = some s ∧ run step s threePosts = some s' ∧
      s.endMeasure = 5 ∧ threePosts.countP (fun e => e.IsInternal) ≤ 5 ∧
      s'.numThreadsAlive = 1 ∧
      ∃ posted e next, s'.step .postAll = some posted ∧ Event.IsInternal e ∧
        posted.step e = some next := by
  obtain ⟨s, hs, hstop, hmeasure, hposts⟩ :
      ∃ s, run step (init 1 1) stopAsleep = some s ∧ s.threadsKeepalive = false ∧
        s.endMeasure = 5 ∧
        ((run step s threePosts).any fun s' => s'.numThreadsAlive == 1) = true :=
    exists_of_any (by decide)
  obtain ⟨s', hs', halive⟩ := (Option.any_eq_true _ _).mp hposts
  have halive' : s'.numThreadsAlive = 1 := by simpa using halive
  obtain ⟨hbound, hgoes, -⟩ := destroy_loop_ends hs hstop hs'
  rw [hmeasure] at hbound
  exact ⟨s, s', hs, hs', hmeasure, hbound, halive', hgoes (by omega)⟩

end Loop

/-! ## `jobqueue_destroy` -/

/-- `jobqueue_clear`; `none` when its loop takes more rounds than `fuel`. -/
def jobqueueClear : Nat → Memory ω → JobQueue → Option (Memory ω × JobQueue)
  | 0, _, _ => none
  | fuel + 1, memory, jobqueue =>
      if jobqueue.len = 0 then some (memory, jobqueueInit)
      else
        (jobqueuePull memory jobqueue).bind fun result =>
          -- `free(NULL)` does nothing
          jobqueueClear fuel ((result.1.map memory.free).getD memory) result.2

theorem jobqueueClear_spec {memory : Memory ω} {jobqueue : JobQueue} {jobs : List Addr}
    (h : Holds memory jobqueue jobs) (hnodup : jobs.Nodup) {fuel : Nat}
    (hfuel : jobs.length < fuel) :
    ∃ memory', jobqueueClear fuel memory jobqueue = some (memory', jobqueueInit) ∧
      ∀ a, (memory' a).isSome ↔ (memory a).isSome ∧ a ∉ jobs := by
  induction jobs generalizing memory jobqueue fuel with
  | nil =>
      obtain ⟨fuel, rfl⟩ := Nat.exists_eq_succ_of_ne_zero (Nat.ne_zero_of_lt hfuel)
      have hlen : jobqueue.len = 0 := h.len
      exact ⟨memory, by rw [jobqueueClear, if_pos hlen], by simp⟩
  | cons a jobs ih =>
      obtain ⟨fuel, rfl⟩ := Nat.exists_eq_succ_of_ne_zero (Nat.ne_zero_of_lt hfuel)
      obtain ⟨ha, hrest⟩ := List.nodup_cons.mp hnodup
      obtain ⟨jobqueue', hpull, hholds⟩ := jobqueuePull_cons h
      have hlen : jobqueue.len ≠ 0 := by simp [h.len]
      have hfreed : Holds (memory.free a) jobqueue' jobs :=
        hholds.congr fun b hb => Function.update_of_ne (ne_of_mem_of_not_mem hb ha) _ _
      have hfuel' : jobs.length < fuel := by simpa using hfuel
      obtain ⟨memory', hclear, hkept⟩ := ih hfreed hrest hfuel'
      refine ⟨memory', ?_, fun b => ?_⟩
      · rw [jobqueueClear, if_neg hlen, hpull]
        exact hclear
      · rw [hkept b, List.mem_cons, not_or, ← and_assoc]
        refine and_congr_left' ?_
        by_cases hb : b = a
        · simp [Memory.free, hb]
        · simp [Memory.free, hb]

theorem gone_of_not_alive {s : Thpool ω} (h : s.Inv) (hready : s.initialised)
    (halive : s.numThreadsAlive = 0) : ∀ place ∈ s.threads, place = .gone := by
  intro place hmem
  have hcount := h.counts.alive
  rw [halive, eq_comm, List.countP_eq_zero] at hcount
  have hnot := hcount place hmem
  have hstarted := h.wakes.started hready place hmem
  cases place <;> first | rfl | simp_all [Place.isAlive]

/--
When no worker is alive any more, `jobqueue_clear` ends and frees every job that is
still allocated: the jobs of the works that were added and never taken.  Every work
that was taken has been done.
-/
theorem destroy_frees_all_jobs [DecidableEq ω] {s : Thpool ω} {numThreads callers : Nat}
    {events : List (Event ω)} (hrun : run step (init numThreads callers) events = some s)
    (hready : s.initialised) (halive : s.numThreadsAlive = 0) {fuel : Nat}
    (hfuel : s.jobqueue.len < fuel) :
    (∃ memory', jobqueueClear fuel s.memory s.jobqueue = some (memory', jobqueueInit) ∧
      ∀ a, memory' a = none) ∧
    ∃ lost, lost.length = s.jobqueue.len ∧
      (actionsOf numThreads callers events).filterMap WorkAction.added =
        (actionsOf numThreads callers events).filterMap WorkAction.taken ++ lost ∧
      (actionsOf numThreads callers events).filterMap WorkAction.finished ~
        (actionsOf numThreads callers events).filterMap WorkAction.taken := by
  have hinv := inv_of_run hrun
  have hgone := gone_of_not_alive hinv hready halive
  obtain ⟨jobs, howns, hservice⟩ := pool_refines_service hrun
  have hlen : s.jobqueue.len = jobs.length := howns.holds.len
  have hhand : s.inHand = [] := by
    refine List.filterMap_eq_nil_iff.mpr fun place hmem => ?_
    rw [hgone place hmem]
    rfl
  constructor
  · obtain ⟨memory', hclear, hkept⟩ := jobqueueClear_spec howns.holds
      (List.nodup_append.mp howns.nodup).1 (hlen ▸ hfuel)
    refine ⟨memory', hclear, fun a => ?_⟩
    have hnone : ¬ (memory' a).isSome := by
      rw [hkept a, howns.allocated a, hhand, List.append_nil]
      exact fun h => h.2 h.1
    simpa using hnone
  · obtain ⟨htaken, -, -⟩ := works_accounted hservice
    have hdone := finished_perm_taken hrun fun place hmem => by rw [hgone place hmem]; rfl
    refine ⟨jobs.filterMap s.memory.workOf, ?_, htaken.symm, hdone⟩
    rw [hlen]
    refine List.filterMap_length_eq_length.mpr fun a ha => ?_
    rw [Memory.isSome_workOf]
    exact howns.holds.allocated a ha

def lateWork : List (Event Nat) :=
  [.thread 0 0, .initialised, .thread 0 0, .stop, .addWork 0 7 100, .post 0 0, .thread 0 0,
    .thread 0 0, .thread 0 0, .thread 0 0]

theorem destroy_frees_all_jobs_lateWork :
    ∃ s, run step (init 1 1) lateWork = some s ∧
      (∃ memory', jobqueueClear 2 s.memory s.jobqueue = some (memory', jobqueueInit) ∧
        ∀ a, memory' a = none) ∧
      ∃ lost : List Nat, lost.length = 1 ∧
        (actionsOf 1 1 lateWork).filterMap WorkAction.added =
          (actionsOf 1 1 lateWork).filterMap WorkAction.taken ++ lost := by
  obtain ⟨s, hs, hready, halive, hlen⟩ :
      ∃ s, run step (init 1 1) lateWork = some s ∧ s.initialised = true ∧
        s.numThreadsAlive = 0 ∧ s.jobqueue.len = 1 := exists_of_any (by decide)
  obtain ⟨hfreed, lost, hlost, hadded, -⟩ :=
    destroy_frees_all_jobs hs hready halive (hlen ▸ (by decide : 1 < 2))
  exact ⟨s, hs, hfreed, lost, hlost.trans hlen, hadded⟩

end Thpool

end SysprogTeam3.ThreadPool
