import SysprogTeam3.ThreadPool.Service

/-!
# Every work gets done

The steps that the pool takes by itself are those of its workers and the rest of
the calls that the program has made.  They come to an end in every order, and
when none is possible any more, every work that was added has been done.
-/

namespace SysprogTeam3.ThreadPool

open SysprogTeam3.Foundation
open scoped List

variable {ω : Type}

/-- A step of a worker, or of a call that has begun. -/
def Event.IsInternal : Event ω → Prop
  | .thread _ _ | .post _ _ | .test _ => True
  | _ => False

instance (e : Event ω) : Decidable e.IsInternal :=
  match e with
  | .thread _ _ | .post _ _ | .test _ => isTrue trivial
  | .initialised | .wakeThread _ | .addWork _ _ _ | .wait _ | .wakeCaller _ | .stop
  | .postAll => isFalse id

def Event.IsStop : Event ω → Bool
  | .stop => true
  | _ => false

/-- A bound on the steps from this place to sleep, when nobody posts. -/
def Place.weight : Place → Nat
  | .sleeping | .gone => 0
  | .atWait | .exiting => 1
  | .atLoop => 2
  | .starting => 3
  | .leaving => 4
  | .running _ => 5
  | .pulled _ => 6
  | .counted => 7
  | .entered => 8
  | .passed => 9
  -- also a round of the worker that the post lets pass
  | .posting _ => 17

def CallPlace.weight : CallPlace → Nat
  | .idle | .sleeping => 0
  | .testing => 1
  | .posting => 11

/-- What a posted semaphore lets a worker do. -/
def postWeight : Bool → Nat
  | true => 9
  | false => 0

namespace Thpool

def measure (s : Thpool ω) : Nat :=
  total Place.weight s.threads + total CallPlace.weight s.callers + postWeight s.v +
    11 * s.jobqueue.len

section Measure

variable {s s' : Thpool ω} {jobs : List Addr} {n woken caller : Nat} {place next : Place}

theorem measure_lt_of_move (hplace : s.threads[n]? = some place)
    (hthreads : s'.threads = s.threads.set n next)
    (hless : next.weight + total CallPlace.weight s'.callers + postWeight s'.v +
        11 * s'.jobqueue.len <
      place.weight + total CallPlace.weight s.callers + postWeight s.v +
        11 * s.jobqueue.len) :
    s'.measure < s.measure := by
  have htotal := total_set_add hplace next Place.weight
  rw [measure, measure, hthreads]
  omega

theorem measure_lt_of_weight (hplace : s.threads[n]? = some place)
    (hthreads : s'.threads = s.threads.set n next) (hcallers : s'.callers = s.callers)
    (hv : s'.v = s.v) (hlen : s'.jobqueue.len = s.jobqueue.len)
    (hless : next.weight < place.weight) : s'.measure < s.measure := by
  refine measure_lt_of_move hplace hthreads ?_
  rw [hcallers, hv, hlen]
  omega

theorem measure_bsemPost_le (hstep : s.bsemPost woken = some s') :
    s'.measure ≤ s.measure + 10 := by
  obtain ⟨threads, hsignal, rfl⟩ := bsemPost_eq_some.mp hstep
  have htotal := total_signal_le Place.weight hsignal
  simp only [Place.weight] at htotal
  simp only [measure, postWeight]
  omega

theorem measure_pull (h : s.Owns jobs) (hplace : s.threads[n]? = some .counted)
    (hstep : s.pull n = some s') : s'.measure < s.measure := by
  obtain ⟨-, ⟨rfl, rfl⟩ | ⟨a, rest, jobqueue, rfl, hrest, hnext⟩⟩ := pull_cases h hstep
  · exact measure_lt_of_weight hplace rfl rfl rfl rfl (by simp [Place.weight])
  · have hlen : s.jobqueue.len = rest.length + 1 := h.holds.len
    have hlen' : jobqueue.len = rest.length := hrest.len
    rcases hnext with ⟨-, rfl⟩ | rfl
    · refine measure_lt_of_move hplace rfl ?_
      simp only [setPlace, Place.weight, hlen, hlen']
      omega
    · refine measure_lt_of_move hplace rfl ?_
      simp only [setPlace, Place.weight, hlen, hlen']
      omega

theorem measure_threadDo (h : s.Owns jobs) (hplace : s.threads[n]? = some place)
    (hstep : s.threadDo n woken place = some s') : s'.measure < s.measure := by
  cases place with
  | counted => exact measure_pull h hplace hstep
  | starting | entered | exiting | running a =>
      simp only [threadDo, Option.some.injEq] at hstep
      subst hstep
      exact measure_lt_of_weight hplace rfl rfl rfl rfl (by simp [Place.weight])
  | atLoop | passed =>
      simp only [threadDo, Option.some.injEq] at hstep
      subst hstep
      refine measure_lt_of_weight hplace rfl rfl rfl rfl ?_
      cases s.threadsKeepalive <;> simp [Place.weight]
  | atWait =>
      simp only [threadDo, Option.some.injEq] at hstep
      subst hstep
      cases hv : s.v
      · exact measure_lt_of_weight hplace rfl rfl rfl rfl (by simp [Place.weight])
      · refine measure_lt_of_move hplace rfl ?_
        simp only [setPlace, Place.weight, postWeight, hv, if_true]
        omega
  | sleeping | gone => simp [threadDo] at hstep
  | posting a =>
      obtain ⟨posted, hpost, rfl⟩ := Option.map_eq_some_iff.mp hstep
      have hle := measure_bsemPost_le hpost
      obtain ⟨threads, hsignal, rfl⟩ := bsemPost_eq_some.mp hpost
      have hplace' : threads[n]? = some (.posting a) :=
        signal_place hsignal hplace (by simp)
      have htotal := total_set_add hplace' (.pulled (some a)) Place.weight
      simp only [Place.weight] at htotal
      simp only [measure, setPlace] at hle ⊢
      omega
  | pulled job =>
      cases job with
      | none =>
          simp only [threadDo, Option.some.injEq] at hstep
          subst hstep
          exact measure_lt_of_weight hplace rfl rfl rfl rfl (by simp [Place.weight])
      | some a =>
          simp only [threadDo, Option.ite_none_right_eq_some, Option.some.injEq] at hstep
          obtain ⟨-, rfl⟩ := hstep
          exact measure_lt_of_weight hplace rfl rfl rfl rfl (by simp [Place.weight])
  | leaving =>
      obtain ⟨callers, rfl, hcallers⟩ := leaving_cases hstep
      refine measure_lt_of_move hplace rfl ?_
      simp only [setPlace, Place.weight]
      rcases hcallers with ⟨-, rfl⟩ | ⟨-, hsignal⟩
      · omega
      · have htotal := total_signal_le CallPlace.weight hsignal
        simp only [CallPlace.weight] at htotal
        omega

theorem measure_step (h : s.Inv) {e : Event ω} (hinternal : e.IsInternal)
    (hstep : s.step e = some s') : s'.measure < s.measure := by
  obtain ⟨jobs, howns⟩ := h.owns
  cases e with
  | thread n woken =>
      obtain ⟨place, hplace, hdo⟩ := Option.bind_eq_some_iff.mp hstep
      exact measure_threadDo howns hplace hdo
  | post caller woken =>
      simp only [step, Option.ite_none_right_eq_some, Option.map_eq_some_iff] at hstep
      obtain ⟨hcaller, posted, hpost, rfl⟩ := hstep
      have hle := measure_bsemPost_le hpost
      obtain ⟨threads, hsignal, rfl⟩ := bsemPost_eq_some.mp hpost
      have htotal := total_set_add hcaller .idle CallPlace.weight
      simp only [CallPlace.weight] at htotal
      simp only [measure, setCaller] at hle ⊢
      omega
  | test caller =>
      simp only [step, Option.ite_none_right_eq_some, Option.some.injEq] at hstep
      obtain ⟨hcaller, rfl⟩ := hstep
      have htotal : ∀ after : CallPlace, after.weight = 0 →
          total CallPlace.weight (s.callers.set caller after) + 1 =
            total CallPlace.weight s.callers := by
        intro after hafter
        have hset := total_set_add hcaller after CallPlace.weight
        rw [hafter] at hset
        exact hset
      by_cases hbusy : s.jobqueue.len ≠ 0 ∨ s.numThreadsWorking ≠ 0
      · have hset := htotal .sleeping rfl
        simp only [measure, testIdle, setCaller, hbusy, if_true]
        omega
      · have hset := htotal .idle rfl
        simp only [measure, testIdle, setCaller, hbusy, if_false]
        omega
  | initialised | wakeThread n | addWork caller newjob work | wait caller
  | wakeCaller caller | stop | postAll => exact hinternal.elim

theorem measure_addWork (h : s.Owns jobs) {newjob : Addr} {work : ω}
    (hstep : s.step (.addWork caller newjob work) = some s') :
    s'.measure = s.measure + 22 := by
  simp only [Thpool.step, Option.ite_none_right_eq_some] at hstep
  obtain ⟨⟨-, hcaller⟩, hadd⟩ := hstep
  have hlen : s'.jobqueue.len = s.jobqueue.len + 1 := by
    rw [(h.addWork hadd).1.holds.len, h.holds.len, List.length_append, List.length_singleton]
  obtain ⟨-, memory, jobqueue, rfl⟩ := addWork_eq_some hadd
  have hcallers := total_set_add hcaller .posting CallPlace.weight
  simp only [setCaller, CallPlace.weight] at hlen hcallers
  simp only [measure, setCaller, hlen]
  omega

end Measure

section InternalRuns

variable {s s' : Thpool ω}

theorem inv_internal (t : Thpool ω) (e : Event ω) (t' : Thpool ω) (h : t.Inv)
    (_ : e.IsInternal) (hstep : t.step e = some t') : t'.Inv := h.step hstep

theorem measure_internal (t : Thpool ω) (e : Event ω) (t' : Thpool ω) (h : t.Inv)
    (hinternal : e.IsInternal) (hstep : t.step e = some t') : t'.measure < t.measure :=
  measure_step h hinternal hstep

theorem internal_length_le (h : s.Inv) {more : List (Event ω)}
    (hinternal : ∀ e ∈ more, e.IsInternal) (hmore : run step s more = some s') :
    more.length ≤ s.measure := by
  have hlength := length_add_measure_le inv_internal measure_internal h hinternal hmore
  omega

theorem exists_internal_run (h : s.Inv) :
    ∃ more s', (∀ e ∈ more, Event.IsInternal e) ∧ run step s more = some s' ∧
      Quiescent step Event.IsInternal s' :=
  exists_run_quiescent inv_internal measure_internal h

end InternalRuns

/-! ## When the pool has come to rest -/

section Rest

variable {s s' : Thpool ω} {jobs : List Addr} {n : Nat} {place : Place}

/--
Every worker that is not asleep, not done and not kept waiting for `rwmutex` can
go on: it never follows a pointer to no job.
-/
theorem thread_can_step (h : s.Inv) (hplace : s.threads[n]? = some place)
    (hasleep : place ≠ .sleeping) (hgone : place ≠ .gone)
    (hlock : place = .counted → s.rwmutex = false) :
    ∃ woken s', s.step (.thread n woken) = some s' := by
  obtain ⟨jobs, howns⟩ := h.owns
  have hdo : ∃ woken s', s.threadDo n woken place = some s' := by
    cases place with
    | starting | atLoop | atWait | passed | entered | running a | exiting =>
        exact ⟨0, _, rfl⟩
    | sleeping => exact absurd rfl hasleep
    | gone => exact absurd rfl hgone
    | counted =>
        have hfree := hlock rfl
        refine ⟨0, ?_⟩
        cases jobs with
        | nil =>
            have hlen : s.jobqueue.len = 0 := howns.holds.len
            exact ⟨_, by simp [threadDo, pull, hfree, jobqueuePull_nil howns.holds, hlen]; rfl⟩
        | cons a jobs =>
            obtain ⟨jobqueue, hpull, -⟩ := jobqueuePull_cons howns.holds
            by_cases hone : s.jobqueue.len < 2
            · exact ⟨_, by simp [threadDo, pull, hfree, hpull, hone]; rfl⟩
            · exact ⟨_, by simp [threadDo, pull, hfree, hpull, hone]; rfl⟩
    | posting a =>
        obtain ⟨woken, threads, hsignal⟩ := exists_signal .sleeping .atWait s.threads
        exact ⟨woken, _, by simp [threadDo, bsemPost, hsignal]; rfl⟩
    | pulled job =>
        cases job with
        | none => exact ⟨0, _, rfl⟩
        | some a =>
            have hallocated := (howns.allocated a).mpr
              (List.mem_append_right _ (mem_inHand hplace rfl))
            exact ⟨0, _, by simp [threadDo, hallocated]; rfl⟩
    | leaving =>
        obtain ⟨woken, callers, hsignal⟩ := exists_signal .sleeping .testing s.callers
        by_cases hidle : s.numThreadsWorking - 1 = 0
        · exact ⟨woken, _, by simp [threadDo, setPlace, hidle, hsignal]; rfl⟩
        · exact ⟨woken, _, by simp [threadDo, setPlace, hidle]; rfl⟩
  obtain ⟨woken, s', hdo⟩ := hdo
  exact ⟨woken, s', by simp [step, hplace, hdo]⟩

theorem post_can_step {caller : Nat} (hcaller : s.callers[caller]? = some .posting) :
    ∃ woken s', s.step (.post caller woken) = some s' := by
  obtain ⟨woken, threads, hsignal⟩ := exists_signal .sleeping .atWait s.threads
  exact ⟨woken, _, by simp [step, hcaller, bsemPost, hsignal]; rfl⟩

theorem addWork_can_step (h : s.Inv) {caller : Nat} (hready : s.initialised = true)
    (hcaller : s.callers[caller]? = some .idle) (hlock : s.rwmutex = false) (work : ω) :
    ∃ newjob s', s.step (.addWork caller newjob work) = some s' := by
  obtain ⟨jobs, howns⟩ := h.owns
  have hfresh : (jobs ++ s.inHand).max?.getD 0 + 1 ∉ jobs ++ s.inHand := fun hmem =>
    Nat.not_succ_le_self _ (List.le_max?_getD_of_mem hmem)
  generalize (jobs ++ s.inHand).max?.getD 0 + 1 = newjob at hfresh
  have hnone : s.memory newjob = none := by
    simpa using fun hsome => hfresh ((howns.allocated newjob).mp hsome)
  have hnew : newjob ∉ jobs := fun hmem => hfresh (List.mem_append_left _ hmem)
  have hheld : Holds (s.memory.malloc newjob ⟨none, work⟩) s.jobqueue jobs :=
    howns.holds.congr fun a ha => Function.update_of_ne (ne_of_mem_of_not_mem ha hnew) _ _
  obtain ⟨memory, jobqueue, hpush, -⟩ :=
    jobqueuePush_spec hheld hnew (by simp [Memory.malloc])
  exact ⟨newjob, _, by simp [step, hready, hcaller, addWork, hlock, hnone, hpush]; rfl⟩

theorem quiescent_of_asleep (hthreads : ∀ place ∈ s.threads, place = .sleeping ∨ place = .gone)
    (hcallers : ∀ place ∈ s.callers, place = .idle ∨ place = .sleeping) :
    Quiescent step Event.IsInternal s := by
  intro e he
  cases e with
  | thread n woken =>
      cases hplace : s.threads[n]? with
      | none => simp [step, hplace]
      | some place =>
          rcases hthreads place (mem_of_place hplace) with rfl | rfl <;>
            simp [step, hplace, threadDo]
  | post caller woken =>
      refine if_neg fun hcaller => ?_
      rcases hcallers _ (mem_of_place hcaller) with hplace | hplace <;>
        exact absurd hplace (by simp)
  | test caller =>
      refine if_neg fun hcaller => ?_
      rcases hcallers _ (mem_of_place hcaller) with hplace | hplace <;>
        exact absurd hplace (by simp)
  | initialised | wakeThread n | addWork caller newjob work | wait caller
  | wakeCaller caller | stop | postAll => exact he.elim

theorem unlocked_of_quiescent (h : s.Inv) (hquiet : Quiescent step Event.IsInternal s) :
    s.rwmutex = false := by
  by_contra hlocked
  have hlock := h.counts.lock
  rw [if_pos (by simpa using hlocked)] at hlock
  have hholder : 0 < s.threads.countP Place.isPosting ∨
      0 < s.callers.countP CallPlace.isPosting := by omega
  rcases hholder with hpos | hpos
  · obtain ⟨place, hmem, hposting⟩ := List.countP_pos_iff.mp hpos
    obtain ⟨n, hplace⟩ := List.mem_iff_getElem?.mp hmem
    cases place <;> simp only [Place.isPosting, Bool.false_eq_true] at hposting
    obtain ⟨woken, s', hstep⟩ :=
      thread_can_step h hplace (by simp) (by simp) (by simp)
    exact absurd (hquiet (.thread n woken) trivial) (by simp [hstep])
  · obtain ⟨place, hmem, hposting⟩ := List.countP_pos_iff.mp hpos
    obtain ⟨caller, hcaller⟩ := List.mem_iff_getElem?.mp hmem
    cases place <;> simp only [CallPlace.isPosting, Bool.false_eq_true] at hposting
    obtain ⟨woken, s', hstep⟩ := post_can_step hcaller
    exact absurd (hquiet (.post caller woken) trivial) (by simp [hstep])

theorem asleep_or_gone_of_quiescent (h : s.Inv)
    (hquiet : Quiescent step Event.IsInternal s) :
    ∀ place ∈ s.threads, place = .sleeping ∨ place = .gone := by
  intro place hmem
  obtain ⟨n, hplace⟩ := List.mem_iff_getElem?.mp hmem
  by_contra hawake
  obtain ⟨hasleep, hgone⟩ := not_or.mp hawake
  obtain ⟨woken, s', hstep⟩ := thread_can_step h hplace hasleep hgone
    (fun _ => unlocked_of_quiescent h hquiet)
  exact absurd (hquiet (.thread n woken) trivial) (by simp [hstep])

theorem len_of_quiescent (h : s.Inv) (hquiet : Quiescent step Event.IsInternal s)
    (hkeep : s.threadsKeepalive) (hthreads : s.threads ≠ []) : s.jobqueue.len = 0 := by
  have hasleep : ∀ place ∈ s.threads, place = .sleeping := by
    intro place hmem
    refine (asleep_or_gone_of_quiescent h hquiet place hmem).resolve_right ?_
    rintro rfl
    exact absurd (h.wakes.staying hkeep _ hmem) (by simp [Place.isEnding])
  obtain ⟨place, hmem⟩ := List.exists_mem_of_ne_nil _ hthreads
  have hsleeper : .sleeping ∈ s.threads := hasleep place hmem ▸ hmem
  by_contra hjobs
  rcases h.wakes.coming hkeep hjobs with hv | hlocked | ⟨other, hother, hcoming⟩
  · have hawake := hasleep _ (h.wakes.heard hv hsleeper)
    exact absurd hawake (by simp)
  · exact absurd hlocked (by simp [unlocked_of_quiescent h hquiet])
  · rw [hasleep other hother] at hcoming
    exact absurd hcoming (by simp [Place.isComing])

structure Keeps (s s' : Thpool ω) : Prop where
  threads : s'.threads.length = s.threads.length
  callers : s'.callers.length = s.callers.length
  initialised : s.initialised = true → s'.initialised = true

theorem threadDo_keeps {woken : Nat} (hstep : s.threadDo n woken place = some s') :
    s.Keeps s' ∧ s'.threadsKeepalive = s.threadsKeepalive := by
  cases place with
  | posting a =>
      obtain ⟨posted, hpost, rfl⟩ := Option.map_eq_some_iff.mp hstep
      obtain ⟨threads, hsignal, rfl⟩ := bsemPost_eq_some.mp hpost
      exact ⟨⟨by simp [setPlace, length_signal hsignal], rfl, id⟩, rfl⟩
  | leaving =>
      obtain ⟨callers, rfl, ⟨-, rfl⟩ | ⟨-, hsignal⟩⟩ := leaving_cases hstep
      · exact ⟨⟨by simp [setPlace], rfl, id⟩, rfl⟩
      · exact ⟨⟨by simp [setPlace], length_signal hsignal, id⟩, rfl⟩
  | counted =>
      simp only [threadDo, pull, Option.ite_none_left_eq_some, Option.bind_eq_some_iff] at hstep
      obtain ⟨-, result, -, hnext⟩ := hstep
      by_cases hone : s.jobqueue.len < 2
      · simp only [hone, if_true, Option.some.injEq] at hnext
        subst hnext
        exact ⟨⟨by simp [setPlace], rfl, id⟩, rfl⟩
      · simp only [hone, if_false, Option.map_eq_some_iff] at hnext
        obtain ⟨job, -, rfl⟩ := hnext
        exact ⟨⟨by simp [setPlace], rfl, id⟩, rfl⟩
  | atWait =>
      simp only [threadDo, Option.some.injEq] at hstep
      subst hstep
      cases s.v <;> exact ⟨⟨by simp [setPlace], rfl, id⟩, rfl⟩
  | sleeping | gone => simp [threadDo] at hstep
  | pulled job =>
      cases job with
      | none =>
          simp only [threadDo, Option.some.injEq] at hstep
          subst hstep
          exact ⟨⟨by simp [setPlace], rfl, id⟩, rfl⟩
      | some a =>
          simp only [threadDo, Option.ite_none_right_eq_some, Option.some.injEq] at hstep
          obtain ⟨-, rfl⟩ := hstep
          exact ⟨⟨by simp [setPlace], rfl, id⟩, rfl⟩
  | starting | atLoop | passed | entered | running a | exiting =>
      simp only [threadDo, Option.some.injEq] at hstep
      subst hstep
      exact ⟨⟨by simp [setPlace], rfl, id⟩, rfl⟩

theorem keeps_of_step {e : Event ω} (hstep : s.step e = some s') :
    s.Keeps s' ∧ (e.IsStop = false → s'.threadsKeepalive = s.threadsKeepalive) := by
  cases e with
  | thread n woken =>
      obtain ⟨place, hplace, hdo⟩ := Option.bind_eq_some_iff.mp hstep
      obtain ⟨hkeeps, halive⟩ := threadDo_keeps hdo
      exact ⟨hkeeps, fun _ => halive⟩
  | post caller woken =>
      simp only [step, Option.ite_none_right_eq_some, Option.map_eq_some_iff] at hstep
      obtain ⟨-, posted, hpost, rfl⟩ := hstep
      obtain ⟨threads, hsignal, rfl⟩ := bsemPost_eq_some.mp hpost
      exact ⟨⟨length_signal hsignal, by simp [setCaller], id⟩, fun _ => rfl⟩
  | addWork caller newjob work =>
      simp only [step, Option.ite_none_right_eq_some] at hstep
      obtain ⟨-, memory, jobqueue, rfl⟩ := addWork_eq_some hstep.2
      exact ⟨⟨rfl, by simp [setCaller], id⟩, fun _ => rfl⟩
  | stop =>
      simp only [step, Option.ite_none_right_eq_some, Option.some.injEq] at hstep
      obtain ⟨-, rfl⟩ := hstep
      exact ⟨⟨rfl, rfl, id⟩, by simp [Event.IsStop]⟩
  | initialised | wait caller | test caller | wakeCaller caller | wakeThread n | postAll =>
      simp only [step, Option.ite_none_right_eq_some, Option.some.injEq] at hstep
      obtain ⟨-, rfl⟩ := hstep
      refine ⟨⟨?_, ?_, ?_⟩, fun _ => rfl⟩ <;>
        simp [setPlace, setCaller, testIdle, broadcast]

theorem length_step {e : Event ω} (hstep : s.step e = some s') :
    s'.threads.length = s.threads.length := (keeps_of_step hstep).1.threads

theorem threadsKeepalive_internal {e : Event ω} (hinternal : e.IsInternal)
    (hstep : s.step e = some s') : s'.threadsKeepalive = s.threadsKeepalive := by
  refine (keeps_of_step hstep).2 ?_
  cases e with
  | stop => exact hinternal.elim
  | _ => rfl

theorem threadsKeepalive_internal_run {more : List (Event ω)}
    (hinternal : ∀ e ∈ more, e.IsInternal) (hmore : run step s more = some s') :
    s'.threadsKeepalive = s.threadsKeepalive := by
  have hkept : ∀ (t : Thpool ω) (e : Event ω) t',
      t.threadsKeepalive = s.threadsKeepalive → e.IsInternal → t.step e = some t' →
        t'.threadsKeepalive = s.threadsKeepalive :=
    fun _ _ _ ht he hstep => (threadsKeepalive_internal he hstep).trans ht
  exact run_invariant hkept rfl (AllSteps.of_mem hinternal) hmore

theorem exists_addWork {e : Event ω} {work : ω}
    (h : work ∈ (s.actions e).filterMap WorkAction.added) :
    ∃ caller newjob, e = .addWork caller newjob work := by
  obtain ⟨action, haction, hadded⟩ := List.mem_filterMap.mp h
  cases e with
  | addWork caller newjob other =>
      obtain rfl := List.mem_singleton.mp haction
      exact ⟨caller, newjob, by rw [Option.some.inj hadded]⟩
  | thread n woken =>
      simp only [actions] at haction
      split at haction <;> simp only [List.mem_map, List.not_mem_nil] at haction
      all_goals
        obtain ⟨other, -, rfl⟩ := haction
        cases hadded
  | _ => cases haction

theorem added_internal {e : Event ω} (hinternal : e.IsInternal) :
    (s.actions e).filterMap WorkAction.added = [] := by
  refine List.eq_nil_iff_forall_not_mem.mpr fun work hwork => ?_
  obtain ⟨caller, newjob, rfl⟩ := exists_addWork hwork
  exact hinternal.elim

theorem added_observed_internal {more : List (Event ω)}
    (hinternal : ∀ e ∈ more, e.IsInternal) :
    (observed step actions s more).filterMap WorkAction.added = [] := by
  induction more generalizing s with
  | nil => rfl
  | cons e more ih =>
      have hrest : ∀ e' ∈ more, e'.IsInternal :=
        fun e' he' => hinternal e' (List.mem_cons_of_mem e he')
      rw [observed, List.filterMap_append, added_internal (hinternal e List.mem_cons_self)]
      cases step s e with
      | none => rfl
      | some next => exact ih hrest

end Rest

/-! ## Main results -/

section Results

variable {s : Thpool ω} {numThreads callers : Nat} {events : List (Event ω)}

theorem length_of_run (hrun : run step (init numThreads callers) events = some s) :
    s.threads.length = numThreads := by
  have hkept : ∀ (t : Thpool ω) (e : Event ω) t', t.threads.length = numThreads → True →
      t.step e = some t' → t'.threads.length = numThreads :=
    fun _ _ _ ht _ hstep => (length_step hstep).trans ht
  exact run_invariant hkept (by simp [init]) (.of_forall (fun _ _ => trivial) _ _) hrun

/--
In every reachable state each allocated job is either in the queue or in the hands
of one worker, once, and each queued or held job is allocated.  Every worker that
is not asleep, done or waiting for `rwmutex` can go on, so none has lost its job.
-/
theorem jobs_owned_once (hrun : run step (init numThreads callers) events = some s) :
    (∃ jobs, Holds s.memory s.jobqueue jobs ∧ (jobs ++ s.inHand).Nodup ∧
      ∀ a, (s.memory a).isSome ↔ a ∈ jobs ++ s.inHand) ∧
    ∀ n place, s.threads[n]? = some place → place ≠ .sleeping → place ≠ .gone →
      (place = .counted → s.rwmutex = false) →
        ∃ woken s', s.step (.thread n woken) = some s' := by
  have hinv := inv_of_run hrun
  obtain ⟨jobs, howns⟩ := hinv.owns
  exact ⟨⟨jobs, howns.holds, howns.nodup, howns.allocated⟩,
    fun n place hplace hasleep hgone hlock => thread_can_step hinv hplace hasleep hgone hlock⟩

theorem jobs_owned_once_twoWorks :
    ∃ s, run step (init 1 1) twoWorks = some s ∧
      (∃ jobs, Holds s.memory s.jobqueue jobs ∧ (jobs ++ s.inHand).Nodup ∧
        ∀ a, (s.memory a).isSome ↔ a ∈ jobs ++ s.inHand) := by
  obtain ⟨s, hs⟩ := Option.isSome_iff_exists.mp (by decide :
    (run step (init 1 1) twoWorks).isSome)
  exact ⟨s, hs, (jobs_owned_once hs).1⟩

variable [DecidableEq ω]

theorem all_finished_at_rest (hrun : run step (init numThreads callers) events = some s)
    (hthreads : numThreads ≠ 0) (hkeep : s.threadsKeepalive)
    (hquiet : Quiescent step Event.IsInternal s) :
    (actionsOf numThreads callers events).filterMap WorkAction.finished ~
      (actionsOf numThreads callers events).filterMap WorkAction.added := by
  have hinv := inv_of_run hrun
  refine finished_perm_added hrun (fun place hmem => ?_) ?_
  · rcases asleep_or_gone_of_quiescent hinv hquiet place hmem with rfl | rfl <;> rfl
  · exact len_of_quiescent hinv hquiet hkeep
      (List.ne_nil_of_length_pos (by rw [length_of_run hrun]; omega))

/--
From every reachable state of a pool with a worker that is kept alive, the steps
that the pool takes by itself are bounded in number whatever their order, and when
none is possible any more every work that had been added has been done, once.
-/
theorem works_all_finish (hrun : run step (init (numThreads + 1) callers) events = some s)
    (hkeep : s.threadsKeepalive) :
    (∀ more s', (∀ e ∈ more, e.IsInternal) → run step s more = some s' →
      more.length ≤ s.measure ∧
        (Quiescent step Event.IsInternal s' →
          (actionsOf (numThreads + 1) callers (events ++ more)).filterMap
              WorkAction.finished ~
            (actionsOf (numThreads + 1) callers events).filterMap WorkAction.added)) ∧
    ∃ more s', (∀ e ∈ more, e.IsInternal) ∧ run step s more = some s' ∧
      Quiescent step Event.IsInternal s' := by
  have hinv := inv_of_run hrun
  refine ⟨fun more s' hinternal hmore => ⟨?_, fun hquiet => ?_⟩, ?_⟩
  · exact internal_length_le hinv hinternal hmore
  · have hall : run step (init (numThreads + 1) callers) (events ++ more) = some s' :=
      run_append_eq_some.mpr ⟨s, hrun, hmore⟩
    have hkeep' : s'.threadsKeepalive = true :=
      (threadsKeepalive_internal_run hinternal hmore).trans hkeep
    have hdone := all_finished_at_rest hall (by simp) hkeep' hquiet
    rw [actionsOf, observed_append hrun, List.filterMap_append,
      List.filterMap_append (f := WorkAction.added), added_observed_internal hinternal,
      List.append_nil] at hdone
    rw [actionsOf, observed_append hrun, List.filterMap_append]
    exact hdone
  · exact exists_internal_run hinv

theorem works_all_finish_twoWorks :
    ∃ s, run step (init 1 1) twoWorks = some s ∧
      ∃ more s', (∀ e ∈ more, Event.IsInternal e) ∧ run step s more = some s' ∧
        Quiescent step Event.IsInternal s' ∧
        (actionsOf 1 1 (twoWorks ++ more)).filterMap WorkAction.finished ~
          (actionsOf 1 1 twoWorks).filterMap WorkAction.added := by
  obtain ⟨s, hs, hkeep⟩ : ∃ s, run step (init 1 1) twoWorks = some s ∧
      s.threadsKeepalive = true := exists_of_any (by decide)
  obtain ⟨hbounded, more, s', hinternal, hmore, hquiet⟩ := works_all_finish hs hkeep
  exact ⟨s, hs, more, s', hinternal, hmore, hquiet,
    (hbounded more s' hinternal hmore).2 hquiet⟩

end Results

end Thpool

end SysprogTeam3.ThreadPool
