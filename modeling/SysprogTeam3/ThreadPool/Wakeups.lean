import SysprogTeam3.ThreadPool.Invariants

/-!
# No lost wakeup

`has_jobs` is a binary semaphore: a post that finds it posted is not counted.
While the pool is kept alive, a job in the queue nevertheless always has a post
before it or a worker that comes for it.
-/

namespace SysprogTeam3.ThreadPool

open SysprogTeam3.Foundation

variable {ω : Type}

namespace Place

def isComing : Place → Bool
  | .passed | .entered | .counted => true
  | _ => false

def isEnding : Place → Bool
  | .exiting | .gone => true
  | _ => false

end Place

namespace Thpool

/-- With jobs in the queue somebody posts, has posted or comes, and a posted
semaphore finds a worker awake that will test it when one is asleep. -/
structure Wakes (s : Thpool ω) : Prop where
  staying : s.threadsKeepalive → ∀ place ∈ s.threads, place.isEnding = false
  coming : s.threadsKeepalive → s.jobqueue.len ≠ 0 →
    s.v ∨ s.rwmutex ∨ ∃ place ∈ s.threads, place.isComing
  heard : s.v → .sleeping ∈ s.threads → .atWait ∈ s.threads
  started : s.initialised → ∀ place ∈ s.threads, place ≠ .starting

structure Inv (s : Thpool ω) : Prop where
  owns : ∃ jobs, s.Owns jobs
  counts : s.Counts
  wakes : s.Wakes

section Workers

variable {s s' : Thpool ω} {n woken : Nat} {place next : Place}

theorem exists_coming_set (hplace : s.threads[n]? = some place)
    (hcoming : place.isComing → next.isComing)
    (h : ∃ place ∈ s.threads, place.isComing) :
    ∃ place ∈ s.threads.set n next, place.isComing := by
  obtain ⟨other, hmem, hother⟩ := h
  by_cases hsame : other = place
  · exact ⟨next, mem_set_of_place hplace next, hcoming (hsame ▸ hother)⟩
  · exact ⟨other, mem_set_of_ne hplace hmem hsame next, hother⟩

theorem heard_set (hplace : s.threads[n]? = some place) (hwait : place ≠ .atWait)
    (hasleep : next ≠ .sleeping) (h : .sleeping ∈ s.threads → .atWait ∈ s.threads) :
    .sleeping ∈ s.threads.set n next → .atWait ∈ s.threads.set n next := by
  intro hsome
  have hold := (List.mem_or_eq_of_mem_set hsome).resolve_right hasleep.symm
  exact mem_set_of_ne hplace (h hold) hwait.symm next

theorem Wakes.move (h : s.Wakes) (hplace : s.threads[n]? = some place)
    (hthreads : s'.threads = s.threads.set n next) (hv : s'.v = s.v)
    (hcoming : s.threadsKeepalive → s'.jobqueue.len ≠ 0 →
      s'.v ∨ s'.rwmutex ∨ ∃ place ∈ s'.threads, place.isComing)
    (hkeep : s'.threadsKeepalive = s.threadsKeepalive)
    (hinit : s'.initialised = s.initialised)
    (hending : s.threadsKeepalive → next.isEnding = false)
    (hwait : place ≠ .atWait) (hasleep : next ≠ .sleeping) (hstarting : next ≠ .starting) :
    s'.Wakes := by
  refine ⟨?_, by rwa [hkeep], ?_, ?_⟩
  · rw [hkeep, hthreads]
    exact fun halive => forall_mem_set (h.staying halive) (hending halive) n
  · rw [hv, hthreads]
    exact fun hposted => heard_set hplace hwait hasleep (h.heard hposted)
  · rw [hinit, hthreads]
    exact fun hready => forall_mem_set (h.started hready) hstarting n

theorem Wakes.moveQuietly (h : s.Wakes) (hplace : s.threads[n]? = some place)
    (hthreads : s'.threads = s.threads.set n next) (hv : s'.v = s.v)
    (hrwmutex : s'.rwmutex = s.rwmutex) (hlen : s'.jobqueue.len = s.jobqueue.len)
    (hkeep : s'.threadsKeepalive = s.threadsKeepalive)
    (hinit : s'.initialised = s.initialised)
    (hcoming : s.threadsKeepalive → place.isComing → next.isComing)
    (hending : s.threadsKeepalive → next.isEnding = false)
    (hwait : place ≠ .atWait) (hasleep : next ≠ .sleeping) (hstarting : next ≠ .starting) :
    s'.Wakes := by
  refine h.move hplace hthreads hv (fun halive hjobs => ?_) hkeep hinit hending hwait hasleep
    hstarting
  rw [hlen] at hjobs
  rw [hv, hrwmutex, hthreads]
  exact (h.coming halive hjobs).imp_right
    (Or.imp_right (exists_coming_set hplace (hcoming halive)))

theorem Wakes.atWait (h : s.Wakes) (hplace : s.threads[n]? = some .atWait) :
    (if s.v then { s with v := false }.setPlace n .passed else s.setPlace n .sleeping).Wakes := by
  cases hv : s.v with
  | true =>
      rw [if_pos rfl]
      refine ⟨fun halive => forall_mem_set (h.staying halive) rfl n, fun _ _ => ?_,
        fun hposted => absurd hposted (by simp [setPlace]),
        fun hready => forall_mem_set (h.started hready) (by simp) n⟩
      exact .inr (.inr ⟨.passed, mem_set_of_place hplace .passed, rfl⟩)
  | false =>
      rw [if_neg (by simp)]
      refine ⟨fun halive => forall_mem_set (h.staying halive) rfl n, fun halive hjobs => ?_,
        fun hposted => absurd hposted (by simp [setPlace, hv]),
        fun hready => forall_mem_set (h.started hready) (by simp) n⟩
      exact (h.coming halive hjobs).imp_right
        (Or.imp_right (exists_coming_set hplace (by simp [Place.isComing])))

theorem Wakes.bsemPost (h : s.Wakes) (hstep : s.bsemPost woken = some s') : s'.Wakes := by
  obtain ⟨threads, hsignal, rfl⟩ := bsemPost_eq_some.mp hstep
  refine ⟨fun halive => forall_mem_signal hsignal (h.staying halive) rfl, fun _ _ => .inl rfl,
    fun _ hsome => ?_, fun hready => forall_mem_signal hsignal (h.started hready) (by simp)⟩
  exact awake_of_signal hsignal ((mem_signal hsignal hsome).resolve_left (by simp))

theorem Wakes.unlock (h : s.Wakes) (hv : s.v = true) : { s with rwmutex := false }.Wakes :=
  ⟨h.staying, fun _ _ => .inl hv, h.heard, h.started⟩

theorem Wakes.pull {jobs : List Addr} (h : s.Wakes) (howns : s.Owns jobs)
    (hplace : s.threads[n]? = some .counted) (hstep : s.pull n = some s') : s'.Wakes := by
  obtain ⟨-, ⟨rfl, rfl⟩ | ⟨a, rest, jobqueue, rfl, hrest, ⟨rfl, rfl⟩ | rfl⟩⟩ :=
    pull_cases howns hstep
  · exact h.move hplace rfl rfl (fun _ hjobs => absurd howns.holds.len hjobs) rfl rfl
      (fun _ => rfl) (by simp) (by simp) (by simp)
  · exact h.move hplace rfl rfl (fun _ hjobs => absurd hrest.len hjobs) rfl rfl
      (fun _ => rfl) (by simp) (by simp) (by simp)
  · exact h.move hplace rfl rfl (fun _ _ => .inr (.inl rfl)) rfl rfl
      (fun _ => rfl) (by simp) (by simp) (by simp)

theorem Wakes.threadDo {jobs : List Addr} (h : s.Wakes) (howns : s.Owns jobs)
    (hplace : s.threads[n]? = some place) (hstep : s.threadDo n woken place = some s') :
    s'.Wakes := by
  cases place with
  | counted => exact h.pull howns hplace hstep
  | starting | entered =>
      simp only [Thpool.threadDo, Option.some.injEq] at hstep
      subst hstep
      exact h.moveQuietly hplace rfl rfl rfl rfl rfl rfl (by simp [Place.isComing])
        (fun _ => rfl) (by simp) (by simp) (by simp)
  | atLoop | passed =>
      simp only [Thpool.threadDo, Option.some.injEq] at hstep
      subst hstep
      refine h.moveQuietly hplace rfl rfl rfl rfl rfl rfl ?_ ?_ (by simp) ?_ ?_ <;>
        cases s.threadsKeepalive <;> simp [Place.isComing, Place.isEnding]
  | atWait =>
      simp only [Thpool.threadDo, Option.some.injEq] at hstep
      subst hstep
      exact h.atWait hplace
  | sleeping | gone => simp [Thpool.threadDo] at hstep
  | posting a =>
      obtain ⟨posted, hpost, rfl⟩ := Option.map_eq_some_iff.mp hstep
      have hwakes := h.bsemPost hpost
      obtain ⟨threads, hsignal, rfl⟩ := bsemPost_eq_some.mp hpost
      have hplace' := signal_place hsignal hplace (by simp)
      exact (hwakes.unlock rfl).moveQuietly hplace' rfl rfl rfl rfl rfl rfl
        (by simp [Place.isComing]) (fun _ => rfl) (by simp) (by simp) (by simp)
  | pulled job =>
      cases job with
      | none =>
          simp only [Thpool.threadDo, Option.some.injEq] at hstep
          subst hstep
          exact h.moveQuietly hplace rfl rfl rfl rfl rfl rfl (by simp [Place.isComing])
            (fun _ => rfl) (by simp) (by simp) (by simp)
      | some a =>
          simp only [Thpool.threadDo, Option.ite_none_right_eq_some,
            Option.some.injEq] at hstep
          obtain ⟨-, rfl⟩ := hstep
          exact h.moveQuietly hplace rfl rfl rfl rfl rfl rfl (by simp [Place.isComing])
            (fun _ => rfl) (by simp) (by simp) (by simp)
  | running a =>
      simp only [Thpool.threadDo, Option.some.injEq] at hstep
      subst hstep
      exact h.moveQuietly hplace rfl rfl rfl rfl rfl rfl (by simp [Place.isComing])
        (fun _ => rfl) (by simp) (by simp) (by simp)
  | leaving =>
      obtain ⟨callers, rfl, -⟩ := leaving_cases hstep
      exact h.moveQuietly hplace rfl rfl rfl rfl rfl rfl (by simp [Place.isComing])
        (fun _ => rfl) (by simp) (by simp) (by simp)
  | exiting =>
      have hnot : s.threadsKeepalive = false := by
        by_contra halive
        have hstays := h.staying (by simpa using halive) _ (mem_of_place hplace)
        simp [Place.isEnding] at hstays
      simp only [Thpool.threadDo, Option.some.injEq] at hstep
      subst hstep
      exact h.moveQuietly hplace rfl rfl rfl rfl rfl rfl (by simp [hnot]) (by simp [hnot])
        (by simp) (by simp) (by simp)

end Workers

/-! ## Every step and every run -/

section Runs

variable {s s' : Thpool ω} {jobs : List Addr}

theorem addWork_eq_some {caller : Nat} {newjob : Addr} {work : ω}
    (hstep : s.addWork caller newjob work = some s') :
    s.rwmutex = false ∧ ∃ memory jobqueue, s' =
      { s with memory := memory, jobqueue := jobqueue, rwmutex := true }.setCaller
        caller .posting := by
  simp only [Thpool.addWork, Option.ite_none_left_eq_some, not_or, Bool.not_eq_true,
    Option.map_eq_some_iff] at hstep
  obtain ⟨⟨hfree, -⟩, result, -, rfl⟩ := hstep
  exact ⟨hfree, result.1, result.2, rfl⟩

theorem Wakes.of_threads (h : s.Wakes) (hthreads : s'.threads = s.threads)
    (hv : s'.v = s.v) (hrwmutex : s'.rwmutex = s.rwmutex)
    (hlen : s'.jobqueue.len = s.jobqueue.len)
    (hkeep : s'.threadsKeepalive = s.threadsKeepalive)
    (hinit : s'.initialised = s.initialised) : s'.Wakes := by
  refine ⟨?_, ?_, ?_, ?_⟩
  · rw [hkeep, hthreads]
    exact h.staying
  · rw [hkeep, hlen, hv, hrwmutex, hthreads]
    exact h.coming
  · rw [hv, hthreads]
    exact h.heard
  · rw [hinit, hthreads]
    exact h.started

/-- What the step does to the queue: a worker may take the first job, and a new
job comes last. -/
def jobsAfter (s : Thpool ω) (jobs : List Addr) : Event ω → List Addr
  | .thread n _ => if s.threads[n]? = some .counted then jobs.tail else jobs
  | .addWork _ newjob _ => jobs ++ [newjob]
  | _ => jobs

theorem Owns.step (h : s.Owns jobs) {e : Event ω} (hstep : s.step e = some s') :
    s'.Owns (s.jobsAfter jobs e) := by
  cases e with
  | thread n woken =>
      obtain ⟨place, hplace, hdo⟩ := Option.bind_eq_some_iff.mp hstep
      have hafter := h.threadDo hplace hdo
      rw [jobsAfter, hplace]
      simpa only [Option.some.injEq] using hafter
  | addWork caller newjob work =>
      simp only [Thpool.step, Option.ite_none_right_eq_some] at hstep
      exact (h.addWork hstep.2).1
  | post caller woken =>
      simp only [Thpool.step, Option.ite_none_right_eq_some, Option.map_eq_some_iff] at hstep
      obtain ⟨-, posted, hpost, rfl⟩ := hstep
      exact (h.bsemPost hpost).of_threads rfl rfl rfl
  | wakeThread n =>
      simp only [Thpool.step, Option.ite_none_right_eq_some, Option.some.injEq] at hstep
      obtain ⟨hplace, rfl⟩ := hstep
      exact h.move hplace rfl rfl rfl rfl
  | postAll =>
      simp only [Thpool.step, Option.ite_none_right_eq_some, Option.some.injEq] at hstep
      obtain ⟨-, rfl⟩ := hstep
      have hhand : (broadcast .sleeping .atWait s.threads).filterMap Place.job = s.inHand :=
        filterMap_broadcast rfl
      exact h.of_perm rfl h.holds (hhand ▸ .rfl)
  | initialised | wait caller | test caller | wakeCaller caller | stop =>
      simp only [Thpool.step, Option.ite_none_right_eq_some, Option.some.injEq] at hstep
      obtain ⟨-, rfl⟩ := hstep
      exact h.of_threads rfl rfl rfl

theorem Counts.step (h : s.Counts) (howns : s.Owns jobs) {e : Event ω}
    (hstep : s.step e = some s') : s'.Counts := by
  cases e with
  | thread n woken =>
      obtain ⟨place, hplace, hdo⟩ := Option.bind_eq_some_iff.mp hstep
      exact h.threadDo howns hplace hdo
  | addWork caller newjob work =>
      simp only [Thpool.step, Option.ite_none_right_eq_some] at hstep
      obtain ⟨hfree, memory, jobqueue, rfl⟩ := addWork_eq_some hstep.2
      refine h.call hstep.1.2 rfl rfl rfl rfl ?_
      simp [setCaller, hfree, CallPlace.isPosting]
  | post caller woken =>
      simp only [Thpool.step, Option.ite_none_right_eq_some, Option.map_eq_some_iff] at hstep
      obtain ⟨hcaller, posted, hpost, rfl⟩ := hstep
      have hlocked := h.locked_of_pushing hcaller
      have hcounts := h.bsemPost hpost
      obtain ⟨threads, hsignal, rfl⟩ := bsemPost_eq_some.mp hpost
      refine hcounts.call hcaller rfl rfl rfl rfl ?_
      simp [setCaller, hlocked, CallPlace.isPosting]
  | wakeThread n =>
      simp only [Thpool.step, Option.ite_none_right_eq_some, Option.some.injEq] at hstep
      obtain ⟨hplace, rfl⟩ := hstep
      exact h.move hplace rfl rfl rfl rfl rfl
  | postAll =>
      simp only [Thpool.step, Option.ite_none_right_eq_some, Option.some.injEq] at hstep
      obtain ⟨-, rfl⟩ := hstep
      have hcount : ∀ f : Place → Bool, f .atWait = f .sleeping →
          (broadcast .sleeping .atWait s.threads).countP f = s.threads.countP f :=
        fun f hf => countP_broadcast hf
      refine ⟨h.alive.trans (hcount _ rfl).symm, h.working.trans (hcount _ rfl).symm, ?_⟩
      exact (congrArg (· + _) (hcount _ rfl)).trans h.lock
  | initialised | stop =>
      simp only [Thpool.step, Option.ite_none_right_eq_some, Option.some.injEq] at hstep
      obtain ⟨-, rfl⟩ := hstep
      exact ⟨h.alive, h.working, h.lock⟩
  | wait caller =>
      simp only [Thpool.step, Option.ite_none_right_eq_some, Option.some.injEq] at hstep
      obtain ⟨⟨-, hcaller⟩, rfl⟩ := hstep
      exact h.call hcaller rfl rfl rfl rfl rfl
  | test caller =>
      simp only [Thpool.step, Option.ite_none_right_eq_some, Option.some.injEq] at hstep
      obtain ⟨hcaller, rfl⟩ := hstep
      refine h.call hcaller rfl rfl rfl rfl ?_
      by_cases hbusy : s.jobqueue.len ≠ 0 ∨ s.numThreadsWorking ≠ 0 <;>
        simp [testIdle, setCaller, hbusy, CallPlace.isPosting]
  | wakeCaller caller =>
      simp only [Thpool.step, Option.ite_none_right_eq_some, Option.some.injEq] at hstep
      obtain ⟨hcaller, rfl⟩ := hstep
      exact h.call hcaller rfl rfl rfl rfl rfl

theorem Wakes.step (h : s.Wakes) (howns : s.Owns jobs) (hcounts : s.Counts) {e : Event ω}
    (hstep : s.step e = some s') : s'.Wakes := by
  cases e with
  | thread n woken =>
      obtain ⟨place, hplace, hdo⟩ := Option.bind_eq_some_iff.mp hstep
      exact h.threadDo howns hplace hdo
  | addWork caller newjob work =>
      simp only [Thpool.step, Option.ite_none_right_eq_some] at hstep
      obtain ⟨-, memory, jobqueue, rfl⟩ := addWork_eq_some hstep.2
      exact ⟨h.staying, fun _ _ => .inr (.inl rfl), h.heard, h.started⟩
  | post caller woken =>
      simp only [Thpool.step, Option.ite_none_right_eq_some, Option.map_eq_some_iff] at hstep
      obtain ⟨-, posted, hpost, rfl⟩ := hstep
      have hwakes := h.bsemPost hpost
      obtain ⟨threads, hsignal, rfl⟩ := bsemPost_eq_some.mp hpost
      exact (hwakes.unlock rfl).of_threads rfl rfl rfl rfl rfl rfl
  | wakeThread n =>
      simp only [Thpool.step, Option.ite_none_right_eq_some, Option.some.injEq] at hstep
      obtain ⟨hplace, rfl⟩ := hstep
      exact h.moveQuietly hplace rfl rfl rfl rfl rfl rfl (by simp [Place.isComing])
        (fun _ => rfl) (by simp) (by simp) (by simp)
  | postAll =>
      simp only [Thpool.step, Option.ite_none_right_eq_some, Option.some.injEq] at hstep
      obtain ⟨⟨hnot, -⟩, rfl⟩ := hstep
      refine ⟨by simp [hnot], by simp [hnot], fun _ hsome => ?_, fun hready => ?_⟩
      · exact absurd hsome (not_mem_broadcast (by simp))
      · intro place hmem
        obtain ⟨old, hold, rfl⟩ := List.mem_map.mp hmem
        by_cases hsleeping : old = .sleeping
        · simp [hsleeping]
        · simpa [hsleeping] using h.started hready old hold
  | initialised =>
      simp only [Thpool.step, Option.ite_none_right_eq_some, Option.some.injEq] at hstep
      obtain ⟨hall, rfl⟩ := hstep
      refine ⟨h.staying, h.coming, h.heard, fun _ place hmem hstart => ?_⟩
      have halive := List.countP_eq_length.mp (hcounts.alive.symm.trans hall) place hmem
      simp [hstart, Place.isAlive] at halive
  | stop =>
      simp only [Thpool.step, Option.ite_none_right_eq_some, Option.some.injEq] at hstep
      obtain ⟨-, rfl⟩ := hstep
      exact ⟨by simp, by simp, h.heard, h.started⟩
  | wait caller | test caller | wakeCaller caller =>
      simp only [Thpool.step, Option.ite_none_right_eq_some, Option.some.injEq] at hstep
      obtain ⟨-, rfl⟩ := hstep
      exact h.of_threads rfl rfl rfl rfl rfl rfl

theorem Inv.step (h : s.Inv) {e : Event ω} (hstep : s.step e = some s') : s'.Inv := by
  obtain ⟨jobs, howns⟩ := h.owns
  exact ⟨⟨_, howns.step hstep⟩, h.counts.step howns hstep,
    h.wakes.step howns h.counts hstep⟩

theorem owns_init (numThreads callers : Nat) :
    (init numThreads callers : Thpool ω).Owns [] := by
  have hhand : (init numThreads callers : Thpool ω).inHand = [] := by
    refine List.filterMap_eq_nil_iff.mpr fun place hmem => ?_
    obtain ⟨-, rfl⟩ := List.mem_replicate.mp hmem
    rfl
  refine ⟨holds_init _, fun a => ?_, by simp [hhand]⟩
  rw [hhand]
  simp [init]

theorem inv_init (numThreads callers : Nat) : (init numThreads callers : Thpool ω).Inv := by
  refine ⟨⟨[], owns_init numThreads callers⟩, ⟨?_, ?_, ?_⟩, ⟨?_, ?_, ?_, ?_⟩⟩
  · simp [init, List.countP_replicate, Place.isAlive]
  · simp [init, List.countP_replicate, Place.isWorking]
  · simp [init, List.countP_replicate, Place.isPosting, CallPlace.isPosting]
  · intro _ place hmem
    obtain ⟨-, rfl⟩ := List.mem_replicate.mp hmem
    rfl
  · exact fun _ hjobs => absurd rfl hjobs
  · exact fun hposted => absurd hposted (by simp [init])
  · exact fun hready => absurd hready (by simp [init])

theorem Inv.run (h : s.Inv) {events : List (Event ω)}
    (hrun : Foundation.run Thpool.step s events = some s') : s'.Inv :=
  run_invariant (C := fun _ _ => True) (fun _ _ _ hinv _ hstep => hinv.step hstep) h
    (.of_forall (fun _ _ => trivial) _ _) hrun

theorem inv_of_run {numThreads callers : Nat} {events : List (Event ω)}
    (hrun : Foundation.run step (init numThreads callers) events = some s) : s.Inv :=
  (inv_init numThreads callers).run hrun

end Runs

end Thpool

end SysprogTeam3.ThreadPool
