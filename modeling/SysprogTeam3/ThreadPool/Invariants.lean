import SysprogTeam3.ThreadPool.Pool

/-!
# Invariants of the thread pool

The counters of the pool are the numbers of workers that they stand for, and the
allocated jobs are those in the queue and those in the hands of a worker, each
of them once.
-/

namespace SysprogTeam3.ThreadPool

open SysprogTeam3.Foundation
open scoped List

variable {ω : Type}

namespace Place

def isAlive : Place → Bool
  | .starting | .gone => false
  | _ => true

def isWorking : Place → Bool
  | .counted | .posting _ | .pulled _ | .running _ | .leaving => true
  | _ => false

def isPosting : Place → Bool
  | .posting _ => true
  | _ => false

def job : Place → Option Addr
  | .posting job | .running job => some job
  | .pulled job => job
  | _ => none

end Place

def CallPlace.isPosting : CallPlace → Bool
  | .posting => true
  | _ => false

namespace Thpool

/-- The jobs that the workers have taken and not freed. -/
def inHand (s : Thpool ω) : List Addr := s.threads.filterMap Place.job

/-- The allocated jobs are the queued ones and those in hand, each once. -/
structure Owns (s : Thpool ω) (jobs : List Addr) : Prop where
  holds : Holds s.memory s.jobqueue jobs
  allocated : ∀ a, (s.memory a).isSome ↔ a ∈ jobs ++ s.inHand
  nodup : (jobs ++ s.inHand).Nodup

/-- The counters, and the holder of `rwmutex`. -/
structure Counts (s : Thpool ω) : Prop where
  alive : s.numThreadsAlive = s.threads.countP Place.isAlive
  working : s.numThreadsWorking = s.threads.countP Place.isWorking
  lock : s.threads.countP Place.isPosting + s.callers.countP CallPlace.isPosting =
    if s.rwmutex then 1 else 0

/-! ## What a step does -/

section Steps

variable {s s' : Thpool ω} {n woken : Nat}

theorem bsemPost_eq_some : s.bsemPost woken = some s' ↔
    ∃ threads, signal .sleeping .atWait woken s.threads = some threads ∧
      s' = { s with v := true, threads := threads } := by
  rw [bsemPost, Option.map_eq_some_iff]
  exact exists_congr fun _ => and_congr_right fun _ => eq_comm

theorem pull_cases {jobs : List Addr} (h : s.Owns jobs) (hstep : s.pull n = some s') :
    s.rwmutex = false ∧
      ((jobs = [] ∧ s' = s.setPlace n (.pulled none)) ∨
        ∃ a rest jobqueue, jobs = a :: rest ∧ Holds s.memory jobqueue rest ∧
          ((rest = [] ∧
              s' = { s with jobqueue := jobqueue }.setPlace n (.pulled (some a))) ∨
            s' = { s with jobqueue := jobqueue, rwmutex := true }.setPlace n (.posting a))) := by
  have hfree : s.rwmutex = false := by
    by_contra hlocked
    simp [pull, hlocked] at hstep
  refine ⟨hfree, ?_⟩
  rw [pull, if_neg (by simp [hfree])] at hstep
  cases jobs with
  | nil =>
      have hlen : s.jobqueue.len = 0 := h.holds.len
      rw [jobqueuePull_nil h.holds, Option.bind_some, if_pos (by omega)] at hstep
      exact .inl ⟨rfl, (Option.some.inj hstep).symm⟩
  | cons a rest =>
      obtain ⟨jobqueue, hpull, hrest⟩ := jobqueuePull_cons h.holds
      have hlen : s.jobqueue.len = rest.length + 1 := h.holds.len
      refine .inr ⟨a, rest, jobqueue, rfl, hrest, ?_⟩
      rw [hpull, Option.bind_some] at hstep
      cases rest with
      | nil =>
          rw [if_pos (by simp [hlen])] at hstep
          exact .inl ⟨rfl, (Option.some.inj hstep).symm⟩
      | cons b rest =>
          rw [if_neg (by simp [hlen])] at hstep
          exact .inr (Option.some.inj hstep).symm

theorem leaving_cases (hstep : s.threadDo n woken .leaving = some s') :
    ∃ callers, s' =
        { s with
          numThreadsWorking := s.numThreadsWorking - 1
          callers := callers }.setPlace n .atLoop ∧
      ((s.numThreadsWorking - 1 ≠ 0 ∧ callers = s.callers) ∨
        s.numThreadsWorking - 1 = 0 ∧
          signal .sleeping .testing woken s.callers = some callers) := by
  simp only [threadDo, setPlace] at hstep
  by_cases hidle : s.numThreadsWorking - 1 = 0
  · simp only [hidle, if_true, Option.map_eq_some_iff] at hstep
    obtain ⟨callers, hsignal, rfl⟩ := hstep
    exact ⟨callers, by simp [setPlace, hidle], .inr ⟨hidle, hsignal⟩⟩
  · simp only [hidle, if_false, Option.some.injEq] at hstep
    exact ⟨s.callers, hstep.symm, .inl ⟨hidle, rfl⟩⟩

end Steps

/-! ## The jobs -/

section Jobs

variable {s s' : Thpool ω} {n woken caller : Nat} {jobs jobs' : List Addr} {place : Place}

theorem Owns.of_perm (h : s.Owns jobs) (hmemory : s'.memory = s.memory)
    (hholds : Holds s.memory s'.jobqueue jobs')
    (hperm : jobs' ++ s'.inHand ~ jobs ++ s.inHand) : s'.Owns jobs' := by
  refine ⟨by rwa [hmemory], fun a => ?_, hperm.nodup_iff.mpr h.nodup⟩
  rw [hmemory, h.allocated a]
  exact hperm.mem_iff.symm

theorem Owns.move (h : s.Owns jobs) (hplace : s.threads[n]? = some place) {next : Place}
    (hthreads : s'.threads = s.threads.set n next) (hjob : next.job = place.job)
    (hmemory : s'.memory = s.memory) (hqueue : s'.jobqueue = s.jobqueue) : s'.Owns jobs := by
  refine h.of_perm hmemory (hqueue ▸ h.holds) ?_
  rw [inHand, hthreads, filterMap_set_of_eq hplace hjob]
  exact .rfl

theorem Owns.bsemPost (h : s.Owns jobs) (hstep : s.bsemPost woken = some s') :
    s'.Owns jobs := by
  obtain ⟨threads, hsignal, rfl⟩ := bsemPost_eq_some.mp hstep
  refine h.of_perm rfl h.holds ?_
  rw [inHand, filterMap_signal hsignal rfl]
  exact .rfl

theorem Owns.pull (h : s.Owns jobs) (hplace : s.threads[n]? = some .counted)
    (hstep : s.pull n = some s') : s'.Owns jobs.tail := by
  have htaken : ∀ a, (s.threads.set n (.pulled (some a))).filterMap Place.job ~
      a :: s.inHand := by
    intro a
    have hperm := filterMap_set_perm hplace (.pulled (some a)) Place.job
    simp only [Place.job, Option.toList_none, Option.toList_some, List.append_nil] at hperm
    exact hperm.trans (List.perm_append_singleton a _)
  have hposted : ∀ a, (s.threads.set n (.posting a)).filterMap Place.job ~
      a :: s.inHand := by
    intro a
    have hperm := filterMap_set_perm hplace (.posting a) Place.job
    simp only [Place.job, Option.toList_none, Option.toList_some, List.append_nil] at hperm
    exact hperm.trans (List.perm_append_singleton a _)
  obtain ⟨-, ⟨rfl, rfl⟩ | ⟨a, rest, jobqueue, rfl, hrest, ⟨rfl, rfl⟩ | rfl⟩⟩ :=
    pull_cases h hstep
  · exact h.move hplace rfl rfl rfl rfl
  · exact h.of_perm rfl hrest (((htaken a).append_left _).trans List.perm_middle)
  · exact h.of_perm rfl hrest (((hposted a).append_left _).trans List.perm_middle)

theorem Owns.free (h : s.Owns jobs) {a : Addr} (hplace : s.threads[n]? = some (.running a)) :
    ({ s with memory := s.memory.free a }.setPlace n .leaving).Owns jobs := by
  have hperm : jobs ++ s.inHand ~ a :: (jobs ++ (s.setPlace n .leaving).inHand) := by
    have hleft := filterMap_set_perm hplace .leaving Place.job
    simp only [Place.job, Option.toList_none, Option.toList_some, List.append_nil] at hleft
    refine (hleft.symm.append_left jobs).trans ?_
    rw [← List.append_assoc]
    exact List.perm_append_singleton a _
  have hnodup := List.nodup_cons.mp (hperm.nodup_iff.mp h.nodup)
  refine ⟨h.holds.congr fun b hb => ?_, fun b => ?_, hnodup.2⟩
  · have hne : b ≠ a := by
      rintro rfl
      exact hnodup.1 (List.mem_append_left _ hb)
    exact Function.update_of_ne hne _ _
  · change (s.memory.free a b).isSome ↔ b ∈ jobs ++ (s.setPlace n .leaving).inHand
    by_cases hb : b = a
    · subst hb
      simpa [Memory.free] using hnodup.1
    · rw [Memory.free, Function.update_of_ne hb, h.allocated b, hperm.mem_iff,
        List.mem_cons, or_iff_right hb]

theorem Owns.threadDo (h : s.Owns jobs) (hplace : s.threads[n]? = some place)
    (hstep : s.threadDo n woken place = some s') :
    s'.Owns (if place = .counted then jobs.tail else jobs) := by
  cases place with
  | counted => exact h.pull hplace hstep
  | starting | entered | exiting =>
      simp only [Thpool.threadDo, Option.some.injEq] at hstep
      subst hstep
      exact h.move hplace rfl rfl rfl rfl
  | atLoop | passed =>
      simp only [Thpool.threadDo, Option.some.injEq] at hstep
      subst hstep
      refine h.move hplace rfl ?_ rfl rfl
      cases s.threadsKeepalive <;> rfl
  | atWait =>
      simp only [Thpool.threadDo, Option.some.injEq] at hstep
      subst hstep
      cases s.v
      · exact h.move hplace rfl rfl rfl rfl
      · exact h.move hplace rfl rfl rfl rfl
  | sleeping | gone => simp [Thpool.threadDo] at hstep
  | posting a =>
      obtain ⟨posted, hpost, rfl⟩ := Option.map_eq_some_iff.mp hstep
      have hplace' : posted.threads[n]? = some (.posting a) := by
        obtain ⟨threads, hsignal, rfl⟩ := bsemPost_eq_some.mp hpost
        exact signal_place hsignal hplace (by simp)
      exact (h.bsemPost hpost).move hplace' rfl rfl rfl rfl
  | pulled job =>
      cases job with
      | none =>
          simp only [Thpool.threadDo, Option.some.injEq] at hstep
          subst hstep
          exact h.move hplace rfl rfl rfl rfl
      | some a =>
          simp only [Thpool.threadDo, Option.ite_none_right_eq_some,
            Option.some.injEq] at hstep
          obtain ⟨-, rfl⟩ := hstep
          exact h.move hplace rfl rfl rfl rfl
  | running a =>
      simp only [Thpool.threadDo, Option.some.injEq] at hstep
      subst hstep
      exact h.free hplace
  | leaving =>
      obtain ⟨callers, rfl, -⟩ := leaving_cases hstep
      exact h.move hplace rfl rfl rfl rfl

theorem Owns.of_threads (h : s.Owns jobs) (hmemory : s'.memory = s.memory)
    (hqueue : s'.jobqueue = s.jobqueue) (hthreads : s'.threads = s.threads) : s'.Owns jobs := by
  refine h.of_perm hmemory (hqueue ▸ h.holds) ?_
  rw [inHand, hthreads]
  exact .rfl

theorem Owns.addWork (h : s.Owns jobs) {newjob : Addr} {work : ω}
    (hstep : s.addWork caller newjob work = some s') :
    s'.Owns (jobs ++ [newjob]) ∧ s'.threads = s.threads ∧
      s'.memory.workOf = Function.update s.memory.workOf newjob (some work) := by
  simp only [Thpool.addWork, Option.ite_none_left_eq_some, not_or, Option.map_eq_some_iff]
    at hstep
  obtain ⟨⟨-, hfresh⟩, ⟨memory, jobqueue⟩, hpush, rfl⟩ := hstep
  have hnew : newjob ∉ jobs ++ s.inHand := fun hmem => hfresh ((h.allocated newjob).mpr hmem)
  have hnotQueued : newjob ∉ jobs := fun hmem => hnew (List.mem_append_left _ hmem)
  have hheld : Holds (s.memory.malloc newjob ⟨none, work⟩) s.jobqueue jobs :=
    h.holds.congr fun a ha => Function.update_of_ne (ne_of_mem_of_not_mem ha hnotQueued) _ _
  obtain ⟨memory', jobqueue', hpush', hholds, hworks⟩ :=
    jobqueuePush_spec hheld hnotQueued (by simp [Memory.malloc])
  obtain ⟨rfl, rfl⟩ := Prod.mk.inj (Option.some.inj (hpush.symm.trans hpush'))
  have hworkOf : memory.workOf = Function.update s.memory.workOf newjob (some work) := by
    rw [hworks]
    funext a
    by_cases ha : a = newjob <;> simp [Memory.workOf, Memory.malloc, ha]
  have hperm : (jobs ++ [newjob]) ++ s.inHand ~ newjob :: (jobs ++ s.inHand) := by
    simp [List.perm_middle]
  refine ⟨⟨hholds, fun a => ?_, hperm.nodup_iff.mpr (List.nodup_cons.mpr ⟨hnew, h.nodup⟩)⟩,
    rfl, hworkOf⟩
  change (memory a).isSome ↔ a ∈ (jobs ++ [newjob]) ++ s.inHand
  rw [hperm.mem_iff, ← Memory.isSome_workOf, hworkOf, List.mem_cons, ← h.allocated a,
    ← Memory.isSome_workOf]
  by_cases ha : a = newjob <;> simp [ha]

end Jobs

/-! ## The counters -/

section Counters

variable {s s' : Thpool ω} {n woken caller : Nat} {place next : Place}

theorem Counts.move (h : s.Counts) (hplace : s.threads[n]? = some place)
    (hthreads : s'.threads = s.threads.set n next)
    (halive : s'.numThreadsAlive + (if place.isAlive then 1 else 0) =
      s.numThreadsAlive + (if next.isAlive then 1 else 0))
    (hworking : s'.numThreadsWorking + (if place.isWorking then 1 else 0) =
      s.numThreadsWorking + (if next.isWorking then 1 else 0))
    (hlock : (if s'.rwmutex then 1 else 0) + (if place.isPosting then 1 else 0) =
      (if s.rwmutex then 1 else 0) + (if next.isPosting then 1 else 0))
    (hcallers : s'.callers.countP CallPlace.isPosting = s.callers.countP CallPlace.isPosting) :
    s'.Counts := by
  have hcount := countP_set_add hplace next
  have hcountAlive := hcount Place.isAlive
  have hcountWorking := hcount Place.isWorking
  have hcountPosting := hcount Place.isPosting
  have hlock' := h.lock
  refine ⟨?_, ?_, ?_⟩
  · rw [hthreads]
    have := h.alive
    omega
  · rw [hthreads]
    have := h.working
    omega
  · rw [hthreads, hcallers]
    omega

theorem Counts.numThreadsWorking_pos (h : s.Counts) (hplace : s.threads[n]? = some place)
    (hworking : place.isWorking) : 0 < s.numThreadsWorking := by
  rw [h.working, List.countP_pos_iff]
  exact ⟨place, mem_of_place hplace, hworking⟩

theorem Counts.numThreadsAlive_pos (h : s.Counts) (hplace : s.threads[n]? = some place)
    (halive : place.isAlive) : 0 < s.numThreadsAlive := by
  rw [h.alive, List.countP_pos_iff]
  exact ⟨place, mem_of_place hplace, halive⟩

theorem Counts.locked_of_posting (h : s.Counts) {a : Addr}
    (hplace : s.threads[n]? = some (.posting a)) : s.rwmutex = true := by
  have hpos : 0 < s.threads.countP Place.isPosting :=
    List.countP_pos_iff.mpr ⟨_, mem_of_place hplace, rfl⟩
  have hlock := h.lock
  by_contra hfree
  simp only [hfree, if_false] at hlock
  omega

theorem Counts.bsemPost (h : s.Counts) (hstep : s.bsemPost woken = some s') : s'.Counts := by
  obtain ⟨threads, hsignal, rfl⟩ := bsemPost_eq_some.mp hstep
  refine ⟨?_, ?_, ?_⟩
  · exact h.alive.trans (countP_signal hsignal rfl).symm
  · exact h.working.trans (countP_signal hsignal rfl).symm
  · change threads.countP Place.isPosting + s.callers.countP CallPlace.isPosting = _
    rw [countP_signal hsignal rfl]
    exact h.lock

theorem Counts.threadDo {jobs : List Addr} (h : s.Counts) (howns : s.Owns jobs)
    (hplace : s.threads[n]? = some place) (hstep : s.threadDo n woken place = some s') :
    s'.Counts := by
  cases place with
  | counted =>
      obtain ⟨hfree, ⟨rfl, rfl⟩ | ⟨a, rest, jobqueue, rfl, -, ⟨rfl, rfl⟩ | rfl⟩⟩ :=
        pull_cases howns hstep
      · exact h.move hplace rfl rfl rfl rfl rfl
      · exact h.move hplace rfl rfl rfl rfl rfl
      · refine h.move hplace rfl rfl rfl ?_ rfl
        simp [setPlace, hfree, Place.isPosting]
  | starting | entered =>
      simp only [Thpool.threadDo, Option.some.injEq] at hstep
      subst hstep
      exact h.move hplace rfl rfl rfl rfl rfl
  | atLoop | passed =>
      simp only [Thpool.threadDo, Option.some.injEq] at hstep
      subst hstep
      cases hkeep : s.threadsKeepalive
      · exact h.move hplace rfl rfl rfl rfl rfl
      · exact h.move hplace rfl rfl rfl rfl rfl
  | atWait =>
      simp only [Thpool.threadDo, Option.some.injEq] at hstep
      subst hstep
      cases s.v
      · exact h.move hplace rfl rfl rfl rfl rfl
      · exact h.move hplace rfl rfl rfl rfl rfl
  | sleeping | gone => simp [Thpool.threadDo] at hstep
  | posting a =>
      have hlocked := h.locked_of_posting hplace
      obtain ⟨posted, hpost, rfl⟩ := Option.map_eq_some_iff.mp hstep
      have hcounts := h.bsemPost hpost
      obtain ⟨threads, hsignal, rfl⟩ := bsemPost_eq_some.mp hpost
      have hplace' := signal_place hsignal hplace (by simp)
      refine hcounts.move hplace' rfl rfl rfl ?_ rfl
      simp [setPlace, hlocked, Place.isPosting]
  | pulled job =>
      cases job with
      | none =>
          simp only [Thpool.threadDo, Option.some.injEq] at hstep
          subst hstep
          exact h.move hplace rfl rfl rfl rfl rfl
      | some a =>
          simp only [Thpool.threadDo, Option.ite_none_right_eq_some,
            Option.some.injEq] at hstep
          obtain ⟨-, rfl⟩ := hstep
          exact h.move hplace rfl rfl rfl rfl rfl
  | running a =>
      simp only [Thpool.threadDo, Option.some.injEq] at hstep
      subst hstep
      exact h.move hplace rfl rfl rfl rfl rfl
  | leaving =>
      have hpos := h.numThreadsWorking_pos hplace rfl
      obtain ⟨callers, rfl, hcallers⟩ := leaving_cases hstep
      refine h.move hplace rfl rfl ?_ rfl ?_
      · simp [setPlace, Place.isWorking]
        omega
      · rcases hcallers with ⟨-, rfl⟩ | ⟨-, hsignal⟩
        · rfl
        · exact countP_signal hsignal rfl
  | exiting =>
      have hpos := h.numThreadsAlive_pos hplace rfl
      simp only [Thpool.threadDo, Option.some.injEq] at hstep
      subst hstep
      refine h.move hplace rfl ?_ rfl rfl rfl
      simp [setPlace, Place.isAlive]
      omega

theorem Counts.call (h : s.Counts) {before after : CallPlace}
    (hcaller : s.callers[caller]? = some before) (hthreads : s'.threads = s.threads)
    (hcallers : s'.callers = s.callers.set caller after)
    (halive : s'.numThreadsAlive = s.numThreadsAlive)
    (hworking : s'.numThreadsWorking = s.numThreadsWorking)
    (hlock : (if s'.rwmutex then 1 else 0) + (if before.isPosting then 1 else 0) =
      (if s.rwmutex then 1 else 0) + (if after.isPosting then 1 else 0)) : s'.Counts := by
  have hcount := countP_set_add hcaller after CallPlace.isPosting
  refine ⟨?_, ?_, ?_⟩
  · rw [halive, hthreads, h.alive]
  · rw [hworking, hthreads, h.working]
  · have := h.lock
    rw [hthreads, hcallers]
    omega

theorem Counts.locked_of_pushing (h : s.Counts)
    (hcaller : s.callers[caller]? = some .posting) : s.rwmutex = true := by
  have hpos : 0 < s.callers.countP CallPlace.isPosting :=
    List.countP_pos_iff.mpr ⟨_, mem_of_place hcaller, rfl⟩
  have hlock := h.lock
  by_contra hfree
  simp only [hfree, if_false] at hlock
  omega

end Counters

end Thpool

end SysprogTeam3.ThreadPool
