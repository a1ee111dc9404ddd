import SysprogTeam3.Foundation.Simulation
import SysprogTeam3.Foundation.WorkService
import SysprogTeam3.ThreadPool.Wakeups

/-!
# The pool serves a queue of works

`jobqueue_push`, `jobqueue_pull`, the call and the `free` of the pool are the
actions of workers that serve a queue, in whatever order the threads run.
-/

namespace SysprogTeam3.ThreadPool

open SysprogTeam3.Foundation
open scoped List

variable {ω : Type}

def Place.hand (memory : Memory ω) : Place → Hand ω
  | .posting job | .pulled (some job) =>
      ((memory.workOf job).map Hand.holding).getD .empty
  | .running job => ((memory.workOf job).map Hand.running).getD .empty
  | _ => .empty

theorem Place.hand_congr {memory memory' : Memory ω} {place : Place}
    (h : ∀ a, place.job = some a → memory'.workOf a = memory.workOf a) :
    place.hand memory' = place.hand memory := by
  cases place with
  | posting a | running a => simp [Place.hand, h a rfl]
  | pulled job =>
      cases job with
      | none => rfl
      | some a => simp [Place.hand, h a rfl]
  | _ => rfl

namespace Thpool

/-- The works that the step queues, takes, calls or finishes. -/
def actions (s : Thpool ω) : Event ω → List (WorkAction ω)
  | .addWork _ _ work => [.add work]
  | .thread n _ =>
      match s.threads[n]? with
      | some .counted => (s.jobqueue.front.bind s.memory.workOf).toList.map (.take n)
      | some (.pulled (some job)) => (s.memory.workOf job).toList.map (.call n)
      | some (.running job) => (s.memory.workOf job).toList.map (.finish n)
      | _ => []
  | _ => []

def service (s : Thpool ω) (jobs : List Addr) : WorkService ω :=
  { queue := jobs.filterMap s.memory.workOf
    hands := s.threads.map (Place.hand s.memory) }

section Refinement

variable {s s' : Thpool ω} {jobs : List Addr} {n woken : Nat} {place next : Place}

theorem Owns.exists_work (h : s.Owns jobs) {a : Addr} (ha : a ∈ jobs ++ s.inHand) :
    ∃ work, s.memory.workOf a = some work := by
  rw [← Option.isSome_iff_exists, Memory.isSome_workOf]
  exact (h.allocated a).mpr ha

theorem mem_inHand (hplace : s.threads[n]? = some place) {a : Addr}
    (hjob : place.job = some a) : a ∈ s.inHand :=
  List.mem_filterMap.mpr ⟨place, mem_of_place hplace, hjob⟩

theorem getElem?_hands (hplace : s.threads[n]? = some place) :
    (s.service jobs).hands[n]? = some (place.hand s.memory) := by
  simp [service, hplace]

theorem set_of_getElem? {α : Type} {items : List α} {a : α} (h : items[n]? = some a) :
    items.set n a = items := by
  obtain ⟨hn, rfl⟩ := List.getElem?_eq_some_iff.mp h
  exact List.set_getElem_self hn

theorem service_setPlace (hthreads : s'.threads = s.threads.set n next)
    (hmemory : s'.memory = s.memory) :
    s'.service jobs =
      { s.service jobs with
        hands := (s.service jobs).hands.set n (next.hand s.memory) } := by
  simp [service, hthreads, hmemory, List.map_set]

theorem service_move (hplace : s.threads[n]? = some place)
    (hthreads : s'.threads = s.threads.set n next) (hmemory : s'.memory = s.memory)
    (hhand : next.hand s.memory = place.hand s.memory) :
    s'.service jobs = s.service jobs := by
  rw [service_setPlace hthreads hmemory, hhand, set_of_getElem? (getElem?_hands hplace)]

theorem service_bsemPost (hstep : s.bsemPost woken = some s') :
    s'.service jobs = s.service jobs := by
  obtain ⟨threads, hsignal, rfl⟩ := bsemPost_eq_some.mp hstep
  rcases signal_eq_some.mp hsignal with ⟨-, rfl⟩ | ⟨hplace, rfl⟩
  · rfl
  · exact service_move hplace rfl rfl rfl

theorem service_congr (hthreads : s'.threads = s.threads)
    (hwork : ∀ a ∈ jobs ++ s.inHand, s'.memory.workOf a = s.memory.workOf a) :
    s'.service jobs = s.service jobs := by
  have hqueue : jobs.filterMap s'.memory.workOf = jobs.filterMap s.memory.workOf :=
    List.filterMap_congr fun a ha => hwork a (List.mem_append_left _ ha)
  have hhands : s.threads.map (Place.hand s'.memory) = s.threads.map (Place.hand s.memory) := by
    refine List.map_congr_left fun place hplace => Place.hand_congr fun a ha => ?_
    exact hwork a (List.mem_append_right _ (List.mem_filterMap.mpr ⟨place, hplace, ha⟩))
  rw [service, service, hthreads, hqueue, hhands]

theorem service_addWork (h : s.Owns jobs) {caller : Nat} {newjob : Addr} {work : ω}
    (hstep : s.addWork caller newjob work = some s') :
    s'.service (jobs ++ [newjob]) =
      { s.service jobs with queue := (s.service jobs).queue ++ [work] } := by
  obtain ⟨-, hthreads, hwork⟩ := h.addWork hstep
  have hnew : newjob ∉ jobs ++ s.inHand := by
    intro hmem
    simp only [addWork, Option.ite_none_left_eq_some, not_or] at hstep
    exact hstep.1.2 ((h.allocated newjob).mpr hmem)
  have hkept : ∀ a ∈ jobs ++ s.inHand, s'.memory.workOf a = s.memory.workOf a := by
    intro a ha
    rw [hwork, Function.update_of_ne (ne_of_mem_of_not_mem ha hnew)]
  have hsame : s'.service jobs = s.service jobs := service_congr hthreads hkept
  rw [← hsame]
  simp [service, hwork]

theorem service_init (numThreads callers : Nat) :
    (init numThreads callers : Thpool ω).service [] = WorkService.initial numThreads := by
  simp [service, init, WorkService.initial, Place.hand]

variable [DecidableEq ω]

theorem service_quiet (hplace : s.threads[n]? = some place)
    (hthreads : s'.threads = s.threads.set n next) (hmemory : s'.memory = s.memory)
    (hhand : next.hand s.memory = place.hand s.memory)
    (hactions : s.actions (.thread n woken) = []) :
    run WorkService.step (s.service jobs) (s.actions (.thread n woken)) =
      some (s'.service jobs) := by
  rw [hactions, service_move hplace hthreads hmemory hhand, run_nil]

theorem service_pull (h : s.Owns jobs) (hplace : s.threads[n]? = some .counted)
    (hstep : s.pull n = some s') :
    run WorkService.step (s.service jobs) (s.actions (.thread n woken)) =
      some (s'.service jobs.tail) := by
  have hhand : (s.service jobs).hands[n]? = some .empty := getElem?_hands hplace
  obtain ⟨-, ⟨rfl, rfl⟩ | ⟨a, rest, jobqueue, rfl, -, hnext⟩⟩ := pull_cases h hstep
  · have hfront : s.jobqueue.front = none := h.holds.chain
    exact service_quiet hplace rfl rfl rfl (by simp [actions, hplace, hfront])
  · have hfront : s.jobqueue.front = some a := h.holds.chain.1
    obtain ⟨work, hwork⟩ := h.exists_work (a := a) (by simp)
    have hafter : s'.service rest =
        ⟨rest.filterMap s.memory.workOf, (s.service (a :: rest)).hands.set n (.holding work)⟩ := by
      rcases hnext with ⟨-, rfl⟩ | rfl <;>
        simp [service, setPlace, List.map_set, Place.hand, hwork]
    have hqueue : (s.service (a :: rest)).queue = work :: rest.filterMap s.memory.workOf := by
      simp [service, hwork]
    simp [actions, hplace, hfront, hwork, run, WorkService.step, hhand, hqueue, hafter]

theorem service_free (h : s.Owns jobs) {a : Addr}
    (hplace : s.threads[n]? = some (.running a)) :
    run WorkService.step (s.service jobs) (s.actions (.thread n woken)) =
      some (({ s with memory := s.memory.free a }.setPlace n .leaving).service jobs) := by
  obtain ⟨work, hwork⟩ := h.exists_work (List.mem_append_right _ (mem_inHand hplace rfl))
  have hhand : (s.service jobs).hands[n]? = some (.running work) := by
    rw [getElem?_hands hplace]
    simp [Place.hand, hwork]
  -- the jobs that stay are other ones
  have hleft := (h.free hplace).allocated
  have hkept : ∀ b ∈ jobs ++ (s.setPlace n .leaving).inHand,
      (s.memory.free a).workOf b = (s.setPlace n .leaving).memory.workOf b := by
    intro b hb
    have hne : b ≠ a := by
      rintro rfl
      exact absurd ((hleft b).mpr hb) (by simp [setPlace, Memory.free])
    simp [setPlace, Memory.workOf, Memory.free, hne]
  have hafter : ({ s with memory := s.memory.free a }.setPlace n .leaving).service jobs =
      (s.setPlace n .leaving).service jobs := service_congr rfl hkept
  have hset : (s.setPlace n .leaving).service jobs =
      { s.service jobs with
        hands := (s.service jobs).hands.set n (Place.hand s.memory .leaving) } :=
    service_setPlace rfl rfl
  rw [hafter, hset]
  simp [actions, hplace, hwork, run, WorkService.step, hhand, Place.hand]

theorem service_threadDo (h : s.Owns jobs) (hplace : s.threads[n]? = some place)
    (hstep : s.threadDo n woken place = some s') :
    run WorkService.step (s.service jobs) (s.actions (.thread n woken)) =
      some (s'.service (if place = .counted then jobs.tail else jobs)) := by
  cases place with
  | counted => exact service_pull h hplace hstep
  | starting | entered | exiting =>
      simp only [threadDo, Option.some.injEq] at hstep
      subst hstep
      exact service_quiet hplace rfl rfl rfl (by simp [actions, hplace])
  | atLoop | passed =>
      simp only [threadDo, Option.some.injEq] at hstep
      subst hstep
      refine service_quiet hplace rfl rfl ?_ (by simp [actions, hplace])
      cases s.threadsKeepalive <;> rfl
  | atWait =>
      simp only [threadDo, Option.some.injEq] at hstep
      subst hstep
      cases s.v
      · exact service_quiet hplace rfl rfl rfl (by simp [actions, hplace])
      · exact service_quiet hplace rfl rfl rfl (by simp [actions, hplace])
  | sleeping | gone => simp [threadDo] at hstep
  | posting a =>
      obtain ⟨posted, hpost, rfl⟩ := Option.map_eq_some_iff.mp hstep
      have hplace' : posted.threads[n]? = some (.posting a) := by
        obtain ⟨threads, hsignal, rfl⟩ := bsemPost_eq_some.mp hpost
        exact signal_place hsignal hplace (by simp)
      have hmove : ({ posted with rwmutex := false }.setPlace n (.pulled (some a))).service jobs =
          posted.service jobs := service_move hplace' rfl rfl rfl
      have hactions : s.actions (.thread n woken) = [] := by simp [actions, hplace]
      rw [hactions, if_neg (by simp), hmove, service_bsemPost hpost, run_nil]
  | pulled job =>
      cases job with
      | none =>
          simp only [threadDo, Option.some.injEq] at hstep
          subst hstep
          exact service_quiet hplace rfl rfl rfl (by simp [actions, hplace])
      | some a =>
          simp only [threadDo, Option.ite_none_right_eq_some, Option.some.injEq] at hstep
          obtain ⟨-, rfl⟩ := hstep
          obtain ⟨work, hwork⟩ := h.exists_work (List.mem_append_right _ (mem_inHand hplace rfl))
          have hhand : (s.service jobs).hands[n]? = some (.holding work) := by
            rw [getElem?_hands hplace]
            simp [Place.hand, hwork]
          have hset : (s.setPlace n (.running a)).service jobs =
              { s.service jobs with
                hands := (s.service jobs).hands.set n (Place.hand s.memory (.running a)) } :=
            service_setPlace rfl rfl
          rw [if_neg (by simp), hset]
          simp [actions, hplace, hwork, run, WorkService.step, hhand, Place.hand]
  | running a =>
      simp only [threadDo, Option.some.injEq] at hstep
      subst hstep
      exact service_free h hplace
  | leaving =>
      obtain ⟨callers, rfl, -⟩ := leaving_cases hstep
      exact service_quiet hplace rfl rfl rfl (by simp [actions, hplace])

theorem service_step (h : s.Owns jobs) {e : Event ω} (hstep : s.step e = some s') :
    run WorkService.step (s.service jobs) (s.actions e) =
      some (s'.service (s.jobsAfter jobs e)) := by
  cases e with
  | thread n woken =>
      obtain ⟨place, hplace, hdo⟩ := Option.bind_eq_some_iff.mp hstep
      rw [service_threadDo h hplace hdo, jobsAfter, hplace]
      simp only [Option.some.injEq]
  | addWork caller newjob work =>
      simp only [step, Option.ite_none_right_eq_some] at hstep
      rw [jobsAfter, service_addWork h hstep.2]
      rfl
  | post caller woken =>
      simp only [step, Option.ite_none_right_eq_some, Option.map_eq_some_iff] at hstep
      obtain ⟨-, posted, hpost, rfl⟩ := hstep
      exact congrArg some (service_bsemPost hpost).symm
  | wakeThread n =>
      simp only [step, Option.ite_none_right_eq_some, Option.some.injEq] at hstep
      obtain ⟨hplace, rfl⟩ := hstep
      have hsame : (s.setPlace n .atWait).service jobs = s.service jobs :=
        service_move hplace rfl rfl rfl
      exact congrArg some hsame.symm
  | postAll =>
      simp only [step, Option.ite_none_right_eq_some, Option.some.injEq] at hstep
      obtain ⟨-, rfl⟩ := hstep
      have hhands : (broadcast .sleeping .atWait s.threads).map (Place.hand s.memory) =
          s.threads.map (Place.hand s.memory) := map_broadcast rfl
      simp [actions, jobsAfter, service, hhands]
  | initialised | wait caller | test caller | wakeCaller caller | stop =>
      simp only [step, Option.ite_none_right_eq_some, Option.some.injEq] at hstep
      obtain ⟨-, rfl⟩ := hstep
      rfl

abbrev actionsOf (numThreads callers : Nat) (events : List (Event ω)) :
    List (WorkAction ω) :=
  observed step actions (init numThreads callers) events

/--
The pool refines workers that serve a queue: the actions of every run of the
pool are a run of the service, and the queue and the hands of the workers are the
service's at its end.
-/
theorem pool_refines_service {numThreads callers : Nat} {events : List (Event ω)}
    (hrun : run step (init numThreads callers) events = some s) :
    ∃ jobs, s.Owns jobs ∧
      run WorkService.step (WorkService.initial numThreads)
        (actionsOf numThreads callers events) = some (s.service jobs) := by
  have hstart : ∃ jobs, (init numThreads callers : Thpool ω).Owns jobs ∧
      (init numThreads callers : Thpool ω).service jobs =
        WorkService.initial numThreads :=
    ⟨[], owns_init numThreads callers, service_init numThreads callers⟩
  obtain ⟨t, ht, jobs, howns, rfl⟩ := run_simulation
    (R := fun (s : Thpool ω) t => ∃ jobs, s.Owns jobs ∧ s.service jobs = t)
    (fun s t e s' hR hstep => by
      obtain ⟨jobs, howns, rfl⟩ := hR
      exact ⟨_, service_step howns hstep, _, howns.step hstep, rfl⟩) hstart hrun
  exact ⟨jobs, howns, ht⟩

/-- The works that workers have taken and not yet called. -/
def heldWorks (s : Thpool ω) : List ω :=
  s.threads.filterMap fun place => (place.hand s.memory).held

/-- The works whose function has been called and has not yet returned. -/
def runningWorks (s : Thpool ω) : List ω :=
  s.threads.filterMap fun place => (place.hand s.memory).called

theorem works_accounted {numThreads : Nat} {works : List (WorkAction ω)}
    (hservice : run WorkService.step (WorkService.initial numThreads) works =
      some (s.service jobs)) :
    works.filterMap WorkAction.taken ++ jobs.filterMap s.memory.workOf =
        works.filterMap WorkAction.added ∧
      works.filterMap WorkAction.called ++ s.heldWorks ~ works.filterMap WorkAction.taken ∧
      works.filterMap WorkAction.finished ++ s.runningWorks ~
        works.filterMap WorkAction.called := by
  have hempty : ∀ f : Hand ω → Option ω, f .empty = none →
      (List.replicate numThreads Hand.empty).filterMap f = [] := by
    intro f hf
    refine List.filterMap_eq_nil_iff.mpr fun hand hmem => ?_
    obtain ⟨-, rfl⟩ := List.mem_replicate.mp hmem
    exact hf
  have hqueue := WorkService.taken_append_queue hservice
  have hcalled := WorkService.called_append_held hservice
  have hfinished := WorkService.finished_append_running hservice
  rw [WorkService.initial, hempty Hand.held rfl, List.nil_append, service,
    List.filterMap_map] at hcalled
  rw [WorkService.initial, hempty Hand.called rfl, List.nil_append, service,
    List.filterMap_map] at hfinished
  exact ⟨hqueue, hcalled, hfinished⟩

/--
The actions of every run of the pool are a run of workers that serve a queue, with
the pool's queue and hands at its end.  So the works are taken in the order in which
they were added, each of them at most once; every work taken is called exactly once
or still held, and every work called has returned exactly once or still runs.
-/
theorem works_run_once {numThreads callers : Nat} {events : List (Event ω)}
    (hrun : run step (init numThreads callers) events = some s) :
    ∃ jobs, Holds s.memory s.jobqueue jobs ∧
      run WorkService.step (WorkService.initial numThreads)
        (actionsOf numThreads callers events) = some (s.service jobs) ∧
      (actionsOf numThreads callers events).filterMap WorkAction.taken ++
          jobs.filterMap s.memory.workOf =
        (actionsOf numThreads callers events).filterMap WorkAction.added ∧
      (actionsOf numThreads callers events).filterMap WorkAction.called ++ s.heldWorks ~
        (actionsOf numThreads callers events).filterMap WorkAction.taken ∧
      (actionsOf numThreads callers events).filterMap WorkAction.finished ++ s.runningWorks ~
        (actionsOf numThreads callers events).filterMap WorkAction.called := by
  obtain ⟨jobs, howns, hservice⟩ := pool_refines_service hrun
  exact ⟨jobs, howns.holds, hservice, works_accounted hservice⟩

theorem finished_perm_taken {numThreads callers : Nat} {events : List (Event ω)}
    (hrun : run step (init numThreads callers) events = some s)
    (hidle : ∀ place ∈ s.threads, place.hand s.memory = .empty) :
    (actionsOf numThreads callers events).filterMap WorkAction.finished ~
      (actionsOf numThreads callers events).filterMap WorkAction.taken := by
  obtain ⟨jobs, -, hservice⟩ := pool_refines_service hrun
  obtain ⟨-, hcalled, hfinished⟩ := works_accounted hservice
  have hheld : s.heldWorks = [] :=
    List.filterMap_eq_nil_iff.mpr fun place hmem => by rw [hidle place hmem]; rfl
  have hrunning : s.runningWorks = [] :=
    List.filterMap_eq_nil_iff.mpr fun place hmem => by rw [hidle place hmem]; rfl
  rw [hheld, List.append_nil] at hcalled
  rw [hrunning, List.append_nil] at hfinished
  exact hfinished.trans hcalled

theorem finished_perm_added {numThreads callers : Nat} {events : List (Event ω)}
    (hrun : run step (init numThreads callers) events = some s)
    (hidle : ∀ place ∈ s.threads, place.hand s.memory = .empty)
    (hlen : s.jobqueue.len = 0) :
    (actionsOf numThreads callers events).filterMap WorkAction.finished ~
      (actionsOf numThreads callers events).filterMap WorkAction.added := by
  obtain ⟨jobs, howns, hservice⟩ := pool_refines_service hrun
  obtain rfl : jobs = [] := List.eq_nil_of_length_eq_zero (howns.holds.len.symm.trans hlen)
  obtain ⟨htaken, -, -⟩ := works_accounted hservice
  rw [List.filterMap_nil, List.append_nil] at htaken
  exact htaken ▸ finished_perm_taken hrun hidle

def twoWorks : List (Event Nat) :=
  [.thread 0 0, .initialised, .thread 0 0, .thread 0 0, .addWork 0 7 100, .post 0 0,
    .addWork 0 8 200, .thread 0 0, .thread 0 0, .thread 0 0, .post 0 0, .thread 0 0,
    .thread 0 0]

theorem works_run_once_twoWorks :
    ∃ s, run step (init 1 1) twoWorks = some s ∧
      ∃ jobs, Holds s.memory s.jobqueue jobs ∧
        (actionsOf 1 1 twoWorks).filterMap
            WorkAction.taken ++ jobs.filterMap s.memory.workOf =
          (actionsOf 1 1 twoWorks).filterMap
            WorkAction.added := by
  obtain ⟨s, hs⟩ := Option.isSome_iff_exists.mp (by decide :
    (run step (init 1 1) twoWorks).isSome)
  obtain ⟨jobs, hholds, -, htaken, -⟩ := works_run_once hs
  exact ⟨s, hs, jobs, hholds, htaken⟩

end Refinement

end Thpool

end SysprogTeam3.ThreadPool
