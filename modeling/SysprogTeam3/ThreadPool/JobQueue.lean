import SysprogTeam3.Foundation.LinkedList
import Mathlib.Data.List.Induction

/-!
# The job queue

`jobqueue_push` and `jobqueue_pull` on the jobs in memory, up to the post of
`has_jobs`.  Jobs are linked from the front of the queue by `prev`.
-/

namespace SysprogTeam3.ThreadPool

open SysprogTeam3.Foundation

/-- Value of a pointer to a `job`. -/
abbrev Addr := Nat

/-- `job`; `work` is its `function` together with its `arg`. -/
structure Job (ω : Type) where
  prev : Option Addr
  work : ω

abbrev Memory (ω : Type) := Addr → Option (Job ω)

/-- `jobqueue` without its mutex and its semaphore. -/
structure JobQueue where
  front : Option Addr
  rear : Option Addr
  len : Nat

variable {ω : Type}

namespace Memory

/-- `a->prev = prev`, `none` when no job is allocated at `a`. -/
def setPrev (memory : Memory ω) (a : Addr) (prev : Option Addr) : Option (Memory ω) :=
  (memory a).map fun job => Function.update memory a (some { job with prev := prev })

def prevOf (memory : Memory ω) (a : Addr) : Option Addr :=
  (memory a).bind Job.prev

def workOf (memory : Memory ω) (a : Addr) : Option ω :=
  (memory a).map Job.work

def malloc (memory : Memory ω) (a : Addr) (job : Job ω) : Memory ω :=
  Function.update memory a (some job)

def free (memory : Memory ω) (a : Addr) : Memory ω :=
  Function.update memory a none

end Memory

def jobqueueInit : JobQueue := ⟨none, none, 0⟩

/-- `jobqueue_push`; `none` when it follows a pointer to no job. -/
def jobqueuePush (memory : Memory ω) (jobqueue : JobQueue) (newjob : Addr) :
    Option (Memory ω × JobQueue) :=
  (memory.setPrev newjob none).bind fun memory =>
    match jobqueue.len with
    | 0 => some (memory, ⟨some newjob, some newjob, 1⟩)
    | len + 1 =>
        jobqueue.rear.bind fun rear =>
          (memory.setPrev rear (some newjob)).map fun memory =>
            (memory, ⟨jobqueue.front, some newjob, len + 2⟩)

def jobqueuePull (memory : Memory ω) (jobqueue : JobQueue) :
    Option (Option Addr × JobQueue) :=
  match jobqueue.len with
  | 0 => some (jobqueue.front, jobqueue)
  | 1 => some (jobqueue.front, ⟨none, none, 0⟩)
  | len + 2 =>
      jobqueue.front.bind fun job =>
        (memory job).map fun contents =>
          (some job, ⟨contents.prev, jobqueue.rear, len + 1⟩)

/-! ## What the queue holds -/

/-- The queue consists of the jobs at these addresses, front first. -/
structure Holds (memory : Memory ω) (jobqueue : JobQueue) (jobs : List Addr) : Prop where
  chain : Chain memory.prevOf jobqueue.front jobs
  rear : jobqueue.rear = jobs.getLast?
  len : jobqueue.len = jobs.length
  allocated : ∀ a ∈ jobs, (memory a).isSome

theorem holds_init (memory : Memory ω) : Holds memory jobqueueInit [] :=
  ⟨rfl, rfl, rfl, by simp⟩

namespace Memory

theorem prevOf_setPrev {memory memory' : Memory ω} {a : Addr} {prev : Option Addr}
    (h : memory.setPrev a prev = some memory') :
    memory'.prevOf = Function.update memory.prevOf a prev := by
  obtain ⟨job, -, rfl⟩ := Option.map_eq_some_iff.mp h
  funext b
  by_cases hb : b = a
  · simp [prevOf, hb]
  · simp [prevOf, hb]

theorem workOf_setPrev {memory memory' : Memory ω} {a : Addr} {prev : Option Addr}
    (h : memory.setPrev a prev = some memory') : memory'.workOf = memory.workOf := by
  obtain ⟨job, hjob, rfl⟩ := Option.map_eq_some_iff.mp h
  funext b
  by_cases hb : b = a
  · simp [workOf, hb, hjob]
  · simp [workOf, hb]

theorem exists_setPrev {memory : Memory ω} {a : Addr} (h : (memory a).isSome)
    (prev : Option Addr) : ∃ memory', memory.setPrev a prev = some memory' := by
  obtain ⟨job, hjob⟩ := Option.isSome_iff_exists.mp h
  exact ⟨_, by rw [setPrev, hjob]; rfl⟩

theorem isSome_workOf {memory : Memory ω} {a : Addr} :
    (memory.workOf a).isSome = (memory a).isSome := by
  simp [workOf]

end Memory

theorem Holds.congr {memory memory' : Memory ω} {jobqueue : JobQueue} {jobs : List Addr}
    (h : Holds memory jobqueue jobs) (hsame : ∀ a ∈ jobs, memory' a = memory a) :
    Holds memory' jobqueue jobs := by
  refine ⟨h.chain.congr fun a ha => ?_, h.rear, h.len, fun a ha => ?_⟩
  · rw [Memory.prevOf, Memory.prevOf, hsame a ha]
  · rw [hsame a ha]
    exact h.allocated a ha

theorem jobqueuePush_spec {memory : Memory ω} {jobqueue : JobQueue} {jobs : List Addr}
    {newjob : Addr} (h : Holds memory jobqueue jobs) (hnew : newjob ∉ jobs)
    (hallocated : (memory newjob).isSome) :
    ∃ memory' jobqueue', jobqueuePush memory jobqueue newjob = some (memory', jobqueue') ∧
      Holds memory' jobqueue' (jobs ++ [newjob]) ∧ memory'.workOf = memory.workOf := by
  obtain ⟨first, hfirst⟩ := Memory.exists_setPrev hallocated none
  have hprev := Memory.prevOf_setPrev hfirst
  have hwork := Memory.workOf_setPrev hfirst
  have hkept : ∀ a ∈ jobs, (first a).isSome := by
    intro a ha
    rw [← Memory.isSome_workOf, hwork, Memory.isSome_workOf]
    exact h.allocated a ha
  cases jobs using List.reverseRecOn with
  | nil =>
      have hlen : jobqueue.len = 0 := h.len
      refine ⟨first, ⟨some newjob, some newjob, 1⟩, ?_, ⟨?_, rfl, rfl, ?_⟩, hwork⟩
      · simp [jobqueuePush, hfirst, hlen]
      · simp [hprev]
      · intro a ha
        obtain rfl : a = newjob := by simpa using ha
        rw [← Memory.isSome_workOf, hwork, Memory.isSome_workOf]
        exact hallocated
  | append_singleton jobs last _ =>
      have hlen : jobqueue.len = jobs.length + 1 := by simpa using h.len
      have hrear : jobqueue.rear = some last := by simpa using h.rear
      obtain ⟨second, hsecond⟩ :=
        Memory.exists_setPrev (hkept last (by simp)) (some newjob)
      have hwork' := (Memory.workOf_setPrev hsecond).trans hwork
      refine ⟨second, ⟨jobqueue.front, some newjob, jobs.length + 2⟩, ?_,
        ⟨?_, by simp, by simp, ?_⟩, hwork'⟩
      · simp [jobqueuePush, hfirst, hlen, hrear, hsecond]
      · rw [Memory.prevOf_setPrev hsecond, hprev]
        have hlast : memory.prevOf last = none := h.chain.link
        have hchain := h.chain.insertAfter hnew
        rw [hlast] at hchain
        simpa using hchain
      · intro a ha
        rw [← Memory.isSome_workOf, hwork', Memory.isSome_workOf]
        rcases List.mem_append.mp ha with hold | hlast
        · exact h.allocated a hold
        · obtain rfl : a = newjob := by simpa using hlast
          exact hallocated

theorem jobqueuePull_nil {memory : Memory ω} {jobqueue : JobQueue}
    (h : Holds memory jobqueue []) : jobqueuePull memory jobqueue = some (none, jobqueue) := by
  have hlen : jobqueue.len = 0 := h.len
  have hfront : jobqueue.front = none := h.chain
  simp [jobqueuePull, hlen, hfront]

theorem jobqueuePull_cons {memory : Memory ω} {jobqueue : JobQueue} {a : Addr}
    {jobs : List Addr} (h : Holds memory jobqueue (a :: jobs)) :
    ∃ jobqueue', jobqueuePull memory jobqueue = some (some a, jobqueue') ∧
      Holds memory jobqueue' jobs := by
  obtain ⟨hfront, hrest⟩ := h.chain
  cases jobs with
  | nil =>
      have hlen : jobqueue.len = 1 := h.len
      exact ⟨⟨none, none, 0⟩, by simp [jobqueuePull, hlen, hfront],
        ⟨rfl, rfl, rfl, by simp⟩⟩
  | cons b jobs =>
      have hlen : jobqueue.len = jobs.length + 2 := h.len
      obtain ⟨job, hjob⟩ := Option.isSome_iff_exists.mp (h.allocated a List.mem_cons_self)
      refine ⟨⟨job.prev, jobqueue.rear, jobs.length + 1⟩, ?_, ⟨?_, ?_, rfl, ?_⟩⟩
      · simp [jobqueuePull, hlen, hfront, hjob]
      · simpa [Memory.prevOf, hjob] using hrest
      · simpa using h.rear
      · exact fun c hc => h.allocated c (List.mem_cons_of_mem a hc)

end SysprogTeam3.ThreadPool
