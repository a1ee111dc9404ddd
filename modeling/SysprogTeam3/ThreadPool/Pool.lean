import SysprogTeam3.Foundation.Runs
import SysprogTeam3.Foundation.Threads
import SysprogTeam3.ThreadPool.JobQueue

/-!
# The thread pool

`thpool.c` as a transition system.  A step runs one thread up to its next lock,
unlock or read of a shared variable.  A worker is at a place in `thread_do`, a
thread of the program at a place in a function of `thpool.h`.  The workers that
wait for a job sleep on the condition of `has_jobs`, whose `v` is 0 or 1, and the
callers of `thpool_wait` on `threads_all_idle`.
-/

namespace SysprogTeam3.ThreadPool

open SysprogTeam3.Foundation

/-- The next thing that a worker does in `thread_do`. -/
inductive Place where
  | starting
  /-- Test `threads_keepalive` in the `while`. -/
  | atLoop
  /-- Test `v` in `bsem_wait`. -/
  | atWait
  | sleeping
  /-- Test `threads_keepalive` in the `if`. -/
  | passed
  | entered
  | counted
  /-- `bsem_post` in `jobqueue_pull`. -/
  | posting (job : Addr)
  | pulled (job : Option Addr)
  | running (job : Addr)
  | leaving
  | exiting
  | gone
  deriving DecidableEq

/-- The next thing that a thread of the program does in the pool. -/
inductive CallPlace where
  | idle
  /-- `bsem_post` in `jobqueue_push`. -/
  | posting
  /-- The test in `thpool_wait`. -/
  | testing
  | sleeping
  deriving DecidableEq

structure Thpool (ω : Type) where
  memory : Memory ω
  jobqueue : JobQueue
  /-- `rwmutex` is locked. -/
  rwmutex : Bool
  /-- `has_jobs->v`. -/
  v : Bool
  threadsKeepalive : Bool
  /-- `thpool_init` has returned. -/
  initialised : Bool
  threads : List Place
  numThreadsAlive : Nat
  numThreadsWorking : Nat
  callers : List CallPlace

/-- `woken` is the thread that a `pthread_cond_signal` in the step unblocks. -/
inductive Event (ω : Type) where
  | initialised
  | thread (n : Nat) (woken : Nat)
  /-- `pthread_cond_wait` returns in a worker without a signal. -/
  | wakeThread (n : Nat)
  /-- `thpool_add_work` up to the post; `newjob` is what `malloc` returns. -/
  | addWork (caller : Nat) (newjob : Addr) (work : ω)
  | post (caller : Nat) (woken : Nat)
  | wait (caller : Nat)
  | test (caller : Nat)
  | wakeCaller (caller : Nat)
  /-- `thpool_destroy` clears `threads_keepalive`. -/
  | stop
  /-- `bsem_post_all` in a loop of `thpool_destroy`. -/
  | postAll

variable {ω : Type}

namespace Thpool

/-- `thpool_init`, whose threads have been created. -/
def init (numThreads callers : Nat) : Thpool ω :=
  { memory := fun _ => none
    jobqueue := jobqueueInit
    rwmutex := false
    v := false
    threadsKeepalive := true
    initialised := false
    threads := List.replicate numThreads .starting
    numThreadsAlive := 0
    numThreadsWorking := 0
    callers := List.replicate callers .idle }

def setPlace (s : Thpool ω) (n : Nat) (place : Place) : Thpool ω :=
  { s with threads := s.threads.set n place }

def setCaller (s : Thpool ω) (caller : Nat) (place : CallPlace) : Thpool ω :=
  { s with callers := s.callers.set caller place }

def bsemPost (s : Thpool ω) (woken : Nat) : Option (Thpool ω) :=
  (signal .sleeping .atWait woken s.threads).map fun threads =>
    { s with v := true, threads := threads }

/-- `jobqueue_pull` up to the post, which it makes when more than one job is
queued. -/
def pull (s : Thpool ω) (n : Nat) : Option (Thpool ω) :=
  if s.rwmutex then none
  else
    (jobqueuePull s.memory s.jobqueue).bind fun result =>
      if s.jobqueue.len < 2 then
        some ({ s with jobqueue := result.2 }.setPlace n (.pulled result.1))
      else
        result.1.map fun job =>
          { s with jobqueue := result.2, rwmutex := true }.setPlace n (.posting job)

def threadDo (s : Thpool ω) (n woken : Nat) (place : Place) : Option (Thpool ω) :=
  match place with
  | .starting =>
      some ({ s with numThreadsAlive := s.numThreadsAlive + 1 }.setPlace n .atLoop)
  | .atLoop => some (s.setPlace n (if s.threadsKeepalive then .atWait else .exiting))
  | .atWait =>
      some (if s.v then { s with v := false }.setPlace n .passed else s.setPlace n .sleeping)
  | .sleeping => none
  | .passed => some (s.setPlace n (if s.threadsKeepalive then .entered else .atLoop))
  | .entered =>
      some ({ s with numThreadsWorking := s.numThreadsWorking + 1 }.setPlace n .counted)
  | .counted => s.pull n
  | .posting job =>
      (s.bsemPost woken).map fun s =>
        { s with rwmutex := false }.setPlace n (.pulled (some job))
  | .pulled none => some (s.setPlace n .leaving)
  | .pulled (some job) =>
      -- reads `function` and `arg`, and calls the function
      if (s.memory job).isSome then some (s.setPlace n (.running job)) else none
  | .running job => some ({ s with memory := s.memory.free job }.setPlace n .leaving)
  | .leaving =>
      let s := { s with numThreadsWorking := s.numThreadsWorking - 1 }.setPlace n .atLoop
      if s.numThreadsWorking = 0 then
        (signal .sleeping .testing woken s.callers).map fun callers =>
          { s with callers := callers }
      else some s
  | .exiting =>
      some ({ s with numThreadsAlive := s.numThreadsAlive - 1 }.setPlace n .gone)
  | .gone => none

/-- `thpool_add_work` up to the post. -/
def addWork (s : Thpool ω) (caller : Nat) (newjob : Addr) (work : ω) : Option (Thpool ω) :=
  if s.rwmutex ∨ (s.memory newjob).isSome then none
  else
    (jobqueuePush (s.memory.malloc newjob ⟨none, work⟩) s.jobqueue newjob).map fun result =>
      { s with memory := result.1, jobqueue := result.2, rwmutex := true }.setCaller
        caller .posting

/-- The test in `thpool_wait`; `num_threads_working` does not change between the
reads of `len` and of it. -/
def testIdle (s : Thpool ω) (caller : Nat) : Thpool ω :=
  s.setCaller caller
    (if s.jobqueue.len ≠ 0 ∨ s.numThreadsWorking ≠ 0 then .sleeping else .idle)

def step (s : Thpool ω) : Event ω → Option (Thpool ω)
  | .initialised =>
      if s.numThreadsAlive = s.threads.length then some { s with initialised := true }
      else none
  | .thread n woken => s.threads[n]?.bind fun place => s.threadDo n woken place
  | .wakeThread n =>
      if s.threads[n]? = some .sleeping then some (s.setPlace n .atWait) else none
  | .addWork caller newjob work =>
      if s.initialised ∧ s.callers[caller]? = some .idle then s.addWork caller newjob work
      else none
  | .post caller woken =>
      if s.callers[caller]? = some .posting then
        (s.bsemPost woken).map fun s => { s with rwmutex := false }.setCaller caller .idle
      else none
  | .wait caller =>
      if s.initialised ∧ s.callers[caller]? = some .idle then
        some (s.setCaller caller .testing)
      else none
  | .test caller =>
      if s.callers[caller]? = some .testing then some (s.testIdle caller) else none
  | .wakeCaller caller =>
      if s.callers[caller]? = some .sleeping then some (s.setCaller caller .testing)
      else none
  | .stop => if s.initialised then some { s with threadsKeepalive := false } else none
  | .postAll =>
      if s.threadsKeepalive = false ∧ s.numThreadsAlive ≠ 0 then
        some { s with v := true, threads := broadcast .sleeping .atWait s.threads }
      else none

end Thpool

end SysprogTeam3.ThreadPool
