import SysprogTeam3.FoodSys.Atomicity
import SysprogTeam3.ThreadPool.Service

/-!
# The server on its thread pool

`buffered_on_read` reads a packet into `data` and adds a work to the pool, and a worker
that calls it runs `handler_func_dispatch` on what the last read left in `data`.  The
workers of `WorkerPool` take any waiting job, start it at once and have its own packet;
those of the pool take the oldest one and start it some steps later.  While no packet is
read over one that a handler may still look at, every run on the pool is a run of
`WorkerPool`.

The handlers run in the steps of `WorkerPool`, and no address is used for a second
record: a registration or an order has all its effects when it is called, an update makes
its search then and has its effects when it returns.
-/

namespace SysprogTeam3.FoodSys

open SysprogTeam3.Foundation
open scoped List

/-- A `job_data_t`: its `arg`, and the packet that was read when it was made, at which
no code looks.  Its `pkt_data` always points to `data`. -/
abbrev JobData := Addr × Pkt

structure PooledServer where
  pool : ThreadPool.Thpool JobData
  /-- The packet in the local array of `buffered_on_read`, the same in every call. -/
  data : Pkt
  /-- What a call of `buffered_on_read` has still to add. -/
  reading : Option JobData
  server : Server
  /-- The workers whose `cook_update_handler` has found the customer, each with the
  sender. -/
  running : List (Nat × Addr)
  nextRecord : Addr

inductive PooledEvent where
  | accept
  /-- `buffered_on_read` up to its call of `thpool_add_work`. -/
  | read (client : Addr) (pkt : Pkt)
  | error (client : Addr)
  | pool (e : ThreadPool.Event JobData)

def PooledEvent.StandsFor : PooledEvent → PoolEvent → Prop
  | .accept, .accept | .read _ _, .read _ _ | .error _, .error _ => True
  | .pool (.thread _ _), .start _ | .pool (.thread _ _), .finish _ => True
  | _, _ => False

/-- The handler looks at more than the type of its packet. -/
def Pkt.isLookedAt : Pkt → Bool
  | .regCook _ | .custOrder _ => true
  | .regCustomer | .cookUpdate _ | .other _ => false

/-- `server.c` calls neither `thpool_wait` nor `thpool_destroy`. -/
def calledByServer : ThreadPool.Event JobData → Bool
  | .wait _ | .stop | .postAll => false
  | _ => true

namespace PooledServer

def initial (numThreads : Nat) : PooledServer :=
  { pool := ThreadPool.Thpool.init numThreads 1
    -- written before the first job is made
    data := .other 0
    reading := none
    server := WorkerPool.initial.server
    running := []
    nextRecord := 0 }

/-- `event_base_dispatch` has been called, and no callback runs. -/
def LoopIdle (s : PooledServer) : Prop :=
  s.pool.initialised = true ∧ s.pool.callers[0]? = some .idle ∧ s.reading = none

instance (s : PooledServer) : Decidable s.LoopIdle := inferInstanceAs (Decidable (_ ∧ _))

/-- `handler_func_dispatch` in worker `n`, or its first step. -/
def call (s : PooledServer) (n : Nat) (client : Addr) : Pkt → Option PooledServer
  | .cookUpdate _ =>
      some (if customerExists s.server client then
        { s with running := s.running ++ [(n, client)] } else s)
  | pkt =>
      (handlerFuncDispatch s.server client pkt).map fun result =>
        { s with server := result.1 }

/-- The place in `running` of the update that worker `n` runs, with its sender. -/
def updateOf (s : PooledServer) (n : Nat) : Option (Nat × Addr) :=
  (s.running.findIdx? fun update => update.1 == n).bind fun handler =>
    s.running[handler]?.map fun update => (handler, update.2)

/-- The handler of worker `n` returns; an update that has found its customer is run
to its end. -/
def finish (s : PooledServer) (n : Nat) : PooledServer :=
  match s.updateOf n with
  | none => s
  | some (handler, client) =>
      { s with
        server := (finishUpdate s.server client).1
        running := s.running.eraseIdx handler }

def act (s : PooledServer) : List (WorkAction JobData) → Option PooledServer
  | [.add work] => if s.reading = some work then some { s with reading := none } else none
  | [.call n work] => s.call n work.1 s.data
  | [.finish n _] => some (s.finish n)
  | _ => some s

def step (s : PooledServer) : PooledEvent → Option PooledServer
  | .accept =>
      if s.LoopIdle then
        some { s with
          server := onAccept s.server s.nextRecord
          nextRecord := s.nextRecord + 1 }
      else none
  | .read client pkt =>
      if s.LoopIdle ∧ client ∈ s.server.clientTailq then
        some { s with data := pkt, reading := some (client, pkt) }
      else none
  | .error client =>
      if s.LoopIdle ∧ client ∈ s.server.clientTailq then
        some { s with server := bufferedOnError s.server client }
      else none
  | .pool e =>
      if calledByServer e then
        (s.pool.step e).bind fun pool => act { s with pool := pool } (s.pool.actions e)
      else none

def actions (s : PooledServer) : PooledEvent → List ServerAction
  | .accept => [.accepted s.nextRecord]
  | .read client pkt => [.read client pkt]
  | .error client => [.closed client]
  | .pool e =>
      match s.pool.actions e with
      | [.call _ work] => [.wrote (startWrites s.server work.1 s.data)]
      | [.finish n _] =>
          match s.updateOf n with
          | none => []
          | some (_, client) => [.wrote (finishUpdate s.server client).2]
      | _ => []

/-! ## What a step of the pool does -/

section Steps

variable {s s' : PooledServer} {n : Nat} {e : ThreadPool.Event JobData}

theorem step_pool_eq_some :
    s.step (.pool e) = some s' ↔ calledByServer e = true ∧ ∃ pool, s.pool.step e = some pool ∧
      act { s with pool := pool } (s.pool.actions e) = some s' := by
  simp [step, Option.bind_eq_some_iff]

theorem actions_cases (s : ThreadPool.Thpool JobData) (e : ThreadPool.Event JobData) :
    (s.actions e = [] ∨ ∃ n work, s.actions e = [.take n work]) ∨
      (∃ caller newjob work, e = .addWork caller newjob work) ∨
      (∃ n woken work, e = .thread n woken ∧ s.actions e = [.call n work]) ∨
      ∃ n woken work, e = .thread n woken ∧ s.actions e = [.finish n work] := by
  cases e with
  | addWork caller newjob work => exact .inr (.inl ⟨caller, newjob, work, rfl⟩)
  | thread n woken =>
      simp only [ThreadPool.Thpool.actions]
      split
      · cases s.jobqueue.front.bind s.memory.workOf with
        | none => exact .inl (.inl rfl)
        | some work => exact .inl (.inr ⟨n, work, rfl⟩)
      · next job _ =>
          cases s.memory.workOf job with
          | none => exact .inl (.inl rfl)
          | some work => exact .inr (.inr (.inl ⟨n, woken, work, rfl, rfl⟩))
      · next job _ =>
          cases s.memory.workOf job with
          | none => exact .inl (.inl rfl)
          | some work => exact .inr (.inr (.inr ⟨n, woken, work, rfl, rfl⟩))
      · exact .inl (.inl rfl)
  | _ => exact .inl (.inl rfl)

theorem call_keeps {client : Addr} {pkt : Pkt} (h : s.call n client pkt = some s') :
    s'.pool = s.pool ∧ s'.data = s.data ∧ s'.reading = s.reading := by
  cases pkt with
  | cookUpdate p =>
      simp only [call, Option.some.injEq] at h
      rw [← h]
      split <;> exact ⟨rfl, rfl, rfl⟩
  | regCook | regCustomer | custOrder | other =>
      simp only [call, Option.map_eq_some_iff] at h
      obtain ⟨result, -, rfl⟩ := h
      exact ⟨rfl, rfl, rfl⟩

theorem finish_keeps :
    (s.finish n).pool = s.pool ∧ (s.finish n).data = s.data ∧
      (s.finish n).reading = s.reading := by
  unfold finish
  split <;> exact ⟨rfl, rfl, rfl⟩

theorem act_keeps {pool : ThreadPool.Thpool JobData} (h : s.act (pool.actions e) = some s') :
    s'.pool = s.pool ∧ s'.data = s.data ∧
      s.reading.toList = (pool.actions e).filterMap WorkAction.added ++ s'.reading.toList := by
  rcases actions_cases pool e with
    (hnone | ⟨n, work, htake⟩) | ⟨caller, newjob, work, rfl⟩ | ⟨n, woken, work, rfl, hcall⟩ |
      ⟨n, woken, work, rfl, hfinish⟩
  · rw [hnone] at h ⊢
    obtain rfl := Option.some.inj h
    exact ⟨rfl, rfl, rfl⟩
  · rw [htake] at h ⊢
    obtain rfl := Option.some.inj h
    exact ⟨rfl, rfl, rfl⟩
  · have hadd : pool.actions (.addWork caller newjob work) = [.add work] := rfl
    rw [hadd] at h ⊢
    simp only [act, Option.ite_none_right_eq_some, Option.some.injEq] at h
    obtain ⟨hreading, rfl⟩ := h
    exact ⟨rfl, rfl, by rw [hreading]; rfl⟩
  · rw [hcall] at h ⊢
    obtain ⟨hpool, hdata, hreading⟩ := call_keeps h
    exact ⟨hpool, hdata, by rw [hreading]; rfl⟩
  · rw [hfinish] at h ⊢
    obtain rfl := Option.some.inj h
    obtain ⟨hpool, hdata, hreading⟩ := finish_keeps (s := s) (n := n)
    exact ⟨hpool, hdata, by rw [hreading]; rfl⟩

theorem call_clientTailq {client : Addr} {pkt : Pkt} (h : s.call n client pkt = some s') :
    s'.server.clientTailq = s.server.clientTailq := by
  cases pkt with
  | cookUpdate m =>
      simp only [call, Option.some.injEq] at h
      rw [← h]
      split <;> rfl
  | regCook | regCustomer | custOrder | other =>
      simp only [call, Option.map_eq_some_iff] at h
      obtain ⟨result, hresult, rfl⟩ := h
      exact dispatch_clientTailq hresult

theorem act_clientTailq {actions : List (WorkAction JobData)} (h : s.act actions = some s') :
    s'.server.clientTailq = s.server.clientTailq := by
  unfold act at h
  split at h
  · simp only [Option.ite_none_right_eq_some, Option.some.injEq] at h
    rw [← h.2]
  · exact call_clientTailq h
  · simp only [Option.some.injEq] at h
    rw [← h]
    unfold finish
    split
    · rfl
    · exact (finishUpdate_assignedClient s.server _ 0).1
  · simp only [Option.some.injEq] at h
    rw [h]

theorem clientTailq_pool (hstep : s.step (.pool e) = some s') :
    s'.server.clientTailq = s.server.clientTailq := by
  obtain ⟨-, pool, -, hact⟩ := step_pool_eq_some.mp hstep
  exact (act_clientTailq hact).trans rfl

theorem pool_step (hstep : s.step (.pool e) = some s') : s.pool.step e = some s'.pool := by
  obtain ⟨-, pool, hpool, hact⟩ := step_pool_eq_some.mp hstep
  rw [hpool, (act_keeps hact).1]

end Steps

end PooledServer

/-! ## The waiting works of the pool -/

section Waiting

variable {ω : Type} {s s' : ThreadPool.Thpool ω} {jobs : List ThreadPool.Addr}

/-- The works that have been added and not yet called: those in the queue, which is
followed from its front, and those in the hands of a worker. -/
def waitingWorks (s : ThreadPool.Thpool ω) : List ω :=
  (visited s.memory.prevOf s.jobqueue.len s.jobqueue.front).filterMap s.memory.workOf ++
    s.heldWorks

theorem waitingWorks_eq (howns : s.Owns jobs) :
    waitingWorks s = jobs.filterMap s.memory.workOf ++ s.heldWorks := by
  rw [waitingWorks, howns.holds.len, howns.holds.chain.visited_eq]

theorem waitingWorks_step [DecidableEq ω] (howns : s.Owns jobs) {e : ThreadPool.Event ω}
    (hstep : s.step e = some s') :
    s'.Owns (s.jobsAfter jobs e) ∧
      (s.actions e).filterMap WorkAction.called ++ waitingWorks s' ~
        waitingWorks s ++ (s.actions e).filterMap WorkAction.added := by
  have hservice := ThreadPool.Thpool.service_step howns hstep
  have howns' := howns.step hstep
  refine ⟨howns', ?_⟩
  have hqueue := WorkService.taken_append_queue hservice
  have hheld := WorkService.called_append_held hservice
  simp only [ThreadPool.Thpool.service, List.filterMap_map] at hqueue hheld
  rw [waitingWorks_eq howns, waitingWorks_eq howns']
  change _ ++ s'.heldWorks ~ s.heldWorks ++ _ at hheld
  calc (s.actions e).filterMap WorkAction.called ++
        ((s.jobsAfter jobs e).filterMap s'.memory.workOf ++ s'.heldWorks)
    _ ~ ((s.actions e).filterMap WorkAction.called ++ s'.heldWorks) ++
        (s.jobsAfter jobs e).filterMap s'.memory.workOf := by
          rw [List.append_assoc]
          exact List.perm_append_comm.append_left _
    _ ~ s.heldWorks ++ ((s.actions e).filterMap WorkAction.taken ++
        (s.jobsAfter jobs e).filterMap s'.memory.workOf) := by
          rw [← List.append_assoc]
          exact hheld.append_right _
    _ ~ (jobs.filterMap s.memory.workOf ++ s.heldWorks) ++
        (s.actions e).filterMap WorkAction.added := by
          rw [hqueue, ← List.append_assoc]
          exact List.perm_append_comm.append_right _

end Waiting

namespace PooledServer

def waiting (s : PooledServer) : List JobData := waitingWorks s.pool ++ s.reading.toList

theorem waiting_step {s s' : PooledServer} {jobs : List ThreadPool.Addr}
    (howns : s.pool.Owns jobs) {e : ThreadPool.Event JobData}
    (hstep : s.step (.pool e) = some s') :
    s'.pool.Owns (s.pool.jobsAfter jobs e) ∧
      (s.pool.actions e).filterMap WorkAction.called ++ s'.waiting ~ s.waiting := by
  obtain ⟨-, pool, hpool, hact⟩ := step_pool_eq_some.mp hstep
  obtain ⟨hsame, -, hreading⟩ := act_keeps hact
  obtain ⟨howns', hworks⟩ := waitingWorks_step howns hpool
  obtain rfl : s'.pool = pool := hsame
  refine ⟨howns', ?_⟩
  change s.reading.toList = _ at hreading
  rw [waiting, waiting, hreading, ← List.append_assoc, ← List.append_assoc]
  exact hworks.append_right _

/-- The works whose packet may still be looked at: those that wait, and the registrations
and orders whose handler has not returned. -/
def unseen (s : PooledServer) : List JobData :=
  s.waiting ++ s.pool.runningWorks.filter fun work => work.2.isLookedAt

/-- No packet is read over a different one that may still be looked at. -/
def ReadsAgree (s : PooledServer) : PooledEvent → Prop
  | .read _ pkt => ∀ work ∈ s.unseen, work.2 = pkt
  | _ => True

instance (s : PooledServer) (e : PooledEvent) : Decidable (s.ReadsAgree e) :=
  match e with
  | .read _ pkt => inferInstanceAs (Decidable (∀ work ∈ s.unseen, work.2 = pkt))
  | .accept | .error _ | .pool _ => isTrue trivial

/-- A client is only removed, or added, when no waiting work and no update that runs on
after its search will use a record that is not in the queue then. -/
def SparesUsed (s : PooledServer) : PooledEvent → Prop
  | .accept => ∀ work ∈ s.waiting,
      work.2.UsesSender (s.server.clientTailq ++ [s.nextRecord]) →
        work.1 ∈ s.server.clientTailq
  | .error client =>
      (∀ work ∈ s.waiting,
          work.2.UsesSender (s.server.clientTailq.erase client) → work.1 ≠ client) ∧
        ∀ update ∈ s.running, update.2 ≠ client ∧
          (s.server.heap update.2).assignedClient ≠ some client
  | .read _ _ | .pool _ => True

instance (s : PooledServer) (e : PooledEvent) : Decidable (s.SparesUsed e) :=
  match e with
  | .accept => inferInstanceAs (Decidable (∀ work ∈ s.waiting,
      work.2.UsesSender (s.server.clientTailq ++ [s.nextRecord]) →
        work.1 ∈ s.server.clientTailq))
  | .error client => inferInstanceAs (Decidable
      ((∀ work ∈ s.waiting,
          work.2.UsesSender (s.server.clientTailq.erase client) → work.1 ≠ client) ∧
        ∀ update ∈ s.running, update.2 ≠ client ∧
          (s.server.heap update.2).assignedClient ≠ some client))
  | .read _ _ | .pool _ => isTrue trivial

def Undisturbed (s : PooledServer) (e : PooledEvent) : Prop := s.ReadsAgree e ∧ s.SparesUsed e

instance (s : PooledServer) (e : PooledEvent) : Decidable (s.Undisturbed e) :=
  inferInstanceAs (Decidable (_ ∧ _))

/-- Workers with the same server, the same started updates and the same waiting
jobs in some order, whose packet is the one in `data`. -/
structure Matches (s : PooledServer) (w : WorkerPool) : Prop where
  server : w.server = s.server
  nextRecord : w.nextRecord = s.nextRecord
  running : w.running = s.running.map Prod.snd
  jobs : w.jobs ~ s.waiting
  intact : ∀ work ∈ s.waiting, work.2 = s.data
  owns : ∃ jobs, s.pool.Owns jobs

section Simulation

variable {s s' : PooledServer} {w : WorkerPool} {n : Nat} {work : JobData}

theorem exists_start {waiting : List JobData} (h : w.jobs ~ work :: waiting) :
    ∃ job, w.jobs[job]? = some work ∧ w.jobs.eraseIdx job ~ waiting := by
  have hmem : work ∈ w.jobs := h.mem_iff.mpr List.mem_cons_self
  obtain ⟨job, hjob⟩ := List.mem_iff_getElem?.mp hmem
  exact ⟨job, hjob, ((perm_cons_eraseIdx hjob).symm.trans h).cons_inv⟩

theorem call_matches {jobs : List JobData} {pool : ThreadPool.Thpool JobData}
    (hserver : w.server = s.server) (hnext : w.nextRecord = s.nextRecord)
    (hrunning : w.running = s.running.map Prod.snd)
    (hcall : call { s with pool := pool } n work.1 work.2 = some s') :
    ∃ w', WorkerPool.startJob { w with jobs := jobs } work.1 work.2 = some w' ∧
      w'.server = s'.server ∧ w'.nextRecord = s'.nextRecord ∧
      w'.running = s'.running.map Prod.snd ∧ w'.jobs = jobs := by
  obtain ⟨client, pkt⟩ := work
  have hdispatch : ∀ pkt, (handlerFuncDispatch s.server client pkt).map
        (fun result => { s with pool := pool, server := result.1 }) = some s' →
      ∃ w', (handlerFuncDispatch w.server client pkt).map
          (fun result => { w with jobs := jobs, server := result.1 }) = some w' ∧
        w'.server = s'.server ∧ w'.nextRecord = s'.nextRecord ∧
        w'.running = s'.running.map Prod.snd ∧ w'.jobs = jobs := by
    intro pkt hsome
    obtain ⟨result, hresult, rfl⟩ := Option.map_eq_some_iff.mp hsome
    refine ⟨{ w with jobs := jobs, server := result.1 }, ?_, rfl, hnext, hrunning, rfl⟩
    rw [hserver, hresult, Option.map_some]
  cases pkt with
  | cookUpdate p =>
      simp only [call, Option.some.injEq] at hcall
      subst hcall
      refine ⟨_, rfl, ?_⟩
      by_cases hexists : customerExists s.server client = true
      · simp [hexists, hserver, hnext, hrunning]
      · simp [hexists, hserver, hnext, hrunning]
  | regCook p => exact hdispatch (.regCook p) hcall
  | regCustomer => exact hdispatch .regCustomer hcall
  | custOrder p => exact hdispatch (.custOrder p) hcall
  | other type => exact hdispatch (.other type) hcall

theorem updateOf_eq_some {handler : Nat} {client : Addr}
    (h : s.updateOf n = some (handler, client)) :
    (s.running.map Prod.snd)[handler]? = some client := by
  obtain ⟨place, -, hplace⟩ := Option.bind_eq_some_iff.mp h
  obtain ⟨update, hupdate, heq⟩ := Option.map_eq_some_iff.mp hplace
  obtain ⟨rfl, rfl⟩ := Prod.mk.inj heq
  rw [List.getElem?_map, hupdate, Option.map_some]

theorem Matches.sparesUsed_accept (h : s.Matches w) (hspares : s.SparesUsed .accept) :
    w.SparesUsed .accept := by
  simpa only [SparesUsed, WorkerPool.SparesUsed, WorkerPool.Connected, h.server,
    h.nextRecord, h.jobs.mem_iff] using hspares

theorem Matches.sparesUsed_error (h : s.Matches w) {client : Addr}
    (hspares : s.SparesUsed (.error client)) : w.SparesUsed (.error client) := by
  simpa only [SparesUsed, WorkerPool.SparesUsed, h.server, h.running, h.jobs.mem_iff,
    List.forall_mem_map] using hspares

theorem pool_matches (h : s.Matches w) {e : ThreadPool.Event JobData}
    (hstep : s.step (.pool e) = some s') :
    ∃ matching w', run WorkerPool.step w matching = some w' ∧
      AllSteps WorkerPool.step WorkerPool.SparesUsed w matching ∧
      observed WorkerPool.step WorkerPool.actions w matching = s.actions (.pool e) ∧
      s'.Matches w' ∧ ∀ e' ∈ matching, (PooledEvent.pool e).StandsFor e' := by
  obtain ⟨jobs, howns⟩ := h.owns
  obtain ⟨howns', hwaiting⟩ := waiting_step howns hstep
  obtain ⟨-, pool, -, hact⟩ := step_pool_eq_some.mp hstep
  have hdata : s'.data = s.data := (act_keeps hact).2.1
  have hintact : ∀ work ∈ s'.waiting, work.2 = s'.data := fun work hwork =>
    (h.intact work (hwaiting.mem_iff.mp (List.mem_append_right _ hwork))).trans hdata.symm
  have hsame : w.server = s'.server → w.nextRecord = s'.nextRecord →
      w.running = s'.running.map Prod.snd → s'.waiting ~ s.waiting → s'.Matches w :=
    fun hserver hnext hrunning hperm =>
      ⟨hserver, hnext, hrunning, h.jobs.trans hperm.symm, hintact, _, howns'⟩
  rcases actions_cases s.pool e with
    (hnone | ⟨n, work, htake⟩) | ⟨caller, newjob, work, rfl⟩ | ⟨n, woken, work, rfl, hcall⟩ |
      ⟨n, woken, work, rfl, hfinish⟩
  · rw [hnone] at hact hwaiting
    obtain rfl := Option.some.inj hact
    exact ⟨[], w, rfl, trivial, by simp [actions, hnone],
      hsame h.server h.nextRecord h.running hwaiting, by simp⟩
  · rw [htake] at hact hwaiting
    obtain rfl := Option.some.inj hact
    exact ⟨[], w, rfl, trivial, by simp [actions, htake],
      hsame h.server h.nextRecord h.running hwaiting, by simp⟩
  · have hadd : s.pool.actions (.addWork caller newjob work) = [.add work] := rfl
    rw [hadd] at hact hwaiting
    simp only [act, Option.ite_none_right_eq_some, Option.some.injEq] at hact
    obtain ⟨-, rfl⟩ := hact
    exact ⟨[], w, rfl, trivial, by simp [actions, hadd],
      hsame h.server h.nextRecord h.running hwaiting, by simp⟩
  · rw [hcall] at hact hwaiting
    have hperm : work :: s'.waiting ~ s.waiting := hwaiting
    obtain ⟨job, hjob, hrest⟩ := exists_start (h.jobs.trans hperm.symm)
    have hown : work.2 = s.data := h.intact work (hperm.mem_iff.mp List.mem_cons_self)
    have hcalled : call { s with pool := pool } n work.1 work.2 = some s' := hown ▸ hact
    obtain ⟨w', hstart, hserver', hnext', hrunning', hjobs'⟩ :=
      call_matches h.server h.nextRecord h.running hcalled
    have hstep : w.step (.start job) = some w' := by
      simp only [WorkerPool.step, hjob]
      exact hstart
    refine ⟨[.start job], w', run_cons_eq_some.mpr ⟨w', hstep, rfl⟩,
      ⟨trivial, fun _ _ => trivial⟩, ?_,
      ⟨hserver', hnext', hrunning', hjobs' ▸ hrest, hintact, _, howns'⟩,
      by simp [PooledEvent.StandsFor]⟩
    rw [observed_singleton]
    simp [actions, hcall, WorkerPool.actions, hjob, h.server, hown]
  · rw [hfinish] at hact hwaiting
    have hperm : s'.waiting ~ s.waiting := hwaiting
    obtain rfl : finish { s with pool := pool } n = s' := Option.some.inj hact
    have hplace : updateOf { s with pool := pool } n = s.updateOf n := rfl
    cases hupdate : s.updateOf n with
    | none =>
        have hnothing : finish { s with pool := pool } n = { s with pool := pool } := by
          rw [finish, hplace, hupdate]
        rw [hnothing] at hperm hsame ⊢
        exact ⟨[], w, rfl, trivial, by simp [actions, hfinish, hupdate],
          hsame h.server h.nextRecord h.running hperm, by simp⟩
    | some update =>
        obtain ⟨handler, client⟩ := update
        have hsender : w.running[handler]? = some client := by
          rw [h.running]
          exact updateOf_eq_some hupdate
        have hstep : w.step (.finish handler) =
            some { w with
              server := (finishUpdate w.server client).1
              running := w.running.eraseIdx handler } := by
          simp [WorkerPool.step, hsender]
        have hdone : finish { s with pool := pool } n =
            { s with
              pool := pool
              server := (finishUpdate s.server client).1
              running := s.running.eraseIdx handler } := by
          rw [finish, hplace, hupdate]
        rw [hdone] at hperm howns' hintact ⊢
        refine ⟨[.finish handler], _, run_cons_eq_some.mpr ⟨_, hstep, rfl⟩,
          ⟨trivial, fun _ _ => trivial⟩, ?_, ⟨?_, h.nextRecord, ?_, h.jobs.trans hperm.symm,
          hintact, _, howns'⟩, by simp [PooledEvent.StandsFor]⟩
        · rw [observed_singleton]
          simp [actions, hfinish, hupdate, WorkerPool.actions, hsender, h.server]
        · rw [h.server]
        · rw [h.running, List.eraseIdx_map]

theorem step_matches (h : s.Matches w) {e : PooledEvent} (hagree : s.ReadsAgree e)
    (hstep : s.step e = some s') :
    ∃ matching w', run WorkerPool.step w matching = some w' ∧
      (s.SparesUsed e → AllSteps WorkerPool.step WorkerPool.SparesUsed w matching) ∧
      observed WorkerPool.step WorkerPool.actions w matching = s.actions e ∧ s'.Matches w' ∧
      ∀ e' ∈ matching, e.StandsFor e' := by
  cases e with
  | accept =>
      simp only [step, Option.ite_none_right_eq_some, Option.some.injEq] at hstep
      obtain ⟨-, rfl⟩ := hstep
      refine ⟨[.accept], _, rfl, fun hspares => ⟨h.sparesUsed_accept hspares,
        fun _ _ => trivial⟩, ?_, ⟨?_, ?_, h.running, h.jobs, h.intact, h.owns⟩,
        by simp [PooledEvent.StandsFor]⟩
      · rw [observed_singleton, WorkerPool.actions, h.nextRecord, actions]
      · rw [h.server, h.nextRecord]
      · rw [h.nextRecord]
  | read client pkt =>
      simp only [step, Option.ite_none_right_eq_some, Option.some.injEq] at hstep
      obtain ⟨⟨⟨-, -, hreading⟩, hconn⟩, rfl⟩ := hstep
      have hread : w.step (.read client pkt) =
          some { w with jobs := w.jobs ++ [(client, pkt)] } :=
        if_pos (by rwa [WorkerPool.Connected, h.server])
      have hwaiting : waiting { s with data := pkt, reading := some (client, pkt) } =
          s.waiting ++ [(client, pkt)] := by
        simp [waiting, hreading]
      refine ⟨[.read client pkt], _, run_cons_eq_some.mpr ⟨_, hread, rfl⟩,
        fun _ => ⟨trivial, fun _ _ => trivial⟩, ?_, ⟨h.server, h.nextRecord, h.running, ?_, ?_,
        h.owns⟩, by simp [PooledEvent.StandsFor]⟩
      · rw [observed_singleton, WorkerPool.actions, actions]
      · rw [hwaiting]
        exact h.jobs.append_right _
      · intro work hwork
        rw [hwaiting] at hwork
        rcases List.mem_append.mp hwork with hold | hnew
        · exact hagree work (List.mem_append_left _ hold)
        · rw [List.mem_singleton.mp hnew]
  | error client =>
      simp only [step, Option.ite_none_right_eq_some, Option.some.injEq] at hstep
      obtain ⟨⟨-, hconn⟩, rfl⟩ := hstep
      have hclose : w.step (.error client) =
          some { w with server := bufferedOnError w.server client } :=
        if_pos (by rwa [WorkerPool.Connected, h.server])
      refine ⟨[.error client], _, run_cons_eq_some.mpr ⟨_, hclose, rfl⟩,
        fun hspares => ⟨h.sparesUsed_error hspares, fun _ _ => trivial⟩, ?_,
        ⟨?_, h.nextRecord, h.running, h.jobs, h.intact, h.owns⟩, by simp [PooledEvent.StandsFor]⟩
      · rw [observed_singleton, WorkerPool.actions, actions]
      · rw [h.server]
  | pool e =>
      obtain ⟨matching, w', hrun, hsteps, hrest⟩ := pool_matches h hstep
      exact ⟨matching, w', hrun, fun _ => hsteps, hrest⟩

end Simulation

theorem initial_waiting (numThreads : Nat) : (initial numThreads).waiting = [] := by
  have hheld : (ThreadPool.Thpool.init numThreads 1 : ThreadPool.Thpool JobData).heldWorks =
      [] := by
    refine List.filterMap_eq_nil_iff.mpr fun place hmem => ?_
    obtain ⟨-, rfl⟩ := List.mem_replicate.mp hmem
    rfl
  rw [waiting, initial, waitingWorks_eq (ThreadPool.Thpool.owns_init numThreads 1), hheld]
  rfl

theorem initial_matches (numThreads : Nat) :
    (initial numThreads).Matches WorkerPool.initial :=
  ⟨rfl, rfl, rfl, by rw [initial_waiting]; rfl, by simp [initial_waiting], [],
    ThreadPool.Thpool.owns_init numThreads 1⟩

/--
Every run of the server on its thread pool in which no packet is read over a different one
that may still be looked at is a run of `WorkerPool` that accepts, closes, reads and writes
the same in the same order.  It ends with the same records and the same queue of
clients, and with the works that have been read and not called as its waiting jobs.
-/
theorem pooled_run_is_workerPool_run {numThreads : Nat} {events : List PooledEvent}
    {s : PooledServer} (hrun : run step (initial numThreads) events = some s)
    (hagree : AllSteps step ReadsAgree (initial numThreads) events) :
    ∃ poolEvents w, run WorkerPool.step WorkerPool.initial poolEvents = some w ∧
      observed WorkerPool.step WorkerPool.actions WorkerPool.initial poolEvents =
        observed step actions (initial numThreads) events ∧
      w.server = s.server ∧ w.nextRecord = s.nextRecord ∧
      w.running = s.running.map Prod.snd ∧ w.jobs ~ s.waiting := by
  have hmatch : ∀ (s : PooledServer) w e s', s.Matches w → s.ReadsAgree e →
      s.step e = some s' →
      ∃ matching w', run WorkerPool.step w matching = some w' ∧
        AllSteps WorkerPool.step (fun _ _ => True) w matching ∧
        observed WorkerPool.step WorkerPool.actions w matching = s.actions e ∧
        s'.Matches w' := by
    intro s w e s' h hagree hstep
    obtain ⟨matching, w', hmatching, -, hactions, hmatches, -⟩ := step_matches h hagree hstep
    exact ⟨matching, w', hmatching, .of_forall (fun _ _ => trivial) _ _, hactions, hmatches⟩
  obtain ⟨poolEvents, w, hw, -, hactions, h⟩ :=
    run_matched hmatch (initial_matches numThreads) hagree hrun
  exact ⟨poolEvents, w, hw, hactions, h.server, h.nextRecord, h.running, h.jobs⟩

def registeredRun : List PooledEvent := .flatten
  [[.pool (.thread 0 0), .pool .initialised, .accept, .pool (.thread 0 0),
    .read 0 (.regCook (.ofItems [1])),
    .pool (.addWork 0 7 (0, .regCook (.ofItems [1]))), .pool (.post 0 0)],
   .replicate 5 (.pool (.thread 0 0))]

set_option maxRecDepth 4000 in
theorem pooled_run_is_workerPool_run_registeredRun :
    ∃ s, run step (initial 1) registeredRun = some s ∧
      ∃ poolEvents w, run WorkerPool.step WorkerPool.initial poolEvents = some w ∧
        w.server = s.server := by
  obtain ⟨s, hs⟩ := Option.isSome_iff_exists.mp (by decide :
    (run step (initial 1) registeredRun).isSome)
  obtain ⟨poolEvents, w, hw, -, hserver, -⟩ := pooled_run_is_workerPool_run hs (by decide)
  exact ⟨s, hs, poolEvents, w, hw, hserver⟩

end PooledServer

end SysprogTeam3.FoodSys
