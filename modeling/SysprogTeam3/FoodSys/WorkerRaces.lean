import SysprogTeam3.Foundation.Runs
import SysprogTeam3.FoodSys.HandlerSpecs

/-!
# Workers and removed clients

The event loop removes and frees the records of clients while jobs for them
wait in the thread pool.  Every accepted client gets a record at an address that
no client had before, so a record that has left the queue has been freed.

A handler takes effect in one step, what it does outside the lock included; only
`cook_update_handler` runs in two, the locked search, and all that follows it up to
its return.
-/

namespace SysprogTeam3.FoodSys

open SysprogTeam3.Foundation

/-- With these clients in the queue the packet's handler, or the search of an
update, uses the record of its sender.  The search looks at it once for each
entry, so not at all in an empty queue. -/
def Pkt.UsesSender (queue : List Addr) : Pkt → Prop
  | .regCook _ | .custOrder _ => True
  | .cookUpdate _ => queue ≠ []
  | .regCustomer | .other _ => False

instance (queue : List Addr) : DecidablePred (Pkt.UsesSender queue)
  | .regCook _ | .custOrder _ => isTrue trivial
  | .cookUpdate _ => inferInstanceAs (Decidable (queue ≠ []))
  | .regCustomer | .other _ => isFalse id

theorem Pkt.UsesSender.mono {queue queue' : List Addr} {pkt : Pkt}
    (h : pkt.UsesSender queue) (hsub : queue ⊆ queue') : pkt.UsesSender queue' := by
  cases pkt with
  | regCook p | custOrder p => trivial
  | cookUpdate p => exact List.ne_nil_of_mem (hsub (List.head_mem h))
  | regCustomer | other type => exact h.elim

structure WorkerPool where
  server : Server
  /-- The jobs that no worker has taken, each with its `arg`. -/
  jobs : List (Addr × Pkt)
  /-- The senders whose `cook_update_handler` has found the customer. -/
  running : List Addr
  nextRecord : Addr

inductive PoolEvent where
  | accept
  | read (client : Addr) (pkt : Pkt)
  | error (client : Addr)
  /-- A worker takes a job; a `COOK_UPDATE` is run up to the end of the search. -/
  | start (job : Nat)
  /-- A worker runs the rest of a `cook_update_handler`. -/
  | finish (handler : Nat)

namespace WorkerPool

def initial : WorkerPool :=
  { server := { heap := fun _ => .zeroed, clientTailq := [] }
    jobs := []
    running := []
    nextRecord := 0 }

abbrev Connected (s : WorkerPool) (a : Addr) : Prop := a ∈ s.server.clientTailq

/-- `handler_func_dispatch` on a packet of `client`, or its first step. -/
def startJob (s : WorkerPool) (client : Addr) : Pkt → Option WorkerPool
  | .cookUpdate _ =>
      some (if customerExists s.server client then
        { s with running := s.running ++ [client] } else s)
  | pkt =>
      (handlerFuncDispatch s.server client pkt).map fun result =>
        { s with server := result.1 }

def step (s : WorkerPool) : PoolEvent → Option WorkerPool
  | .accept =>
      some { s with
        server := onAccept s.server s.nextRecord
        nextRecord := s.nextRecord + 1 }
  | .read client pkt =>
      if s.Connected client then some { s with jobs := s.jobs ++ [(client, pkt)] }
      else none
  | .error client =>
      if s.Connected client then
        some { s with server := bufferedOnError s.server client }
      else none
  | .start job =>
      match s.jobs[job]? with
      | none => none
      | some (client, pkt) =>
          startJob { s with jobs := s.jobs.eraseIdx job } client pkt
  | .finish handler =>
      match s.running[handler]? with
      | none => none
      | some client =>
          some { s with
            server := (finishUpdate s.server client).1
            running := s.running.eraseIdx handler }

/-- The records that the job's handler, or its first step, reads or writes at
most.  An order and the search of an update walk the queue. -/
def touchedByJob (s : WorkerPool) : Addr × Pkt → List Addr
  | (client, .regCook _) => [client]
  | (client, .custOrder _) => client :: s.server.clientTailq
  | (client, .cookUpdate _) =>
      s.server.clientTailq.flatMap fun clientItem => [clientItem, client]
  | (_, .regCustomer) | (_, .other _) => []

/-- The records that the rest of a `cook_update_handler` reads or writes: the
sender's, and the one that its `assigned_client` then points to. -/
def touchedByHandler (s : WorkerPool) (client : Addr) : List Addr :=
  client :: (s.server.heap client).assignedClient.toList

def touched (s : WorkerPool) : PoolEvent → List Addr
  | .start job => (s.jobs[job]?.map s.touchedByJob).getD []
  | .finish handler => (s.running[handler]?.map s.touchedByHandler).getD []
  | _ => []

/-- No step that a worker can take now touches a record that has left the
queue. -/
def WorkersSafe (s : WorkerPool) : Prop :=
  ∀ e, ∀ a ∈ s.touched e, s.Connected a

/-- A client is only removed when no job waits that will use its record, and no
`cook_update_handler` runs on after its search for it or for a cook that is
assigned to it.  A client is only added when the senders of the waiting jobs
that will use their records are in the queue. -/
def SparesUsed (s : WorkerPool) : PoolEvent → Prop
  | .accept => ∀ job ∈ s.jobs,
      job.2.UsesSender (s.server.clientTailq ++ [s.nextRecord]) → s.Connected job.1
  | .error client =>
      (∀ job ∈ s.jobs,
          job.2.UsesSender (s.server.clientTailq.erase client) → job.1 ≠ client) ∧
        ∀ sender ∈ s.running, sender ≠ client ∧
          (s.server.heap sender).assignedClient ≠ some client
  | _ => True

instance (s : WorkerPool) (e : PoolEvent) : Decidable (s.SparesUsed e) :=
  match e with
  | .accept => inferInstanceAs (Decidable (∀ job ∈ s.jobs,
      job.2.UsesSender (s.server.clientTailq ++ [s.nextRecord]) →
        s.Connected job.1))
  | .error client => inferInstanceAs (Decidable
      ((∀ job ∈ s.jobs,
          job.2.UsesSender (s.server.clientTailq.erase client) → job.1 ≠ client) ∧
        ∀ sender ∈ s.running, sender ≠ client ∧
          (s.server.heap sender).assignedClient ≠ some client))
  | .read _ _ | .start _ | .finish _ => isTrue trivial

structure InUse (s : WorkerPool) : Prop where
  nodup : s.server.clientTailq.Nodup
  fresh : ∀ a, s.Connected a → a < s.nextRecord
  senders : ∀ job ∈ s.jobs, job.1 < s.nextRecord
  jobs : ∀ job ∈ s.jobs, job.2.UsesSender s.server.clientTailq → s.Connected job.1
  running : ∀ sender ∈ s.running, s.Connected sender ∧
    ∀ cust, (s.server.heap sender).assignedClient = some cust → s.Connected cust

theorem initial_inUse : initial.InUse := by
  constructor <;> simp [initial, Connected]

theorem mem_touchedByJob {s : WorkerPool} {job : Addr × Pkt} {a : Addr}
    (ha : a ∈ s.touchedByJob job) :
    a = job.1 ∧ job.2.UsesSender s.server.clientTailq ∨ s.Connected a := by
  obtain ⟨client, pkt⟩ := job
  cases pkt with
  | regCook p => exact .inl ⟨List.mem_singleton.mp ha, trivial⟩
  | custOrder p => exact (List.mem_cons.mp ha).imp_left fun heq => ⟨heq, trivial⟩
  | cookUpdate p =>
      obtain ⟨clientItem, hitem, ha⟩ := List.mem_flatMap.mp ha
      rcases List.mem_pair.mp ha with rfl | rfl
      · exact .inr hitem
      · exact .inl ⟨rfl, List.ne_nil_of_mem hitem⟩
  | regCustomer | other type => simp [touchedByJob] at ha

theorem sender_mem_touchedByJob {s : WorkerPool} {job : Addr × Pkt}
    (h : job.2.UsesSender s.server.clientTailq) : job.1 ∈ s.touchedByJob job := by
  obtain ⟨client, pkt⟩ := job
  cases pkt with
  | regCook p | custOrder p => exact List.mem_cons_self
  | cookUpdate p =>
      exact List.mem_flatMap.mpr ⟨_, List.head_mem h, by simp⟩
  | regCustomer | other type => exact h.elim

theorem workersSafe_of_inUse {s : WorkerPool} (h : s.InUse) : s.WorkersSafe := by
  intro e a ha
  cases e with
  | start job =>
      cases hjob : s.jobs[job]? with
      | none => simp [touched, hjob] at ha
      | some entry =>
          simp only [touched, hjob, Option.map_some, Option.getD_some] at ha
          rcases mem_touchedByJob ha with ⟨rfl, huses⟩ | hqueue
          · exact h.jobs entry (List.mem_of_getElem? hjob) huses
          · exact hqueue
  | finish handler =>
      cases hsender : s.running[handler]? with
      | none => simp [touched, hsender] at ha
      | some client =>
          obtain ⟨hconn, hcust⟩ := h.running client (List.mem_of_getElem? hsender)
          simp only [touched, hsender, Option.map_some, Option.getD_some,
            touchedByHandler] at ha
          rcases List.mem_cons.mp ha with rfl | hassigned
          · exact hconn
          · exact hcust a (Option.mem_toList.mp hassigned)
  | accept | read client pkt | error client => simp [touched] at ha

theorem InUse.mono {s s' : WorkerPool} (h : s.InUse)
    (hqueue : s'.server.clientTailq = s.server.clientTailq)
    (hnext : s'.nextRecord = s.nextRecord)
    (hjobs : ∀ job ∈ s'.jobs, job ∈ s.jobs)
    (hrunning : ∀ sender ∈ s'.running, sender ∈ s.running)
    (hassigned : ∀ b, (s'.server.heap b).assignedClient =
        (s.server.heap b).assignedClient ∨
      ∃ cust, (s'.server.heap b).assignedClient = some cust ∧ s.Connected cust) :
    s'.InUse where
  nodup := hqueue ▸ h.nodup
  fresh := fun a ha => by
    rw [Connected, hqueue] at ha
    rw [hnext]
    exact h.fresh a ha
  senders := fun job hjob => hnext ▸ h.senders job (hjobs job hjob)
  jobs := fun job hjob huses => by
    rw [hqueue] at huses
    rw [Connected, hqueue]
    exact h.jobs job (hjobs job hjob) huses
  running := fun sender hsender => by
    obtain ⟨hconn, hcust⟩ := h.running sender (hrunning sender hsender)
    rw [Connected, hqueue]
    refine ⟨hconn, fun cust hc => ?_⟩
    rw [Connected, hqueue]
    rcases hassigned sender with hsame | ⟨cust', hc', hconn'⟩
    · exact hcust cust (hsame ▸ hc)
    · rw [hc'] at hc
      cases hc
      exact hconn'

theorem inUse_accept {s : WorkerPool} (h : s.InUse) (hC : s.SparesUsed .accept) :
    InUse { s with
      server := onAccept s.server s.nextRecord
      nextRecord := s.nextRecord + 1 } where
  nodup := by
    simpa [onAccept, List.nodup_append] using
      ⟨h.nodup, fun a ha heq => Nat.lt_irrefl _ (heq ▸ h.fresh a ha)⟩
  fresh := fun a ha => by
    rcases List.mem_append.mp ha with hold | hnew
    · exact Nat.lt_succ_of_lt (h.fresh a hold)
    · rw [List.mem_singleton.mp hnew]
      exact Nat.lt_succ_self s.nextRecord
  senders := fun job hjob => Nat.lt_succ_of_lt (h.senders job hjob)
  jobs := fun job hjob huses => List.mem_append_left _ (hC job hjob huses)
  running := fun sender hsender => by
    obtain ⟨hconn, hcust⟩ := h.running sender hsender
    have hne : sender ≠ s.nextRecord := fun heq =>
      Nat.lt_irrefl _ (heq ▸ h.fresh sender hconn)
    refine ⟨List.mem_append_left _ hconn, fun cust hc => ?_⟩
    simp only [onAccept, Function.update_of_ne hne] at hc
    exact List.mem_append_left _ (hcust cust hc)

theorem inUse_error {s : WorkerPool} (h : s.InUse) {client : Addr}
    (hC : s.SparesUsed (.error client)) :
    InUse { s with server := bufferedOnError s.server client } := by
  have hmem : ∀ a, a ∈ (bufferedOnError s.server client).clientTailq ↔
      a ≠ client ∧ s.Connected a := fun a => h.nodup.mem_erase_iff
  refine ⟨h.nodup.erase client, fun a ha => h.fresh a ((hmem a).mp ha).2, h.senders,
    fun job hjob huses => (hmem job.1).mpr ⟨hC.1 job hjob huses, ?_⟩,
    fun sender hsender => ?_⟩
  · exact h.jobs job hjob (huses.mono List.erase_subset)
  · obtain ⟨hconn, hcust⟩ := h.running sender hsender
    obtain ⟨hne, hassigned⟩ := hC.2 sender hsender
    refine ⟨(hmem sender).mpr ⟨hne, hconn⟩, fun cust hc => ?_⟩
    refine (hmem cust).mpr ⟨?_, hcust cust hc⟩
    rintro rfl
    exact hassigned hc

theorem inUse_start {s s' : WorkerPool} (h : s.InUse) {job : Nat}
    (hstep : s.step (.start job) = some s') : s'.InUse := by
  cases hjob : s.jobs[job]? with
  | none => simp [step, hjob] at hstep
  | some entry =>
      obtain ⟨client, pkt⟩ := entry
      have huses := h.jobs (client, pkt) (List.mem_of_getElem? hjob)
      have hrest : ∀ other ∈ s.jobs.eraseIdx job, other ∈ s.jobs :=
        fun other => List.mem_of_mem_eraseIdx
      simp only [step, hjob] at hstep
      cases pkt with
      | regCustomer | other type =>
          cases hstep
          exact h.mono rfl rfl hrest (fun _ => id) (fun _ => .inl rfl)
      | regCook p =>
          cases hstep
          refine h.mono rfl rfl hrest (fun _ => id) (fun b => .inl ?_)
          by_cases hb : b = client
          · subst hb
            simp [regCookHandler]
          · simp [regCookHandler, Server.modify_heap_of_ne hb]
      | custOrder p =>
          simp only [startJob, handlerFuncDispatch, Option.map_eq_some_iff] at hstep
          obtain ⟨⟨sv, writes⟩, hhandler, rfl⟩ := hstep
          obtain ⟨hqueue, hassigned⟩ := custOrderHandler_assignedClient hhandler
          exact h.mono hqueue rfl hrest (fun _ => id) (fun b =>
            (hassigned b).imp_right fun hb => ⟨client, hb, huses trivial⟩)
      | cookUpdate p =>
          simp only [startJob, Option.some.injEq] at hstep
          subst hstep
          by_cases hexists : customerExists s.server client = true
          · obtain ⟨cust, hcust, hqueue⟩ := customerExists_eq_true.mp hexists
            simp only [hexists, if_true]
            refine ⟨h.nodup, h.fresh, fun other hother =>
              h.senders other (hrest other hother), fun other hother =>
              h.jobs other (hrest other hother), fun sender hsender => ?_⟩
            rcases List.mem_append.mp hsender with hold | hnew
            · exact h.running sender hold
            · rw [List.mem_singleton.mp hnew]
              refine ⟨huses (List.ne_nil_of_mem hqueue), fun cust' hcust' => ?_⟩
              rw [hcust, Option.some.injEq] at hcust'
              exact hcust' ▸ hqueue
          · simp only [hexists]
            exact h.mono rfl rfl hrest (fun _ => id) (fun _ => .inl rfl)

theorem inUse_step {s s' : WorkerPool} (h : s.InUse) {e : PoolEvent}
    (hC : s.SparesUsed e) (hstep : s.step e = some s') : s'.InUse := by
  cases e with
  | accept =>
      cases hstep
      exact inUse_accept h hC
  | read client pkt =>
      simp only [step, Option.ite_none_right_eq_some, Option.some.injEq] at hstep
      obtain ⟨hconn, rfl⟩ := hstep
      refine ⟨h.nodup, h.fresh, fun job hjob => ?_, fun job hjob huses => ?_,
        h.running⟩
      · rcases List.mem_append.mp hjob with hold | hnew
        · exact h.senders job hold
        · rw [List.mem_singleton.mp hnew]
          exact h.fresh client hconn
      · rcases List.mem_append.mp hjob with hold | hnew
        · exact h.jobs job hold huses
        · rw [List.mem_singleton.mp hnew]
          exact hconn
  | error client =>
      simp only [step, Option.ite_none_right_eq_some, Option.some.injEq] at hstep
      obtain ⟨hconn, rfl⟩ := hstep
      exact inUse_error h hC
  | start job => exact inUse_start h hstep
  | finish handler =>
      cases hsender : s.running[handler]? with
      | none => simp [step, hsender] at hstep
      | some client =>
          simp only [step, hsender, Option.some.injEq] at hstep
          subst hstep
          have hspec := finishUpdate_assignedClient s.server client
          exact h.mono (hspec client).1 rfl (fun _ => id)
            (fun sender => List.mem_of_mem_eraseIdx) (fun b => .inl (hspec b).2)

theorem not_workersSafe_of_job {s : WorkerPool} {job : Addr × Pkt}
    (hjob : job ∈ s.jobs) (huses : job.2.UsesSender s.server.clientTailq)
    (hgone : ¬ s.Connected job.1) : ¬ s.WorkersSafe := by
  obtain ⟨n, hn⟩ := List.mem_iff_getElem?.mp hjob
  refine fun hsafe => hgone (hsafe (.start n) job.1 ?_)
  simpa [touched, hn] using sender_mem_touchedByJob huses

theorem not_workersSafe_of_handler {s : WorkerPool} {sender a : Addr}
    (hsender : sender ∈ s.running) (ha : a ∈ s.touchedByHandler sender)
    (hgone : ¬ s.Connected a) : ¬ s.WorkersSafe := by
  obtain ⟨n, hn⟩ := List.mem_iff_getElem?.mp hsender
  refine fun hsafe => hgone (hsafe (.finish n) a ?_)
  simpa [touched, hn] using ha

theorem not_workersSafe_of_used {s s' : WorkerPool} (h : s.InUse)
    {e : PoolEvent} (hC : ¬ s.SparesUsed e) (hstep : s.step e = some s') :
    ¬ s'.WorkersSafe := by
  cases e with
  | accept =>
      cases hstep
      simp only [SparesUsed, not_forall] at hC
      obtain ⟨job, hjob, huses, hgone⟩ := hC
      refine not_workersSafe_of_job hjob huses fun hconn => ?_
      rcases List.mem_append.mp hconn with hold | hnew
      · exact hgone hold
      · exact Nat.ne_of_lt (h.senders job hjob) (List.mem_singleton.mp hnew)
  | error client =>
      simp only [step, Option.ite_none_right_eq_some, Option.some.injEq] at hstep
      obtain ⟨-, rfl⟩ := hstep
      have hgone : client ∉ (bufferedOnError s.server client).clientTailq :=
        fun hmem => (h.nodup.mem_erase_iff.mp hmem).1 rfl
      intro hsafe
      refine hC ⟨fun job hjob huses heq => ?_, fun sender hsender => ⟨?_, ?_⟩⟩
      · exact absurd hsafe (not_workersSafe_of_job hjob huses (heq ▸ hgone))
      · rintro rfl
        exact absurd hsafe
          (not_workersSafe_of_handler hsender List.mem_cons_self hgone)
      · intro hassigned
        refine absurd hsafe (not_workersSafe_of_handler hsender ?_ hgone)
        simp [touchedByHandler, bufferedOnError, hassigned]
  | read client pkt | start job | finish handler => exact absurd trivial hC

/--
In a run the workers can only touch records of connected clients exactly when
no client is removed, or added, while that makes a worker use a record that is
not in the queue.
-/
theorem workers_safe_iff {events : List PoolEvent} {s : WorkerPool}
    (hrun : run step initial events = some s) :
    AllStates step WorkersSafe initial events ↔
      AllSteps step SparesUsed initial events :=
  allStates_iff_allSteps (fun _ => workersSafe_of_inUse)
    (fun _ _ _ hs hC hstep => inUse_step hs hC hstep)
    (fun _ _ _ hs hC hstep => not_workersSafe_of_used hs hC hstep)
    initial_inUse hrun

def drainedRun : List PoolEvent :=
  [.accept, .read 0 (.regCook (.ofItems [1])), .start 0,
   .accept, .read 1 (.custOrder (.ofCodes [1])), .start 0,
   .read 0 (.cookUpdate ⟨[]⟩), .start 0, .finish 0, .error 1, .error 0]

theorem drainedRun_isSome : (run step initial drainedRun).isSome := by
  decide +kernel

theorem workers_safe_drainedRun : AllStates step WorkersSafe initial drainedRun :=
  (workers_safe_iff (Option.some_get drainedRun_isSome).symm).mpr
    (by decide +kernel)

def queuedJobRun : List PoolEvent :=
  [.accept, .read 0 (.regCook (.ofItems [1])), .error 0]

theorem queuedJobRun_isSome : (run step initial queuedJobRun).isSome := by
  decide +kernel

def searchedRun : List PoolEvent :=
  [.accept, .read 0 (.regCook (.ofItems [1])), .start 0,
   .accept, .read 1 (.custOrder (.ofCodes [1])), .start 0,
   .read 0 (.cookUpdate ⟨[]⟩), .start 0, .error 1]

theorem searchedRun_isSome : (run step initial searchedRun).isSome := by
  decide +kernel

theorem removed_records_touched :
    (∃ s, run step initial queuedJobRun = some s ∧
        (s.step (.start 0)).isSome ∧ ¬ s.WorkersSafe) ∧
      ∃ s, run step initial searchedRun = some s ∧
        (s.step (.finish 0)).isSome ∧ ¬ s.WorkersSafe := by
  constructor
  · refine ⟨_, (Option.some_get queuedJobRun_isSome).symm, by decide +kernel, ?_⟩
    exact fun h => absurd (h (.start 0) 0 (by decide +kernel)) (by decide +kernel)
  · refine ⟨_, (Option.some_get searchedRun_isSome).symm, by decide +kernel, ?_⟩
    exact fun h => absurd (h (.finish 0) 1 (by decide +kernel)) (by decide +kernel)

end WorkerPool

end SysprogTeam3.FoodSys
