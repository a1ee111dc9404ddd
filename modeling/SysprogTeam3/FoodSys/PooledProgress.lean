import SysprogTeam3.FoodSys.Indices
import SysprogTeam3.FoodSys.MissedItems
import SysprogTeam3.FoodSys.PooledServer
import SysprogTeam3.ThreadPool.WaitIdle

/-!
# Every packet that is read is handled

The pool of the server takes the steps that it takes on its own, except that a handler
can fault.  It does not while no client is removed whose record a worker still uses and
no order has a code of 25 or more, and the works that `buffered_on_read` adds are all done
in the end.
-/

namespace SysprogTeam3.FoodSys

open SysprogTeam3.Foundation
open scoped List

namespace PooledEvent

def poolEvent : PooledEvent → Option (ThreadPool.Event JobData)
  | .pool e => some e
  | _ => none

theorem eq_pool {e : PooledEvent} {e' : ThreadPool.Event JobData}
    (h : e.poolEvent = some e') : e = .pool e' := by
  cases e with
  | accept | read | error => cases h
  | pool e => rw [Option.some.inj h]

def packet : PooledEvent → Option JobData
  | .read client pkt => some (client, pkt)
  | _ => none

/-- A step of a worker, or of a callback that has begun. -/
def IsWork : PooledEvent → Prop
  | .pool (.addWork _ _ _) => True
  | .pool e => e.IsInternal
  | _ => False

end PooledEvent

namespace PooledServer

def poolActions (numThreads : Nat) (events : List PooledEvent) : List (WorkAction JobData) :=
  ThreadPool.Thpool.actionsOf numThreads 1 (events.filterMap PooledEvent.poolEvent)

def packetsRead (events : List PooledEvent) : List JobData :=
  events.filterMap PooledEvent.packet

/-- The packets for which a call of the handler was made and has returned. -/
def packetsHandled (numThreads : Nat) (events : List PooledEvent) : List JobData :=
  (poolActions numThreads events).filterMap WorkAction.finished

variable {s s' : PooledServer} {n numThreads : Nat} {events : List PooledEvent}

/-- A client is only removed when no packet of it waits or is in a handler, and no update
that has found its customer is its own or for it. -/
def SparesRecords (s : PooledServer) : PooledEvent → Prop
  | .error client =>
      (∀ work ∈ s.waiting ++ s.pool.runningWorks, work.1 ≠ client) ∧
        ∀ update ∈ s.running, update.2 ≠ client ∧
          (s.server.heap update.2).assignedClient ≠ some client
  | .accept | .read _ _ | .pool _ => True

instance (s : PooledServer) : DecidablePred s.SparesRecords
  | .error client => inferInstanceAs (Decidable
      ((∀ work ∈ s.waiting ++ s.pool.runningWorks, work.1 ≠ client) ∧
        ∀ update ∈ s.running, update.2 ≠ client ∧
          (s.server.heap update.2).assignedClient ≠ some client))
  | .accept | .read _ _ | .pool _ => isTrue trivial

/-! ## The pool's part of a run -/

theorem step_other {e : PooledEvent} (he : e.poolEvent = none) (hstep : s.step e = some s') :
    s'.pool = s.pool ∧ s'.reading.toList = s.reading.toList ++ e.packet.toList ∧
      (s'.data = s.data ∨ ∃ work ∈ e.packet, work.2 = s'.data) ∧
      (s.reading = none ∧ s.pool.initialised = true) := by
  cases e with
  | accept =>
      simp only [step, Option.ite_none_right_eq_some, Option.some.injEq] at hstep
      obtain ⟨⟨hready, -, hnone⟩, rfl⟩ := hstep
      exact ⟨rfl, by simp [PooledEvent.packet], .inl rfl, hnone, hready⟩
  | read client pkt =>
      simp only [step, Option.ite_none_right_eq_some, Option.some.injEq] at hstep
      obtain ⟨⟨⟨hready, -, hnone⟩, -⟩, rfl⟩ := hstep
      exact ⟨rfl, by simp [PooledEvent.packet, hnone], .inr ⟨(client, pkt), rfl, rfl⟩, hnone,
        hready⟩
  | error client =>
      simp only [step, Option.ite_none_right_eq_some, Option.some.injEq] at hstep
      obtain ⟨⟨⟨hready, -, hnone⟩, -⟩, rfl⟩ := hstep
      exact ⟨rfl, by simp [PooledEvent.packet], .inl rfl, hnone, hready⟩
  | pool e => cases he

theorem step_pool_data {e : ThreadPool.Event JobData} (hstep : s.step (.pool e) = some s') :
    s'.data = s.data := by
  obtain ⟨-, pool, -, hact⟩ := step_pool_eq_some.mp hstep
  exact (act_keeps hact).2.1

theorem pool_run (hrun : run step s events = some s') :
    run ThreadPool.Thpool.step s.pool (events.filterMap PooledEvent.poolEvent) =
      some s'.pool := by
  induction events generalizing s with
  | nil =>
      simp only [run_nil, Option.some.injEq] at hrun
      rw [hrun]
      rfl
  | cons e events ih =>
      obtain ⟨next, hnext, hrest⟩ := run_cons_eq_some.mp hrun
      have htail := ih hrest
      cases he : e.poolEvent with
      | none =>
          rw [List.filterMap_cons_none he, ← (step_other he hnext).1]
          exact htail
      | some e' =>
          obtain rfl := PooledEvent.eq_pool he
          exact run_cons_eq_some.mpr ⟨next.pool, pool_step hnext, htail⟩

theorem pool_run_initial (hrun : run step (initial numThreads) events = some s) :
    run ThreadPool.Thpool.step (ThreadPool.Thpool.init numThreads 1)
      (events.filterMap PooledEvent.poolEvent) = some s.pool := pool_run hrun

theorem read_eq_added (hrun : run step s events = some s') :
    s.reading.toList ++ packetsRead events =
      (observed ThreadPool.Thpool.step ThreadPool.Thpool.actions s.pool
        (events.filterMap PooledEvent.poolEvent)).filterMap WorkAction.added ++
        s'.reading.toList := by
  induction events generalizing s with
  | nil =>
      simp only [run_nil, Option.some.injEq] at hrun
      simp [packetsRead, hrun]
  | cons e events ih =>
      obtain ⟨next, hnext, hrest⟩ := run_cons_eq_some.mp hrun
      have htail := ih hrest
      cases he : e.poolEvent with
      | none =>
          obtain ⟨hpool, hreading, -⟩ := step_other he hnext
          rw [List.filterMap_cons_none he, ← hpool, ← htail, hreading, packetsRead, packetsRead]
          cases hpacket : e.packet with
          | none => simp [List.filterMap_cons_none hpacket]
          | some work => simp [List.filterMap_cons_some hpacket]
      | some e' =>
          obtain rfl := PooledEvent.eq_pool he
          obtain ⟨-, pool, -, hact⟩ := step_pool_eq_some.mp hnext
          have hreading := (act_keeps hact).2.2
          change s.reading.toList = _ at hreading
          rw [List.filterMap_cons_some he, observed_cons (pool_step hnext),
            List.filterMap_append, List.append_assoc, ← htail, ← List.append_assoc, ← hreading]
          rfl

theorem packetsRead_work (h : ∀ e ∈ events, e.IsWork) : packetsRead events = [] := by
  refine List.filterMap_eq_nil_iff.mpr fun e he => ?_
  cases e with
  | pool e => rfl
  | accept | read | error => exact (h _ he).elim

/-! ## The pool of the server -/

/-- `server.c` never stops its workers, and `thpool_init` has returned when it reads. -/
structure KeptAlive (s : PooledServer) : Prop where
  inv : s.pool.Inv
  waits : s.pool.WaitsForWork
  keepalive : s.pool.threadsKeepalive = true
  threads : 0 < s.pool.threads.length
  callers : 0 < s.pool.callers.length
  ready : s.reading.isSome → s.pool.initialised = true

theorem initial_keptAlive (numThreads : Nat) : (initial (numThreads + 1)).KeptAlive where
  inv := ThreadPool.Thpool.inv_init _ _
  waits := ThreadPool.Thpool.waitsForWork_init _ _
  keepalive := rfl
  threads := by simp [initial, ThreadPool.Thpool.init]
  callers := by simp [initial, ThreadPool.Thpool.init]
  ready := by simp [initial]

theorem KeptAlive.step_pool (h : s.KeptAlive) {e : ThreadPool.Event JobData}
    (hstep : s.step (.pool e) = some s') : s'.KeptAlive := by
  have hpool := pool_step hstep
  obtain ⟨hcalled, pool, -, hact⟩ := step_pool_eq_some.mp hstep
  obtain ⟨hkeeps, halive⟩ := ThreadPool.Thpool.keeps_of_step hpool
  have halone : s.pool.WaitsAlone e := by
    cases e with
    | wait caller => cases hcalled
    | _ => trivial
  have hkept : e.IsStop = false := by
    cases e with
    | stop => cases hcalled
    | _ => rfl
  have hreading : s.reading.toList = _ := (act_keeps hact).2.2
  refine
    { inv := h.inv.step hpool
      waits := h.waits.step h.inv halone hpool
      keepalive := by rw [halive hkept, h.keepalive]
      threads := by rw [hkeeps.threads]; exact h.threads
      callers := by rw [hkeeps.callers]; exact h.callers
      ready := fun hsome => hkeeps.initialised (h.ready ?_) }
  obtain ⟨work, hwork⟩ := Option.isSome_iff_exists.mp hsome
  cases hnone : s.reading with
  | none => simp [hnone, hwork] at hreading
  | some => rfl

theorem KeptAlive.step (h : s.KeptAlive) {e : PooledEvent} (hstep : s.step e = some s') :
    s'.KeptAlive := by
  cases he : e.poolEvent with
  | none =>
      obtain ⟨hpool, -, -, -, hready⟩ := step_other he hstep
      exact
        { inv := hpool ▸ h.inv
          waits := hpool ▸ h.waits
          keepalive := hpool ▸ h.keepalive
          threads := hpool ▸ h.threads
          callers := hpool ▸ h.callers
          ready := fun _ => hpool ▸ hready }
  | some e' =>
      obtain rfl := PooledEvent.eq_pool he
      exact h.step_pool hstep

/-- A bound on the steps that the threads of the server take before it reads again. -/
def workLeft (s : PooledServer) : Nat := 23 * s.reading.toList.length + s.pool.measure

theorem workLeft_step (h : s.KeptAlive) {e : PooledEvent} (hwork : e.IsWork)
    (hstep : s.step e = some s') : s'.workLeft < s.workLeft := by
  cases e with
  | accept | read | error => exact hwork.elim
  | pool e =>
      have hpool := pool_step hstep
      obtain ⟨-, pool, -, hact⟩ := step_pool_eq_some.mp hstep
      have hreading : s.reading.toList = _ := (act_keeps hact).2.2
      have hinternal : e.IsInternal → s'.workLeft < s.workLeft := by
        intro he
        have hmeasure := ThreadPool.Thpool.measure_step h.inv he hpool
        rw [ThreadPool.Thpool.added_internal he, List.nil_append] at hreading
        rw [workLeft, workLeft, hreading]
        omega
      cases e with
      | addWork caller newjob work =>
          obtain ⟨jobs, howns⟩ := h.inv.owns
          have hmeasure := ThreadPool.Thpool.measure_addWork howns hpool
          have hlength := congrArg List.length hreading
          simp only [ThreadPool.Thpool.actions, List.filterMap_cons, WorkAction.added,
            List.filterMap_nil, List.length_append, List.length_singleton] at hlength
          unfold workLeft
          omega
      | _ => exact hinternal hwork

/-! ## The records that the workers use -/

/-- The records of the waiting packets' senders, and those of the updates that have found
their customer and of the customers, are in the queue. -/
structure RecordsInUse (s : PooledServer) : Prop where
  nodup : s.server.clientTailq.Nodup
  fresh : ∀ a ∈ s.server.clientTailq, a < s.nextRecord
  waiting : ∀ work ∈ s.waiting, work.1 ∈ s.server.clientTailq
  running : ∀ update ∈ s.running, update.2 ∈ s.server.clientTailq ∧
    ∀ cust, (s.server.heap update.2).assignedClient = some cust → cust ∈ s.server.clientTailq

def asWorkers (s : PooledServer) : WorkerPool :=
  { server := s.server
    jobs := s.waiting.map fun work => (work.1, s.data)
    running := s.running.map Prod.snd
    nextRecord := s.nextRecord }

namespace RecordsInUse

theorem inUse (h : s.RecordsInUse) : s.asWorkers.InUse where
  nodup := h.nodup
  fresh := h.fresh
  senders := fun job hjob => by
    obtain ⟨work, hwork, rfl⟩ := List.mem_map.mp hjob
    exact h.fresh _ (h.waiting work hwork)
  jobs := fun job hjob _ => by
    obtain ⟨work, hwork, rfl⟩ := List.mem_map.mp hjob
    exact h.waiting work hwork
  running := fun sender hsender => by
    obtain ⟨update, hupdate, rfl⟩ := List.mem_map.mp hsender
    exact h.running update hupdate

theorem of_inUse {w : WorkerPool} (h : w.InUse) (hserver : w.server = s.server)
    (hnext : w.nextRecord = s.nextRecord) (hrunning : w.running = s.running.map Prod.snd)
    (hwaiting : ∀ work ∈ s.waiting, work.1 ∈ s.server.clientTailq) : s.RecordsInUse where
  nodup := hserver ▸ h.nodup
  fresh := fun a ha => hnext ▸ h.fresh a (by rwa [WorkerPool.Connected, hserver])
  waiting := hwaiting
  running := fun update hupdate => by
    have hmem : update.2 ∈ w.running := hrunning ▸ List.mem_map_of_mem hupdate
    simpa only [WorkerPool.Connected, hserver] using h.running update.2 hmem

theorem accept (h : s.RecordsInUse) (hstep : s.step .accept = some s') : s'.RecordsInUse := by
  simp only [PooledServer.step, Option.ite_none_right_eq_some, Option.some.injEq] at hstep
  obtain ⟨-, rfl⟩ := hstep
  have hspares : s.asWorkers.SparesUsed .accept := by
    intro job hjob _
    obtain ⟨work, hwork, rfl⟩ := List.mem_map.mp hjob
    exact h.waiting work hwork
  exact of_inUse (WorkerPool.inUse_accept h.inUse hspares) rfl rfl rfl
    fun work hwork => List.mem_append_left _ (h.waiting work hwork)

theorem read (h : s.RecordsInUse) {client : Addr} {pkt : Pkt}
    (hstep : s.step (.read client pkt) = some s') : s'.RecordsInUse := by
  simp only [PooledServer.step, Option.ite_none_right_eq_some, Option.some.injEq] at hstep
  obtain ⟨⟨-, hconn⟩, rfl⟩ := hstep
  refine ⟨h.nodup, h.fresh, fun work hwork => ?_, h.running⟩
  rcases List.mem_append.mp hwork with hold | hnew
  · exact h.waiting work (List.mem_append_left _ hold)
  · rw [List.mem_singleton.mp hnew]
    exact hconn

theorem error (h : s.RecordsInUse) {client : Addr} (hspares : s.SparesRecords (.error client))
    (hstep : s.step (.error client) = some s') : s'.RecordsInUse := by
  simp only [PooledServer.step, Option.ite_none_right_eq_some, Option.some.injEq] at hstep
  obtain ⟨-, rfl⟩ := hstep
  obtain ⟨hwaiting, hrunning⟩ := hspares
  have hwait : ∀ work ∈ s.waiting, work.1 ≠ client := fun work hwork =>
    hwaiting work (List.mem_append_left _ hwork)
  have hworkers : s.asWorkers.SparesUsed (.error client) := by
    refine ⟨fun job hjob _ => ?_, fun sender hsender => ?_⟩
    · obtain ⟨work, hwork, rfl⟩ := List.mem_map.mp hjob
      exact hwait work hwork
    · obtain ⟨update, hupdate, rfl⟩ := List.mem_map.mp hsender
      exact hrunning update hupdate
  exact of_inUse (WorkerPool.inUse_error h.inUse hworkers) rfl rfl rfl
    fun work hwork => h.nodup.mem_erase_iff.mpr ⟨hwait work hwork, h.waiting work hwork⟩

theorem call (h : s.RecordsInUse) {pool : ThreadPool.Thpool JobData} {work : JobData}
    (hwork : work ∈ s.waiting)
    (hcall : PooledServer.call { s with pool := pool } n work.1 s.data = some s')
    (hwaiting : ∀ other ∈ s'.waiting, other ∈ s.waiting) : s'.RecordsInUse := by
  obtain ⟨job, hjob⟩ : ∃ job, s.asWorkers.jobs[job]? = some (work.1, s.data) :=
    List.mem_iff_getElem?.mp (List.mem_map.mpr ⟨work, hwork, rfl⟩)
  obtain ⟨w', hstep, hserver, hnext, hrunning⟩ : ∃ w', s.asWorkers.step (.start job) = some w' ∧
      w'.server = s'.server ∧ w'.nextRecord = s'.nextRecord ∧
      w'.running = s'.running.map Prod.snd := by
    simp only [WorkerPool.step, hjob]
    have hown : PooledServer.call { s with pool := pool } n (work.1, s.data).1
        (work.1, s.data).2 = some s' := hcall
    obtain ⟨w', hstart, hserver, hnext, hrunning, -⟩ :=
      call_matches (w := s.asWorkers) rfl rfl rfl hown
    exact ⟨w', hstart, hserver, hnext, hrunning⟩
  have hinUse : w'.InUse := WorkerPool.inUse_step (e := .start job) h.inUse trivial hstep
  refine of_inUse hinUse hserver hnext hrunning fun other hother => ?_
  rw [call_clientTailq hcall]
  exact h.waiting other (hwaiting other hother)

theorem finish (h : s.RecordsInUse) {pool : ThreadPool.Thpool JobData}
    (hwaiting : ∀ other ∈ (PooledServer.finish { s with pool := pool } n).waiting,
      other ∈ s.waiting) :
    (PooledServer.finish { s with pool := pool } n).RecordsInUse := by
  have hplace : updateOf { s with pool := pool } n = s.updateOf n := rfl
  cases hupdate : s.updateOf n with
  | none =>
      rw [PooledServer.finish, hplace, hupdate] at hwaiting ⊢
      exact ⟨h.nodup, h.fresh, fun other hother => h.waiting other (hwaiting other hother),
        h.running⟩
  | some update =>
      obtain ⟨handler, client⟩ := update
      rw [PooledServer.finish, hplace, hupdate] at hwaiting ⊢
      have hstep : s.asWorkers.step (.finish handler) =
          some { s.asWorkers with
            server := (finishUpdate s.server client).1
            running := s.asWorkers.running.eraseIdx handler } := by
        have hsender : s.asWorkers.running[handler]? = some client := updateOf_eq_some hupdate
        simp only [WorkerPool.step, hsender]
        rfl
      have hinUse := WorkerPool.inUse_step (e := .finish handler) h.inUse trivial hstep
      refine of_inUse hinUse rfl rfl (List.eraseIdx_map _ _ _) fun other hother => ?_
      rw [(finishUpdate_assignedClient s.server client client).1]
      exact h.waiting other (hwaiting other hother)

theorem pool {jobs : List ThreadPool.Addr} (h : s.RecordsInUse) (howns : s.pool.Owns jobs)
    {e : ThreadPool.Event JobData} (hstep : s.step (.pool e) = some s') : s'.RecordsInUse := by
  have hperm := (waiting_step howns hstep).2
  have hkept : ∀ work ∈ s'.waiting, work ∈ s.waiting := fun work hwork =>
    hperm.mem_iff.mp (List.mem_append_right _ hwork)
  obtain ⟨-, pool, -, hact⟩ := step_pool_eq_some.mp hstep
  have hsame : s'.server = s.server → s'.running = s.running →
      s'.nextRecord = s.nextRecord → s'.RecordsInUse := by
    intro hserver hrunning hnext
    refine ⟨hserver ▸ h.nodup, hserver ▸ hnext ▸ h.fresh, fun work hwork => ?_, ?_⟩
    · rw [hserver]
      exact h.waiting work (hkept work hwork)
    · rw [hserver, hrunning]
      exact h.running
  rcases actions_cases s.pool e with
    (hnone | ⟨n, work, htake⟩) | ⟨caller, newjob, work, rfl⟩ | ⟨n, woken, work, rfl, hcall⟩ |
      ⟨n, woken, work, rfl, hfinish⟩
  · rw [hnone] at hact
    obtain rfl := Option.some.inj hact
    exact hsame rfl rfl rfl
  · rw [htake] at hact
    obtain rfl := Option.some.inj hact
    exact hsame rfl rfl rfl
  · have hadd : s.pool.actions (.addWork caller newjob work) = [.add work] := rfl
    rw [hadd] at hact
    simp only [act, Option.ite_none_right_eq_some, Option.some.injEq] at hact
    obtain ⟨-, rfl⟩ := hact
    exact hsame rfl rfl rfl
  · rw [hcall] at hact hperm
    exact h.call (hperm.mem_iff.mp List.mem_cons_self) hact hkept
  · rw [hfinish] at hact
    obtain rfl := Option.some.inj hact
    exact h.finish hkept

end RecordsInUse

theorem newSmall_act {actions : List (WorkAction JobData)} (h : s.server.NewSmall)
    (hdata : s.data.fits) (hact : s.act actions = some s') : s'.server.NewSmall := by
  unfold act at hact
  split at hact
  · simp only [Option.ite_none_right_eq_some, Option.some.injEq] at hact
    exact hact.2 ▸ h
  · next n work =>
      cases hpkt : s.data with
      | cookUpdate m =>
          rw [hpkt] at hact
          simp only [call, Option.some.injEq] at hact
          rw [← hact]
          split <;> exact h
      | regCook | regCustomer | custOrder | other =>
          rw [hpkt] at hact hdata
          simp only [call, Option.map_eq_some_iff] at hact
          obtain ⟨result, hresult, rfl⟩ := hact
          exact h.dispatch hdata hresult
  · simp only [Option.some.injEq] at hact
    rw [← hact]
    unfold finish
    split
    · exact h
    · exact h.finishUpdate _
  · simp only [Option.some.injEq] at hact
    exact hact ▸ h

structure Sound (s : PooledServer) : Prop extends s.KeptAlive, s.RecordsInUse where
  newSmall : s.server.NewSmall
  data : s.data.fits

theorem initial_sound (numThreads : Nat) : (initial (numThreads + 1)).Sound where
  toKeptAlive := initial_keptAlive numThreads
  nodup := .nil
  fresh := by simp [initial, WorkerPool.initial]
  waiting := by simp [initial_waiting]
  running := by simp [initial]
  newSmall := fun _ _ hi => by cases hi
  data := trivial

theorem Sound.step (h : s.Sound) {e : PooledEvent} (hspares : s.SparesRecords e)
    (hfits : ∀ work ∈ e.packet, work.2.fits) (hstep : s.step e = some s') : s'.Sound := by
  have hkept := h.toKeptAlive.step hstep
  cases e with
  | accept =>
      have hrecords := h.toRecordsInUse.accept hstep
      simp only [PooledServer.step, Option.ite_none_right_eq_some, Option.some.injEq] at hstep
      obtain ⟨-, rfl⟩ := hstep
      refine ⟨hkept, hrecords, fun a i hi => ?_, h.data⟩
      by_cases ha : a = s.nextRecord
      · subst ha
        simp [onAccept, Client.zeroed] at hi
      · exact h.newSmall a i (by simpa [onAccept, ha] using hi)
  | read client pkt =>
      have hrecords := h.toRecordsInUse.read hstep
      simp only [PooledServer.step, Option.ite_none_right_eq_some, Option.some.injEq] at hstep
      obtain ⟨-, rfl⟩ := hstep
      exact ⟨hkept, hrecords, h.newSmall, hfits _ rfl⟩
  | error client =>
      have hrecords := h.toRecordsInUse.error hspares hstep
      simp only [PooledServer.step, Option.ite_none_right_eq_some, Option.some.injEq] at hstep
      obtain ⟨-, rfl⟩ := hstep
      exact ⟨hkept, hrecords, h.newSmall, h.data⟩
  | pool e =>
      obtain ⟨jobs, howns⟩ := h.inv.owns
      refine ⟨hkept, h.toRecordsInUse.pool howns hstep, ?_, ?_⟩
      · obtain ⟨-, pool, -, hact⟩ := step_pool_eq_some.mp hstep
        exact newSmall_act (s := { s with pool := pool }) h.newSmall h.data hact
      · rw [step_pool_data hstep]
        exact h.data

/-! ## When no step is left -/

theorem call_isSome (s : PooledServer) (n : Nat) (client : Addr) {pkt : Pkt}
    (h : pkt.inRange) : (s.call n client pkt).isSome := by
  cases pkt with
  | regCook | regCustomer | cookUpdate | other => rfl
  | custOrder p =>
      have hinside : ¬ NamesOutside s.server client (.custOrder p) := by
        rintro ⟨-, code, hcode, hge⟩
        exact absurd (h code hcode) (by omega)
      obtain ⟨result, hresult⟩ :=
        Option.ne_none_iff_exists'.mp (custOrderHandler_ne_none hinside)
      simp [call, handlerFuncDispatch, hresult]

theorem call_isSome_congr {pool : ThreadPool.Thpool JobData} {client : Addr} {pkt : Pkt}
    (h : (s.call n client pkt).isSome) : (call { s with pool := pool } n client pkt).isSome := by
  cases pkt with
  | cookUpdate p => rfl
  | _ => simpa [call] using h

theorem pool_quiescent (h : s.KeptAlive)
    (hcalls : ∀ n, ∀ work ∈ s.waiting, (s.call n work.1 s.data).isSome)
    (hquiet : Quiescent step PooledEvent.IsWork s) :
    Quiescent ThreadPool.Thpool.step ThreadPool.Event.IsInternal s.pool := by
  intro e he
  by_contra hpossible
  obtain ⟨pool, hpool⟩ := Option.ne_none_iff_exists'.mp hpossible
  obtain ⟨jobs, howns⟩ := h.inv.owns
  have hcalled : calledByServer e = true := by
    cases e with
    | wait | stop | postAll => exact he.elim
    | _ => rfl
  have hact : ∃ s', act { s with pool := pool } (s.pool.actions e) = some s' := by
    rcases actions_cases s.pool e with
      (hnone | ⟨n, work, htake⟩) | ⟨caller, newjob, work, rfl⟩ | ⟨n, woken, work, rfl, hcall⟩ |
        ⟨n, woken, work, rfl, hfinish⟩
    · exact ⟨_, by rw [hnone]; rfl⟩
    · exact ⟨_, by rw [htake]; rfl⟩
    · exact he.elim
    · have hworks := (waitingWorks_step howns hpool).2
      rw [hcall] at hworks ⊢
      have hmem : work ∈ waitingWorks s.pool := by
        simpa [WorkAction.added] using
          hworks.mem_iff.mp (List.mem_append_left _ (List.mem_singleton_self work))
      exact Option.isSome_iff_exists.mp
        (call_isSome_congr (hcalls n work (List.mem_append_left _ hmem)))
    · exact ⟨_, by rw [hfinish]; rfl⟩
  obtain ⟨s', hs'⟩ := hact
  have hwork : PooledEvent.IsWork (.pool e) := by
    cases e with
    | addWork => trivial
    | _ => exact he
  exact absurd (hquiet (.pool e) hwork)
    (Option.ne_none_iff_exists'.mpr ⟨s', step_pool_eq_some.mpr ⟨hcalled, pool, hpool, hs'⟩⟩)

theorem KeptAlive.loop_of_quiescent (h : s.KeptAlive)
    (hpool : Quiescent ThreadPool.Thpool.step ThreadPool.Event.IsInternal s.pool)
    (hquiet : Quiescent PooledServer.step PooledEvent.IsWork s) :
    s.pool.callers[0]? = some .idle ∧ s.reading = none := by
  have hcaller : s.pool.callers[0]? = some .idle := by
    have hidle := ThreadPool.Thpool.not_waiting_of_quiescent h.waits h.inv hpool h.keepalive
      (List.ne_nil_of_length_pos h.threads)
    rw [List.getElem?_eq_getElem h.callers]
    exact congrArg some (hidle _ (List.getElem_mem _))
  refine ⟨hcaller, ?_⟩
  cases hreading : s.reading with
  | none => rfl
  | some work =>
      -- the work could be added
      obtain ⟨newjob, pool, hadd⟩ := ThreadPool.Thpool.addWork_can_step h.inv
        (h.ready (by rw [hreading]; rfl)) hcaller
        (ThreadPool.Thpool.unlocked_of_quiescent h.inv hpool) work
      have hstep : s.step (.pool (.addWork 0 newjob work)) =
          some { s with pool := pool, reading := none } :=
        step_pool_eq_some.mpr ⟨rfl, pool, hadd, if_pos hreading⟩
      exact absurd (hquiet (.pool (.addWork 0 newjob work)) trivial) (by simp [hstep])

/-! ## Main result -/

theorem sound_of_run (hspares : AllSteps step SparesRecords s events)
    (hfits : ∀ work ∈ packetsRead events, work.2.fits) (h : s.Sound)
    (hrun : run step s events = some s') : s'.Sound := by
  induction events generalizing s with
  | nil =>
      simp only [run_nil, Option.some.injEq] at hrun
      exact hrun ▸ h
  | cons e events ih =>
      obtain ⟨next, hnext, hrest⟩ := run_cons_eq_some.mp hrun
      have hread : ∀ work ∈ e.packet, work.2.fits := fun work hwork =>
        hfits work (List.mem_filterMap.mpr ⟨e, List.mem_cons_self, hwork⟩)
      have hlater : packetsRead events ⊆ packetsRead (e :: events) :=
        (List.sublist_cons_self e events).filterMap _ |>.subset
      exact ih (hspares.2 next hnext) (fun work hwork => hfits work (hlater hwork))
        (h.step hspares.1 hread hnext) hrest

theorem Sound.work (h : s.Sound) {e : PooledEvent} (hwork : e.IsWork)
    (hstep : s.step e = some s') : s'.Sound := by
  cases e with
  | accept | read | error => exact hwork.elim
  | pool e =>
      exact h.step (e := .pool e) trivial (by simp [PooledEvent.packet]) hstep

/--
In every run in which no order has a code of 25 or more and no client is removed while a
packet of it waits or is handled, or an update is done that found it: the workers use no
record that has been freed, and the numbers of the missed items fit into
`missed_orders[64]`.  The steps that the workers take next, and the event loop until it
has added its work, are bounded in number whatever their order.  When none is possible any
more, one call of the handler has returned for every packet that was read.
-/
theorem packets_all_handled
    (hrun : run step (initial (numThreads + 1)) events = some s)
    (hspares : AllSteps step SparesRecords (initial (numThreads + 1)) events)
    (hfits : ∀ work ∈ packetsRead events, work.2.fits) :
    (s.RecordsInUse ∧ ∀ a, (missedOrders (s.server.heap a)).length < 64) ∧
    (∀ more s', (∀ e ∈ more, e.IsWork) → run step s more = some s' →
      more.length ≤ s.workLeft ∧
        (Quiescent step PooledEvent.IsWork s' →
          packetsHandled (numThreads + 1) (events ++ more) ~ packetsRead events)) ∧
    ∃ more s', (∀ e ∈ more, e.IsWork) ∧ run step s more = some s' ∧
      Quiescent step PooledEvent.IsWork s' := by
  have hkept : ∀ (t : PooledServer) (e : PooledEvent) t', t.Sound → e.IsWork →
      t.step e = some t' → t'.Sound := fun t e t' h he hstep => h.work he hstep
  have hless : ∀ (t : PooledServer) (e : PooledEvent) t', t.Sound → e.IsWork →
      t.step e = some t' → t'.workLeft < t.workLeft := fun t e t' h he hstep =>
    workLeft_step h.toKeptAlive he hstep
  have hstart := sound_of_run hspares hfits (initial_sound numThreads) hrun
  refine ⟨⟨hstart.toRecordsInUse, fun a => missedOrders_fits (hstart.newSmall a)⟩,
    fun more s' hwork hmore => ⟨?_, fun hquiet => ?_⟩, exists_run_quiescent hkept hless hstart⟩
  · have hlength := length_add_measure_le hkept hless hstart hwork hmore
    omega
  · have hall : run step (initial (numThreads + 1)) (events ++ more) = some s' :=
      run_append_eq_some.mpr ⟨s, hrun, hmore⟩
    have hread : packetsRead (events ++ more) = packetsRead events := by
      rw [packetsRead, List.filterMap_append]
      exact (congrArg _ (packetsRead_work hwork)).trans (List.append_nil _)
    have hend : s'.Sound := run_invariant hkept hstart (AllSteps.of_mem hwork) hmore
    have hpool := pool_quiescent hend.toKeptAlive
      (fun n work _ => call_isSome s' n work.1 hend.data.inRange) hquiet
    have hnone := (hend.toKeptAlive.loop_of_quiescent hpool hquiet).2
    have hadded := read_eq_added hall
    rw [hread, hnone, Option.toList_none, List.append_nil] at hadded
    change packetsRead events = _ at hadded
    rw [hadded]
    exact ThreadPool.Thpool.all_finished_at_rest (pool_run_initial hall) (by simp)
      hend.keepalive hpool

def otherLeavesRun : List PooledEvent := .flatten
  [[.pool (.thread 0 0), .pool .initialised, .accept, .accept, .pool (.thread 0 0),
    .read 0 (.regCook (.ofItems [1])),
    .pool (.addWork 0 7 (0, .regCook (.ofItems [1]))), .pool (.post 0 0), .error 1],
   .replicate 5 (.pool (.thread 0 0))]

set_option maxRecDepth 4000 in
theorem packets_all_handled_otherLeavesRun :
    ∃ s, run step (initial 1) otherLeavesRun = some s ∧ s.RecordsInUse ∧
      ∃ more s', (∀ e ∈ more, PooledEvent.IsWork e) ∧ run step s more = some s' ∧
        packetsHandled 1 (otherLeavesRun ++ more) ~ [(0, .regCook (.ofItems [1]))] := by
  obtain ⟨s, hs⟩ := Option.isSome_iff_exists.mp (by decide :
    (run step (initial 1) otherLeavesRun).isSome)
  obtain ⟨⟨hrecords, -⟩, hbounded, more, s', hwork, hmore, hquiet⟩ :=
    packets_all_handled hs (by decide) (by decide)
  exact ⟨s, hs, hrecords, more, s', hwork, hmore, (hbounded more s' hwork hmore).2 hquiet⟩

end PooledServer

end SysprogTeam3.FoodSys
