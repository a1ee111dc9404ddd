import SysprogTeam3.Foundation.Simulation
import SysprogTeam3.Foundation.Threads
import SysprogTeam3.FoodSys.OpenServer
import SysprogTeam3.FoodSys.WorkerRaces

/-!
# Handlers that take effect at once

`cook_update_handler` gives the lock back between its search and its writes, and other
workers run in between.  While nobody leaves whose record is still used, the search has
the same result when it is made again at the end, so that all of the handler could as
well have run there.

The steps are those of `WorkerPool`: a registration, an order, and what follows the
search of an update are one step each, and no record's address is used again.
-/

namespace SysprogTeam3.FoodSys

open SysprogTeam3.Foundation

/-- What the world sees of a step of the server. -/
inductive ServerAction where
  | accepted (client : Addr)
  | closed (client : Addr)
  | read (client : Addr) (pkt : Pkt)
  | wrote (writes : List Write)
  deriving DecidableEq

def ServerAction.writes : ServerAction → List Write
  | .wrote writes => writes
  | _ => []

def startWrites (sv : Server) (client : Addr) : Pkt → List Write
  | .cookUpdate _ => []
  | pkt => ((handlerFuncDispatch sv client pkt).map Prod.snd).getD []

namespace WorkerPool

def actions (s : WorkerPool) : PoolEvent → List ServerAction
  | .accept => [.accepted s.nextRecord]
  | .read client pkt => [.read client pkt]
  | .error client => [.closed client]
  | .start job =>
      match s.jobs[job]? with
      | none => []
      | some (client, pkt) => [.wrote (startWrites s.server client pkt)]
  | .finish handler =>
      match s.running[handler]? with
      | none => []
      | some client => [.wrote (finishUpdate s.server client).2]

def writes (s : WorkerPool) (e : PoolEvent) : List Write :=
  (s.actions e).flatMap ServerAction.writes

def findsCustomer (s : WorkerPool) (client : Addr) : Pkt → Bool
  | .cookUpdate _ => customerExists s.server client
  | _ => false

/-- What takes effect at a step, as arrivals at a server that handles whole packets: a
packet when it is called, and an update that has found its customer when it is done, by
when its text is gone.  Nothing comes of the packets of clients that have left, nor of
orders that are refused before their codes are looked at. -/
def arrivals (s : WorkerPool) : PoolEvent → List Arrival
  | .accept => [.accept s.nextRecord]
  | .read _ _ => []
  | .error client => [.disconnect client]
  | .start job =>
      match s.jobs[job]? with
      | none => []
      | some (client, pkt) =>
          if s.Connected client ∧ pkt.inRange ∧ s.findsCustomer client pkt = false then
            [.packet client pkt]
          else []
  | .finish handler =>
      match s.running[handler]? with
      | none => []
      | some client => [.packet client (.cookUpdate ⟨[]⟩)]

/-! ## What a step does -/

/-- A step from a state in which the records in use are those of connected clients,
with what the world sees of it. -/
inductive Transition (s : WorkerPool) : PoolEvent → List ServerAction → WorkerPool → Prop
  | accept :
      Transition s .accept [.accepted s.nextRecord]
        { s with
          server := onAccept s.server s.nextRecord
          nextRecord := s.nextRecord + 1 }
  | read {client : Addr} {pkt : Pkt} (hconn : s.Connected client) :
      Transition s (.read client pkt) [.read client pkt]
        { s with jobs := s.jobs ++ [(client, pkt)] }
  | error {client : Addr} (hconn : s.Connected client) :
      Transition s (.error client) [.closed client]
        { s with server := bufferedOnError s.server client }
  /-- An update has found its customer, and is not done. -/
  | found {job : Nat} {client : Addr} {m : CookUpdatePkt}
      (hjob : s.jobs[job]? = some (client, .cookUpdate m)) (hconn : s.Connected client)
      (hfinds : s.findsCustomer client (.cookUpdate m) = true) :
      Transition s (.start job) [.wrote []]
        { s with jobs := s.jobs.eraseIdx job, running := s.running ++ [client] }
  /-- The handler has run to its end. -/
  | handled {job : Nat} {client : Addr} {pkt : Pkt} {result : Server × List Write}
      (hjob : s.jobs[job]? = some (client, pkt)) (hconn : s.Connected client)
      (hfinds : s.findsCustomer client pkt = false)
      (hresult : handlerFuncDispatch s.server client pkt = some result) :
      Transition s (.start job) [.wrote result.2]
        { s with server := result.1, jobs := s.jobs.eraseIdx job }
  /-- The packet of a client that has left does nothing. -/
  | left {job : Nat} {client : Addr} {pkt : Pkt}
      (hjob : s.jobs[job]? = some (client, pkt)) (hgone : ¬ s.Connected client) :
      Transition s (.start job) [.wrote []] { s with jobs := s.jobs.eraseIdx job }
  | finish {handler : Nat} {client : Addr} {result : Server × List Write}
      (hsender : s.running[handler]? = some client) (hconn : s.Connected client)
      (hresult : ∀ m, handlerFuncDispatch s.server client (.cookUpdate m) = some result) :
      Transition s (.finish handler) [.wrote result.2]
        { s with server := result.1, running := s.running.eraseIdx handler }

variable {s s' : WorkerPool}

theorem finishUpdate_eq_handler {sv : Server} {client : Addr}
    (hcust : ∀ cust, (sv.heap client).assignedClient = some cust → cust ∈ sv.clientTailq) :
    cookUpdateHandler sv client = finishUpdate sv client := by
  cases hassigned : (sv.heap client).assignedClient with
  | none => simp [cookUpdateHandler, customerExists, finishUpdate, hassigned]
  | some cust =>
      have hexists : customerExists sv client = true :=
        customerExists_eq_true.mpr ⟨cust, hassigned, hcust cust hassigned⟩
      rw [cookUpdateHandler, if_pos hexists]

theorem transition_start (h : s.InUse) {job : Nat} {client : Addr} {pkt : Pkt}
    (hjob : s.jobs[job]? = some (client, pkt))
    (hstart : startJob { s with jobs := s.jobs.eraseIdx job } client pkt = some s') :
    s.Transition (.start job) [.wrote (startWrites s.server client pkt)] s' := by
  have huses := h.jobs (client, pkt) (List.mem_of_getElem? hjob)
  have hdispatch : ∀ result, handlerFuncDispatch s.server client pkt = some result →
      startWrites s.server client pkt = result.2 →
      s' = { s with server := result.1, jobs := s.jobs.eraseIdx job } →
      s.Connected client → s.findsCustomer client pkt = false →
      s.Transition (.start job) [.wrote (startWrites s.server client pkt)] s' := by
    rintro result hresult hwrites rfl hconn hfinds
    rw [hwrites]
    exact .handled hjob hconn hfinds hresult
  by_cases hconn : s.Connected client
  · cases pkt with
    | cookUpdate m =>
        simp only [startJob, Option.some.injEq] at hstart
        by_cases hexists : customerExists s.server client = true
        · rw [if_pos hexists] at hstart
          exact hstart ▸ .found hjob hconn hexists
        · rw [if_neg hexists] at hstart
          refine hdispatch (s.server, []) ?_ rfl hstart.symm hconn
            (Bool.eq_false_of_not_eq_true hexists)
          rw [handlerFuncDispatch, cookUpdateHandler, if_neg hexists]
    | regCook | regCustomer | custOrder | other =>
        simp only [startJob, Option.map_eq_some_iff] at hstart
        obtain ⟨result, hresult, rfl⟩ := hstart
        exact hdispatch result hresult (by simp [startWrites, hresult]) rfl hconn rfl
  · cases pkt with
    | regCook | custOrder => exact absurd (huses trivial) hconn
    | cookUpdate m =>
        -- the search looks at nobody
        have hempty : s.server.clientTailq = [] := by
          by_contra hqueue
          exact hconn (huses hqueue)
        have hexists : customerExists s.server client = false := by
          cases hassigned : (s.server.heap client).assignedClient <;>
            simp [customerExists, hassigned, hempty]
        simp only [startJob, hexists, Option.some.injEq] at hstart
        exact hstart ▸ .left hjob hconn
    | regCustomer | other =>
        simp only [startJob, Option.map_eq_some_iff, handlerFuncDispatch,
          Option.some.injEq] at hstart
        obtain ⟨result, hresult, rfl⟩ := hstart
        subst hresult
        exact .left hjob hconn

theorem transition_of_step (h : s.InUse) {e : PoolEvent} (hstep : s.step e = some s') :
    s.Transition e (s.actions e) s' := by
  cases e with
  | accept =>
      simp only [step, Option.some.injEq] at hstep
      exact hstep ▸ .accept
  | read client pkt =>
      simp only [step, Option.ite_none_right_eq_some, Option.some.injEq] at hstep
      exact hstep.2 ▸ .read hstep.1
  | error client =>
      simp only [step, Option.ite_none_right_eq_some, Option.some.injEq] at hstep
      exact hstep.2 ▸ .error hstep.1
  | start job =>
      cases hjob : s.jobs[job]? with
      | none => simp [step, hjob] at hstep
      | some entry =>
          obtain ⟨client, pkt⟩ := entry
          simp only [step, hjob] at hstep
          simp only [actions, hjob]
          exact transition_start h hjob hstep
  | finish handler =>
      cases hsender : s.running[handler]? with
      | none => simp [step, hsender] at hstep
      | some client =>
          simp only [step, hsender, Option.some.injEq] at hstep
          obtain ⟨hconn, hcust⟩ := h.running client (List.mem_of_getElem? hsender)
          simp only [actions, hsender]
          refine hstep ▸ .finish hsender hconn fun m => ?_
          rw [handlerFuncDispatch, finishUpdate_eq_handler hcust]

/-! ## Workers and the open server -/

theorem recordOrders_inRange {codes : List UInt8} {c c' : Client}
    (h : recordOrders codes c = some c') :
    ∀ code ∈ codes.takeWhile (· != 0), code.toNat < 32 := by
  induction codes generalizing c with
  | nil => simp
  | cons code codes ih =>
      rw [recordOrders] at h
      split at h
      · next hzero => simp [hzero]
      · next hzero =>
          split at h
          · next hlt =>
              rw [List.takeWhile_cons_of_pos (by simpa using hzero)]
              intro other hother
              rcases List.mem_cons.mp hother with rfl | hrest
              · exact hlt
              · exact ih h other hrest
          · cases h

theorem dispatch_inRange {sv : Server} {client : Addr} {pkt : Pkt}
    {result : Server × List Write} (h : handlerFuncDispatch sv client pkt = some result) :
    pkt.inRange ∨ result = (sv, []) := by
  cases pkt with
  | regCook | regCustomer | cookUpdate | other => exact .inl trivial
  | custOrder p =>
      rcases UserState.cook_or (sv.heap client).state with hidle | hcook
      · left
        have hsome : (acceptOrder (sv.heap client) p).isSome := by
          by_contra hnone
          rw [Option.not_isSome_iff_eq_none] at hnone
          simp [handlerFuncDispatch, custOrderHandler, hnone] at h
        obtain ⟨accepted, haccepted⟩ := Option.isSome_iff_exists.mp hsome
        unfold acceptOrder at haccepted
        extract_lets c at haccepted
        have hcustomer : c.state = .customer := by
          rcases hidle with hstate | hstate <;> simp [c, hstate]
        rw [if_neg (by simp [hcustomer])] at haccepted
        obtain ⟨c', hc', -⟩ := Option.map_eq_some_iff.mp haccepted
        exact recordOrders_inRange hc'
      · right
        simpa [handlerFuncDispatch, custOrderHandler, acceptOrder_refused p hcook] using
          h.symm

theorem connected_of_server {o : OpenServer} (hserver : o.server = s.server) {a : Addr} :
    o.Connected a ↔ s.Connected a := by
  rw [OpenServer.Connected, hserver]

theorem packet_matched {o : OpenServer} {client : Addr} {pkt : Pkt}
    {result : Server × List Write} (hserver : o.server = s.server)
    (hconn : s.Connected client)
    (hresult : handlerFuncDispatch s.server client pkt = some result) :
    ∃ o', run OpenServer.step o (if pkt.inRange then [.packet client pkt] else []) = some o' ∧
      observed OpenServer.step OpenServer.writes o
        (if pkt.inRange then [.packet client pkt] else []) = result.2 ∧
      o'.server = result.1 := by
  have hresult' : handlerFuncDispatch o.server client pkt = some result := hserver ▸ hresult
  by_cases hrange : pkt.inRange
  · have hconn' : o.Connected client := (connected_of_server hserver).mpr hconn
    have hstep : o.step (.packet client pkt) = some (o.afterPacket client pkt result) := by
      rw [OpenServer.step, if_pos ⟨hconn', hrange⟩, hresult', Option.map_some]
    rw [if_pos hrange]
    refine ⟨_, run_cons_eq_some.mpr ⟨_, hstep, rfl⟩, ?_, rfl⟩
    rw [observed_singleton]
    simp [OpenServer.writes, hresult']
  · obtain rfl := (dispatch_inRange hresult).resolve_left hrange
    rw [if_neg hrange]
    exact ⟨o, rfl, rfl, hserver⟩

theorem step_matched {o : OpenServer} (h : s.InUse) (hserver : o.server = s.server)
    {e : PoolEvent} (hspares : s.SparesUsed e) (hstep : s.step e = some s') :
    ∃ o', run OpenServer.step o (s.arrivals e) = some o' ∧
      observed OpenServer.step OpenServer.writes o (s.arrivals e) = s.writes e ∧
      s'.InUse ∧ o'.server = s'.server := by
  have hinUse := inUse_step h hspares hstep
  have htransition := transition_of_step h hstep
  unfold writes
  generalize s.actions e = shown at htransition
  cases htransition with
  | accept =>
      have hnew : ¬ o.Connected s.nextRecord := fun hconn =>
        Nat.lt_irrefl _ (h.fresh _ ((connected_of_server hserver).mp hconn))
      have haccept : o.step (.accept s.nextRecord) = some (o.accept s.nextRecord) := if_neg hnew
      refine ⟨_, run_cons_eq_some.mpr ⟨_, haccept, rfl⟩, ?_, hinUse, ?_⟩
      · rw [arrivals, observed_singleton]
        rfl
      · rw [OpenServer.accept, hserver]
  | read hconn => exact ⟨o, rfl, rfl, hinUse, hserver⟩
  | @error client hconn =>
      have hclose : o.step (.disconnect client) =
          some { o with server := bufferedOnError o.server client } :=
        if_pos ((connected_of_server hserver).mpr hconn)
      refine ⟨_, run_cons_eq_some.mpr ⟨_, hclose, rfl⟩, ?_, hinUse, ?_⟩
      · rw [arrivals, observed_singleton]
        rfl
      · rw [hserver]
  | @found job client m hjob hconn hfinds =>
      have hnone : s.arrivals (.start job) = [] := by simp [arrivals, hjob, hfinds]
      rw [hnone]
      exact ⟨o, rfl, rfl, hinUse, hserver⟩
  | @left job client pkt hjob hgone =>
      have hnone : s.arrivals (.start job) = [] := by simp [arrivals, hjob, hgone]
      rw [hnone]
      exact ⟨o, rfl, rfl, hinUse, hserver⟩
  | @handled job client pkt result hjob hconn hfinds hresult =>
      obtain ⟨o', hrun, hwrites, hserver'⟩ := packet_matched hserver hconn hresult
      have harrivals : s.arrivals (.start job) =
          if pkt.inRange then [.packet client pkt] else [] := by
        simp [arrivals, hjob, hconn, hfinds]
      rw [harrivals]
      exact ⟨o', hrun, by simpa [ServerAction.writes] using hwrites, hinUse, hserver'⟩
  | finish hsender hconn hresult =>
      obtain ⟨o', hrun, hwrites, hserver'⟩ :=
        packet_matched hserver hconn (hresult ⟨[]⟩)
      have hrange : (Pkt.cookUpdate ⟨[]⟩).inRange := trivial
      rw [if_pos hrange] at hrun hwrites
      simp only [arrivals, hsender]
      exact ⟨o', hrun, by simpa [ServerAction.writes] using hwrites, hinUse, hserver'⟩

theorem run_matched_arrivals {events : List PoolEvent} {o : OpenServer} (h : s.InUse)
    (hserver : o.server = s.server) (hrun : run step s events = some s')
    (hspares : AllSteps step SparesUsed s events) :
    ∃ o', run OpenServer.step o (observed step arrivals s events) = some o' ∧
      observed OpenServer.step OpenServer.writes o (observed step arrivals s events) =
        observed step writes s events ∧ o'.server = s'.server := by
  induction events generalizing s o with
  | nil =>
      simp only [run_nil, Option.some.injEq] at hrun
      exact ⟨o, rfl, rfl, hrun ▸ hserver⟩
  | cons e events ih =>
      obtain ⟨next, hnext, hrest⟩ := run_cons_eq_some.mp hrun
      obtain ⟨u, hu, hwrites, hinUse, hserver'⟩ := step_matched h hserver hspares.1 hnext
      obtain ⟨o', ho', hwrites', hlast⟩ := ih hinUse hserver' hrest (hspares.2 next hnext)
      rw [observed_cons hnext, observed_cons hnext]
      refine ⟨o', run_append_eq_some.mpr ⟨u, hu, ho'⟩, ?_, hlast⟩
      rw [observed_append hu, hwrites, hwrites']

/-! ## What is handled was read -/

/-- The packet without the text of an update, at which no handler looks. -/
def textless : Pkt → Pkt
  | .cookUpdate _ => .cookUpdate ⟨[]⟩
  | pkt => pkt

def packetsRead (events : List PoolEvent) : List (Addr × Pkt) :=
  events.filterMap fun
    | .read client pkt => some (client, textless pkt)
    | _ => none

def packetsOf (arrivals : List Arrival) : List (Addr × Pkt) :=
  arrivals.filterMap fun
    | .packet client pkt => some (client, textless pkt)
    | _ => none

/-- The packets that have been read and not handled. -/
def held (s : WorkerPool) : List (Addr × Pkt) :=
  s.jobs.map (fun job => (job.1, textless job.2)) ++
    s.running.map fun client => (client, .cookUpdate ⟨[]⟩)

theorem count_jobs {job : Nat} {client : Addr} {pkt : Pkt}
    (hjob : s.jobs[job]? = some (client, pkt)) (x : Addr × Pkt) :
    (s.jobs.map fun job => (job.1, textless job.2)).count x =
      ((s.jobs.eraseIdx job).map fun job => (job.1, textless job.2)).count x +
        [(client, textless pkt)].count x := by
  rw [((perm_cons_eraseIdx hjob).map _).count_eq, List.map_cons, ← List.singleton_append,
    List.count_append, Nat.add_comm]

theorem count_running {handler : Nat} {client : Addr}
    (hsender : s.running[handler]? = some client) (x : Addr × Pkt) :
    (s.running.map fun client => (client, Pkt.cookUpdate ⟨[]⟩)).count x =
      ((s.running.eraseIdx handler).map fun client => (client, Pkt.cookUpdate ⟨[]⟩)).count x +
        [(client, Pkt.cookUpdate ⟨[]⟩)].count x := by
  rw [((perm_cons_eraseIdx hsender).map _).count_eq, List.map_cons, ← List.singleton_append,
    List.count_append, Nat.add_comm]

theorem count_held_step (h : s.InUse) {e : PoolEvent} (hstep : s.step e = some s')
    (x : Addr × Pkt) :
    (packetsOf (s.arrivals e)).count x + s'.held.count x ≤
      (packetsRead [e]).count x + s.held.count x := by
  have htransition := transition_of_step h hstep
  generalize s.actions e = shown at htransition
  unfold held
  cases htransition with
  | accept | error => simp [packetsOf, arrivals, packetsRead]
  | read hconn =>
      simp only [packetsOf, arrivals, packetsRead, List.filterMap_cons, List.filterMap_nil,
        List.count_nil, List.map_append, List.map_cons, List.map_nil, List.count_append]
      omega
  | found hjob hconn hfinds =>
      have hcount := count_jobs hjob x
      simp only [arrivals, hjob, hfinds, packetsOf, packetsRead, List.map_append,
        List.map_cons, List.map_nil, List.count_append, textless] at hcount ⊢
      simp only [Bool.true_eq_false, and_false, if_false, List.filterMap_nil,
        List.filterMap_cons, List.count_nil]
      omega
  | @handled job client pkt result hjob hconn hfinds hresult =>
      have hcount := count_jobs hjob x
      have hle : (packetsOf (s.arrivals (.start job))).count x ≤
          [(client, textless pkt)].count x := by
        simp only [arrivals, hjob, packetsOf]
        split <;> simp
      rw [List.count_append, List.count_append, hcount]
      dsimp only
      omega
  | left hjob hgone =>
      have hcount := count_jobs hjob x
      rw [List.count_append, List.count_append, hcount]
      simp only [arrivals, hjob, hgone, false_and, if_false, packetsOf, List.filterMap_nil,
        List.count_nil]
      omega
  | finish hsender hconn hresult =>
      have hcount := count_running hsender x
      rw [List.count_append, List.count_append, hcount]
      simp only [arrivals, hsender, packetsOf, List.filterMap_cons, List.filterMap_nil,
        textless]
      omega

theorem count_held_run (h : s.InUse) {events : List PoolEvent}
    (hrun : run step s events = some s') (hspares : AllSteps step SparesUsed s events)
    (x : Addr × Pkt) :
    (packetsOf (observed step arrivals s events)).count x + s'.held.count x ≤
      (packetsRead events).count x + s.held.count x := by
  induction events generalizing s with
  | nil =>
      simp only [run_nil, Option.some.injEq] at hrun
      simp [hrun, packetsOf]
  | cons e events ih =>
      obtain ⟨next, hnext, hrest⟩ := run_cons_eq_some.mp hrun
      have hfirst := count_held_step h hnext x
      have hlater := ih (inUse_step h hspares.1 hnext) hrest (hspares.2 next hnext)
      have hread : packetsRead (e :: events) = packetsRead [e] ++ packetsRead events := by
        rw [packetsRead, ← List.singleton_append, List.filterMap_append]
        rfl
      rw [observed_cons hnext, packetsOf, List.filterMap_append, hread, List.count_append,
        List.count_append]
      change (packetsOf _).count x + (packetsOf _).count x + _ ≤ _
      omega

/--
In every run of the workers in which no client is removed, or added, while that makes a
worker use a record that is not in the queue, the records, the queue and all that is
written are those of a server that handles whole packets, one after the other: each packet
when it is called, and an update that has found its customer when it is done.  Each is
handled at most as often as it was read.
-/
theorem workers_run_atomically {events : List PoolEvent} (hrun : run step initial events = some s)
    (hspares : AllSteps step SparesUsed initial events) :
    (∃ o, run OpenServer.step OpenServer.initial (observed step arrivals initial events) =
        some o ∧ o.server = s.server ∧
      observed OpenServer.step OpenServer.writes OpenServer.initial
          (observed step arrivals initial events) = observed step writes initial events) ∧
    ∀ x, (packetsOf (observed step arrivals initial events)).count x ≤
      (packetsRead events).count x := by
  obtain ⟨o, ho, hwrites, hserver⟩ := run_matched_arrivals initial_inUse
    (show OpenServer.initial.server = initial.server from rfl) hrun hspares
  refine ⟨⟨o, ho, hserver, hwrites⟩, fun x => ?_⟩
  have hcount := count_held_run initial_inUse hrun hspares x
  have hnone : initial.held.count x = 0 := rfl
  omega

/-- While the update of cook 0 has found its customer, another customer orders. -/
def overtakenRun : List PoolEvent :=
  [.accept, .read 0 (.regCook (.ofItems [1])), .start 0,
   .accept, .read 1 (.custOrder (.ofCodes [1])), .start 0,
   .read 0 (.cookUpdate ⟨[]⟩), .start 0,
   .accept, .read 2 (.custOrder (.ofCodes [2])), .start 0, .finish 0]

theorem workers_run_atomically_overtakenRun :
    ∃ s, run step initial overtakenRun = some s ∧
      ∃ o, run OpenServer.step OpenServer.initial
          (observed step arrivals initial overtakenRun) = some o ∧ o.server = s.server := by
  obtain ⟨s, hs⟩ := Option.isSome_iff_exists.mp (by decide :
    (run step initial overtakenRun).isSome)
  obtain ⟨⟨o, ho, hserver, -⟩, -⟩ := workers_run_atomically hs (by decide)
  exact ⟨s, hs, o, ho, hserver⟩

end WorkerPool

end SysprogTeam3.FoodSys
