import SysprogTeam3.FoodSys.PooledServer
import SysprogTeam3.FoodSys.Programs

/-!
# The shipped programs and the thread pool

The whole of the food server: `client` and `cook-client` at the other ends, the event
loop that reads and queues their packets, the thread pool, and the handlers in its
workers, in the steps of `PooledServer`.  What holds of the system that handles one packet
at a time holds here, while no packet is read over one that may still be looked at and
nobody leaves whose record is still used.
-/

namespace SysprogTeam3.FoodSys

open SysprogTeam3.Foundation
open scoped List

namespace PooledServer

abbrev withPrograms : PooledServer × Programs → PooledEvent ⊕ ProgramEvent →
    Option (PooledServer × Programs) :=
  composed step actions Programs.react Programs.step

def start (numThreads : Nat) : PooledServer × Programs := (initial numThreads, .initial)

variable {numThreads : Nat} {events : List (PooledEvent ⊕ ProgramEvent)} {p : PooledServer}
  {k : Programs}

theorem exists_workers (hrun : run withPrograms (start numThreads) events = some (p, k))
    (hundisturbed : AllSteps withPrograms (OnComponent Undisturbed) (start numThreads) events) :
    ∃ poolEvents w, run WorkerPool.withPrograms (.initial, .initial) poolEvents =
        some (w, k) ∧
      AllSteps WorkerPool.withPrograms (OnComponent WorkerPool.SparesUsed)
        (.initial, .initial) poolEvents ∧
      observed WorkerPool.withPrograms (componentLabel WorkerPool.actions)
          (.initial, .initial) poolEvents =
        observed withPrograms (componentLabel actions) (start numThreads) events ∧
      p.Matches w := by
  have hmatch : ∀ (p : PooledServer) w e p', p.Matches w → p.Undisturbed e →
      p.step e = some p' →
      ∃ matching w', run WorkerPool.step w matching = some w' ∧
        AllSteps WorkerPool.step WorkerPool.SparesUsed w matching ∧
        observed WorkerPool.step WorkerPool.actions w matching = p.actions e ∧
        p'.Matches w' := by
    intro p w e p' h hundisturbed hstep
    obtain ⟨matching, w', hmatching, hsteps, hactions, hmatches, -⟩ :=
      step_matches h hundisturbed.1 hstep
    exact ⟨matching, w', hmatching, hsteps hundisturbed.2, hactions, hmatches⟩
  exact composed_matched hmatch (initial_matches numThreads) hundisturbed hrun

/--
In every run of the programs against the server on its thread pool in which no packet is
read over a different one that may still be looked at, and no client is removed, or
added, while a waiting work or a started update uses a record that is not in the queue
then, the server does what one does that handles the packets one after the other: the
records, the queue, and what is written to whom in which order are the same.
-/
theorem pool_serves_programs
    (hrun : run withPrograms (start numThreads) events = some (p, k))
    (hundisturbed : AllSteps withPrograms (OnComponent Undisturbed) (start numThreads) events) :
    ∃ packets s, run System.step System.initial packets = some s ∧
      observed System.step System.writes System.initial packets =
        (observed withPrograms (componentLabel actions) (start numThreads) events).flatMap
          ServerAction.writes ∧
      s.server = p.server ∧ (∀ a, (s.toClient a).map Delivery.pkt = k.toClient a) ∧
      ∀ a ∈ p.server.clientTailq, k.program a = some (s.peer a) := by
  obtain ⟨poolEvents, w, hw, hworkers, hactions, h⟩ := exists_workers hrun hundisturbed
  obtain ⟨packets, s, hs, -, hwrites, hserves⟩ := workers_serve_programs hw hworkers
  refine ⟨packets, s, hs, hactions ▸ hwrites, hserves.server.trans h.server,
    hserves.toClient, fun a ha => ?_⟩
  rw [hserves.program a, if_pos (by rwa [WorkerPool.Connected, h.server])]

def servedRun (work : JobData) : List (PooledEvent ⊕ ProgramEvent) :=
  [.inl (.read work.1 work.2), .inl (.pool (.addWork 0 7 work)), .inl (.pool (.post 0 0))] ++
    .replicate 8 (.inl (.pool (.thread 0 0)))

def answeredRun : List (PooledEvent ⊕ ProgramEvent) := .flatten
  [[.inl (.pool (.thread 0 0)), .inl (.pool .initialised), .inl (.pool (.thread 0 0)),
    .inl .accept, .inr (.sendReg 0 (.ofItems [1])), .inl .accept],
   servedRun (0, .regCook (.ofItems [1])),
   [.inr (.sendOrder 1 (.ofCodes [1]))],
   servedRun (1, .custOrder (.ofCodes [1])),
   [.inr (.read 0 [])],
   servedRun (0, .cookUpdate ⟨[]⟩), [.inl (.error 0)]]

set_option maxRecDepth 4000 in
theorem answeredRun_connects :
    ∃ p k, run withPrograms (start 1) answeredRun = some (p, k) ∧
      1 ∈ p.server.clientTailq := by
  obtain ⟨⟨p, k⟩, hrun, hmem⟩ : ∃ s, run withPrograms (start 1) answeredRun = some s ∧
      1 ∈ s.1.server.clientTailq := exists_of_any (by decide)
  exact ⟨p, k, hrun, hmem⟩

set_option maxRecDepth 4000 in
theorem answeredRun_undisturbed :
    AllSteps withPrograms (OnComponent Undisturbed) (start 1) answeredRun := by
  decide

theorem pool_serves_programs_answeredRun :
    ∃ p k, run withPrograms (start 1) answeredRun = some (p, k) ∧
      ∃ packets s, run System.step System.initial packets = some s ∧ s.server = p.server := by
  obtain ⟨p, k, hrun, -⟩ := answeredRun_connects
  obtain ⟨packets, s, hs, -, hserver, -⟩ := pool_serves_programs hrun answeredRun_undisturbed
  exact ⟨p, k, hrun, packets, s, hs, hserver⟩

/-- The number of packets of a connection that are under way: in an update that has
found its customer, waiting for a worker, not read, or an order that the cook has not
read. -/
def underWay (p : PooledServer) (k : Programs) (a : Addr) : Nat :=
  p.running.countP (fun update => update.2 == a) +
    p.waiting.countP (fun work => work.1 == a) + (k.toServer a).length +
    ((k.toClient a).filterMap ServerPkt.order?).length

theorem length_jobsOf (jobs : List JobData) (a : Addr) :
    (jobsOf jobs a).length = jobs.countP fun work => work.1 == a := by
  induction jobs with
  | nil => rfl
  | cons work jobs ih =>
      by_cases hwork : work.1 = a
      · simpa [jobsOf, hwork] using ih
      · simpa [jobsOf, hwork] using ih

theorem unreadOrders_eq {w : WorkerPool} {s : System} (h : Serves w k s) (a : Addr) :
    (k.toClient a).filterMap ServerPkt.order? = (s.unreadOrders a).map Ticket.order := by
  rw [← h.toClient a, System.unreadOrders, List.filterMap_map, List.map_filterMap]
  refine List.filterMap_congr fun d _ => ?_
  cases d <;> rfl

/--
Of each connection at most one packet is not read, waits to be called, is an update after
its search, or is an order that its cook has not read.
-/
theorem one_packet_under_way
    (hrun : run withPrograms (start numThreads) events = some (p, k))
    (hundisturbed : AllSteps withPrograms (OnComponent Undisturbed) (start numThreads) events) :
    ∀ a ∈ p.server.clientTailq, underWay p k a ≤ 1 := by
  obtain ⟨poolEvents, w, hw, hworkers, -, h⟩ := exists_workers hrun hundisturbed
  obtain ⟨packets, s, -, -, -, hserves⟩ := workers_serve_programs hw hworkers
  intro a ha
  have hconn : w.Connected a := by rwa [WorkerPool.Connected, h.server]
  have hphase := hserves.wellFormed.phase a ((hserves.connected_iff a).mpr hconn)
  have hle := hphase.inFlight_le
  have htransit := (hserves.toServer a hconn).length
  have horders := congrArg List.length (unreadOrders_eq hserves a)
  have hjobs : (jobsOf w.jobs a).length =
      p.waiting.countP fun work => work.1 == a := by
    rw [length_jobsOf]
    exact h.jobs.countP_eq _
  have hrunning : w.running.count a = p.running.countP fun update => update.2 == a := by
    rw [h.running, List.count, List.countP_map]
    rfl
  rw [List.length_map] at htransit horders
  unfold underWay
  omega

theorem one_packet_under_way_answeredRun :
    ∃ p k, run withPrograms (start 1) answeredRun = some (p, k) ∧ underWay p k 1 ≤ 1 := by
  obtain ⟨p, k, hrun, hmem⟩ := answeredRun_connects
  exact ⟨p, k, hrun, one_packet_under_way hrun answeredRun_undisturbed 1 hmem⟩

/-- Every order that a cook has not read yet is one that it can make, that its customer
asked for, and that no other cook is making. -/
structure OrdersExclusive (p : PooledServer) (k : Programs) : Prop where
  rightful : ∀ b ∈ p.server.clientTailq, ∀ o, .cookOrder o ∈ k.toClient b →
    (p.server.heap b).state = .cookBusy ∧
      ∃ reg cust, k.program b = some (.cook reg) ∧
        (p.server.heap b).assignedClient = some cust ∧
        (∀ i, o.gives i = true → reg.declares i = true) ∧
        (cust ∈ p.server.clientTailq → ∃ q, k.program cust = some (.customer q) ∧
          ∀ i, o.gives i = true → q.names i = true)
  disjoint : ∀ b ∈ p.server.clientTailq, ∀ b' ∈ p.server.clientTailq, b ≠ b' →
    ∀ o o', .cookOrder o ∈ k.toClient b → .cookOrder o' ∈ k.toClient b' →
    (p.server.heap b).assignedClient = (p.server.heap b').assignedClient →
    ∀ i, ¬ (o.gives i = true ∧ o'.gives i = true)

theorem exists_ticket {w : WorkerPool} {s : System} (h : Serves w k s) {b : Addr}
    {o : CookOrderPkt} (ho : .cookOrder o ∈ k.toClient b) :
    ∃ t, .cookOrder t ∈ s.pendingItems b ∧ t.order = o := by
  have hmem : o ∈ (k.toClient b).filterMap ServerPkt.order? :=
    List.mem_filterMap.mpr ⟨_, ho, rfl⟩
  rw [unreadOrders_eq h] at hmem
  obtain ⟨t, ht, rfl⟩ := List.mem_map.mp hmem
  exact ⟨t, List.mem_append_left _ (List.mem_map_of_mem ht), rfl⟩

/-- On the pool, too, orders are assigned exclusively. -/
theorem pool_orders_exclusive
    (hrun : run withPrograms (start numThreads) events = some (p, k))
    (hundisturbed : AllSteps withPrograms (OnComponent Undisturbed) (start numThreads) events) :
    OrdersExclusive p k := by
  obtain ⟨poolEvents, w, hw, hworkers, -, h⟩ := exists_workers hrun hundisturbed
  obtain ⟨packets, s, hs, hfresh, -, hserves⟩ := workers_serve_programs hw hworkers
  have hstep : ∀ (s : System) e s', s.Invariant ∧ s.Owned → s.FreshAccept e →
      s.step e = some s' → s'.Invariant ∧ s'.Owned := fun s e s' hs hC hnext =>
    ⟨System.invariant_step hs.1 hnext, System.owned_step hs.1 hs.2 hC hnext⟩
  have hinv := run_invariant hstep ⟨System.initial_invariant, System.initial_owned⟩ hfresh hs
  have hexclusive := System.exclusiveAssignment_of_owned hinv.1 hinv.2
  have hserver : s.server = p.server := hserves.server.trans h.server
  have hconn : ∀ b, b ∈ p.server.clientTailq → s.Connected b := fun b hb => by
    rwa [System.Connected, hserver]
  have hprogram : ∀ b, b ∈ p.server.clientTailq → k.program b = some (s.peer b) := by
    intro b hb
    rw [hserves.program b, if_pos (by rwa [WorkerPool.Connected, h.server])]
  -- what is known of the cook's one pending order
  have hrightful : ∀ b ∈ p.server.clientTailq, ∀ t, .cookOrder t ∈ s.pendingItems b →
      ∃ reg, s.peer b = .cook reg ∧ s.RightfulOrder b reg t := by
    intro b hb t ht
    have hpending := System.ticket_mem_pending ht rfl
    obtain ⟨-, -, -, -, -, reg, hreg⟩ :=
      (hinv.1.wellFormed.phase b (hconn b hb)).of_pending hpending
    exact ⟨reg, hreg, hexclusive.rightful b reg (hconn b hb) hreg _ ht t rfl⟩
  constructor
  · intro b hb o ho
    obtain ⟨t, ht, rfl⟩ := exists_ticket hserves ho
    obtain ⟨reg, hreg, hstate, hassigned, -, q, hq, hitems⟩ := hrightful b hb t ht
    rw [System.record, hserver] at hstate hassigned
    refine ⟨hstate, reg, t.cust, hreg ▸ hprogram b hb, hassigned, fun i hi => (hitems i hi).2,
      fun hcust => ⟨q, hq ▸ hprogram t.cust hcust, fun i hi => (hitems i hi).1⟩⟩
  · intro b hb b' hb' hne o o' ho ho' hsame
    obtain ⟨t, ht, rfl⟩ := exists_ticket hserves ho
    obtain ⟨t', ht', rfl⟩ := exists_ticket hserves ho'
    obtain ⟨-, -, -, hassigned, -⟩ := hrightful b hb t ht
    obtain ⟨-, -, -, hassigned', -⟩ := hrightful b' hb' t' ht'
    rw [System.record, hserver] at hassigned hassigned'
    have hcust : t.cust = t'.cust :=
      Option.some.inj (hassigned.symm.trans (hsame.trans hassigned'))
    exact hexclusive.disjoint b b' (hconn b hb) (hconn b' hb') hne _ ht _ ht' t t' rfl rfl hcust

theorem pool_orders_exclusive_answeredRun :
    ∃ p k, run withPrograms (start 1) answeredRun = some (p, k) ∧ OrdersExclusive p k := by
  obtain ⟨p, k, hrun, -⟩ := answeredRun_connects
  exact ⟨p, k, hrun, pool_orders_exclusive hrun answeredRun_undisturbed⟩

end PooledServer

end SysprogTeam3.FoodSys
