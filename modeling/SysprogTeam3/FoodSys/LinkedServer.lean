import SysprogTeam3.Foundation.Simulation
import SysprogTeam3.FoodSys.OpenServer
import SysprogTeam3.FoodSys.Tailq

/-!
# The server on its links

`client_tailq_head` is a tail queue whose entries lie in the records.  Here the
server's callbacks and handlers follow and change the links themselves, and count
the connections in `num_of_active_conn`.
-/

namespace SysprogTeam3.FoodSys

open SysprogTeam3.Foundation

structure LinkedServer where
  heap : Heap
  /-- `client_tailq_head`, and the `entries` of the records. -/
  clientTailq : Tailq
  numOfActiveConn : Int

/-- `TAILQ_FOREACH` in `cust_order_handler`; `none` when it takes more rounds than
`fuel`. -/
def assignFrom (q : Tailq) (client : Addr) : Nat → Option Addr → LoopState → Option LoopState
  | 0, _, _ => none
  | _ + 1, none, st => some st
  | fuel + 1, some clientItem, st =>
      if (st.heap clientItem).state = .cookFree then
        let st' := assignCook client clientItem st
        if st'.ordersAssigned ≠ st.ordersAssigned ∧
            (st'.heap client).numOfOrders = st'.ordersAssigned then some st'
        else assignFrom q client fuel (q.nextOf clientItem) st'
      else assignFrom q client fuel (q.nextOf clientItem) st

namespace LinkedServer

def initial : LinkedServer :=
  { heap := fun _ => .zeroed
    clientTailq := Tailq.init ⟨none, none, fun _ => ⟨none, none⟩⟩
    numOfActiveConn := 0 }

def fuel (s : LinkedServer) : Nat := s.numOfActiveConn.toNat + 1

def onAccept (s : LinkedServer) (client : Addr) : Option LinkedServer :=
  let q := { s.clientTailq with
    entries := Function.update s.clientTailq.entries client ⟨none, none⟩ }
  (q.insertTail client).map fun q =>
    { heap := Function.update s.heap client .zeroed
      clientTailq := q
      numOfActiveConn := s.numOfActiveConn + 1 }

def bufferedOnError (s : LinkedServer) (client : Addr) : Option LinkedServer :=
  (s.clientTailq.remove client).map fun q =>
    { s with clientTailq := q, numOfActiveConn := s.numOfActiveConn - 1 }

def custOrderHandler (s : LinkedServer) (client : Addr) (pktData : CustOrderPkt) :
    Option (LinkedServer × List Write) :=
  match acceptOrder (s.heap client) pktData with
  | none => none
  | some none => some (s, [])
  | some (some c) =>
      (assignFrom s.clientTailq client s.fuel s.clientTailq.tqhFirst
        ⟨Function.update s.heap client c, 0, []⟩).map fun st =>
          ({ s with heap := st.heap },
            st.writes ++ notifyCustomer st.heap client st.ordersAssigned)

def cookUpdateHandler (s : LinkedServer) (client : Addr) :
    Option (LinkedServer × List Write) :=
  let stop (clientItem : Addr) : Bool := (s.heap client).assignedClient == some clientItem
  (walk s.clientTailq.nextOf stop s.fuel s.clientTailq.tqhFirst).map fun found =>
    if found.isSome then
      -- the rest of the handler does not look at the queue
      let result := finishUpdate ⟨s.heap, []⟩ client
      ({ s with heap := result.1.heap }, result.2)
    else (s, [])

def handlerFuncDispatch (s : LinkedServer) (client : Addr) :
    Pkt → Option (LinkedServer × List Write)
  | .regCook p => some ({ s with heap := (regCookHandler ⟨s.heap, []⟩ client p).heap }, [])
  | .regCustomer => some (s, [])
  | .custOrder p => s.custOrderHandler client p
  | .cookUpdate _ => s.cookUpdateHandler client
  | .other _ => some (s, [])

def step (s : LinkedServer) : Arrival → Option LinkedServer
  | .accept a => s.onAccept a
  | .packet a pkt => (s.handlerFuncDispatch a pkt).map Prod.fst
  | .disconnect a => s.bufferedOnError a

def written (s : LinkedServer) : Arrival → List Write
  | .packet a pkt => ((s.handlerFuncDispatch a pkt).map Prod.snd).getD []
  | _ => []

/-- The links hold the clients of the queue, and the counter their number. -/
structure Represents (s : LinkedServer) (sv : Server) : Prop where
  heap : s.heap = sv.heap
  queue : s.clientTailq.Holds sv.clientTailq
  count : s.numOfActiveConn = sv.clientTailq.length

theorem Represents.fuel_lt {s : LinkedServer} {sv : Server} (h : s.Represents sv) :
    sv.clientTailq.length < s.fuel := by
  have hcount := h.count
  simp only [fuel]
  omega

end LinkedServer

/-! ## Each operation -/

theorem assignFrom_eq {q : Tailq} {client : Addr} {link : Option Addr} {items : List Addr}
    {fuel : Nat} (h : Chain q.nextOf link items) (hfuel : items.length < fuel)
    (st : LoopState) :
    assignFrom q client fuel link st = some (assignLoop client items st) := by
  induction items generalizing link fuel st with
  | nil =>
      obtain ⟨fuel, rfl⟩ := Nat.exists_eq_succ_of_ne_zero (Nat.ne_zero_of_lt hfuel)
      rw [show link = none from h]
      rfl
  | cons a items ih =>
      obtain ⟨fuel, rfl⟩ := Nat.exists_eq_succ_of_ne_zero (Nat.ne_zero_of_lt hfuel)
      have hrest := fun st => ih h.2 (Nat.lt_of_succ_lt_succ hfuel) st
      rw [h.1, assignFrom, assignLoop]
      simp only [hrest]
      split
      · split
        · rfl
        · rfl
      · rfl

namespace LinkedServer

variable {s : LinkedServer} {sv : Server}

theorem onAccept_represents (h : s.Represents sv) {a : Addr} (hfree : a ∉ sv.clientTailq) :
    ∃ s', s.onAccept a = some s' ∧ s'.Represents (FoodSys.onAccept sv a) := by
  have hholds : Tailq.Holds { s.clientTailq with
      entries := Function.update s.clientTailq.entries a ⟨none, none⟩ } sv.clientTailq := by
    refine ⟨h.queue.chain.congr fun b hb => ?_, h.queue.last,
      h.queue.back.congr fun b hb => ?_⟩
    · simp [Tailq.nextOf, ne_of_mem_of_not_mem hb hfree]
    · simp [Tailq.prevOf, ne_of_mem_of_not_mem hb hfree]
  obtain ⟨q, hq, hnew⟩ := Tailq.insertTail_spec hholds hfree
  refine ⟨_, by rw [onAccept, hq, Option.map_some], ?_, hnew, ?_⟩
  · change Function.update s.heap a .zeroed = Function.update sv.heap a .zeroed
    rw [h.heap]
  · change s.numOfActiveConn + 1 = _
    simp [h.count, FoodSys.onAccept]

theorem bufferedOnError_represents (h : s.Represents sv) {a : Addr}
    (hconn : a ∈ sv.clientTailq) :
    ∃ s', s.bufferedOnError a = some s' ∧ s'.Represents (FoodSys.bufferedOnError sv a) := by
  obtain ⟨first, rest, ha, hsplit, herase⟩ := List.exists_erase_eq hconn
  have hqueue := h.queue
  rw [hsplit] at hqueue
  obtain ⟨q, hq, hleft⟩ := Tailq.remove_spec hqueue
  refine ⟨{ s with clientTailq := q, numOfActiveConn := s.numOfActiveConn - 1 },
    by rw [bufferedOnError, hq, Option.map_some], h.heap, ?_, ?_⟩
  · change q.Holds (sv.clientTailq.erase a)
    rw [herase]
    exact hleft
  · change s.numOfActiveConn - 1 = ((sv.clientTailq.erase a).length : Nat)
    have hpos := List.length_pos_of_mem hconn
    rw [h.count, List.length_erase_of_mem hconn]
    omega

theorem custOrderHandler_represents (h : s.Represents sv) (a : Addr) (p : CustOrderPkt) :
    ∀ result, FoodSys.custOrderHandler sv a p = some result →
      ∃ s', s.custOrderHandler a p = some (s', result.2) ∧ s'.Represents result.1 := by
  intro result hresult
  unfold FoodSys.custOrderHandler at hresult
  unfold custOrderHandler
  rw [h.heap]
  cases haccept : acceptOrder (sv.heap a) p with
  | none => simp [haccept] at hresult
  | some accepted =>
      cases accepted with
      | none =>
          simp only [haccept, Option.some.injEq] at hresult
          subst hresult
          exact ⟨s, rfl, h⟩
      | some c =>
          simp only [haccept, Option.some.injEq] at hresult
          subst hresult
          have hloop := @assignFrom_eq _ a _ _ _ h.queue.chain h.fuel_lt
            ⟨Function.update sv.heap a c, 0, []⟩
          refine ⟨{ s with heap := (assignOrders (sv.modify a fun _ => c) a).heap }, ?_, rfl,
            h.queue, h.count⟩
          dsimp only
          rw [hloop]
          rfl

theorem walk_assigned (h : s.Represents sv) (a : Addr) :
    (walk s.clientTailq.nextOf (fun item => (s.heap a).assignedClient == some item) s.fuel
      s.clientTailq.tqhFirst).map Option.isSome = some (customerExists sv a) := by
  rw [h.heap]
  cases hassigned : (sv.heap a).assignedClient with
  | none =>
      have hstop : ∀ b ∈ sv.clientTailq, (none == some b) = false := fun _ _ => rfl
      rw [h.queue.chain.walk_none hstop h.fuel_lt]
      simp [customerExists, hassigned]
  | some cust =>
      by_cases hmem : cust ∈ sv.clientTailq
      · obtain ⟨first, rest, hsplit, hfirst⟩ := List.eq_append_cons_of_mem hmem
        have hchain := h.queue.chain
        have hfuel := h.fuel_lt
        rw [hsplit] at hchain hfuel
        simp only [List.length_append, List.length_cons] at hfuel
        rw [walk_eq (segment_split.mp hchain).1 (fun b hb => ?_) (by simp) (by omega)]
        · simp [customerExists, hassigned, hmem]
        · simpa using (ne_of_mem_of_not_mem hb hfirst).symm
      · rw [h.queue.chain.walk_none (fun b hb => ?_) h.fuel_lt]
        · simp [customerExists, hassigned, hmem]
        · simpa using (ne_of_mem_of_not_mem hb hmem).symm

theorem finishUpdate_queue (sv : Server) (queue : List Addr) (a : Addr) :
    finishUpdate ⟨sv.heap, queue⟩ a =
      ({ (finishUpdate sv a).1 with clientTailq := queue }, (finishUpdate sv a).2) := by
  unfold finishUpdate
  cases (sv.heap a).assignedClient <;> rfl

theorem cookUpdateHandler_represents (h : s.Represents sv) (a : Addr) :
    ∃ s', s.cookUpdateHandler a = some (s', (FoodSys.cookUpdateHandler sv a).2) ∧
      s'.Represents (FoodSys.cookUpdateHandler sv a).1 := by
  obtain ⟨found, hwalk, hfound⟩ := Option.map_eq_some_iff.mp (walk_assigned h a)
  have hupdate := finishUpdate_queue sv [] a
  unfold FoodSys.cookUpdateHandler cookUpdateHandler
  dsimp only
  rw [hwalk, Option.map_some, hfound, h.heap, hupdate]
  by_cases hexists : customerExists sv a = true
  · rw [if_pos hexists, if_pos hexists]
    have hqueue := (finishUpdate_assignedClient sv a a).1
    exact ⟨_, rfl, rfl, hqueue ▸ h.queue, hqueue ▸ h.count⟩
  · rw [if_neg hexists, if_neg hexists]
    exact ⟨s, rfl, h⟩

theorem dispatch_represents (h : s.Represents sv) (a : Addr) (pkt : Pkt)
    {result : Server × List Write}
    (hresult : FoodSys.handlerFuncDispatch sv a pkt = some result) :
    ∃ s', s.handlerFuncDispatch a pkt = some (s', result.2) ∧ s'.Represents result.1 := by
  cases pkt with
  | regCook p =>
      simp only [FoodSys.handlerFuncDispatch, Option.some.injEq] at hresult
      subst hresult
      refine ⟨_, rfl, ?_, h.queue, h.count⟩
      change (regCookHandler ⟨s.heap, []⟩ a p).heap = (regCookHandler sv a p).heap
      rw [h.heap]
      rfl
  | regCustomer | other type =>
      simp only [FoodSys.handlerFuncDispatch, Option.some.injEq] at hresult
      subst hresult
      exact ⟨s, rfl, h⟩
  | custOrder p => exact custOrderHandler_represents h a p result hresult
  | cookUpdate p =>
      simp only [FoodSys.handlerFuncDispatch, Option.some.injEq] at hresult
      subst hresult
      exact cookUpdateHandler_represents h a

theorem initial_represents : initial.Represents OpenServer.initial.server :=
  ⟨rfl, Tailq.holds_init _, rfl⟩

theorem step_represents {o o' : OpenServer} (h : s.Represents o.server) {e : Arrival}
    (hstep : o.step e = some o') :
    s.written e = o.writes e ∧ ∃ s', s.step e = some s' ∧ s'.Represents o'.server := by
  cases e with
  | accept a =>
      simp only [OpenServer.step, Option.ite_none_left_eq_some, Option.some.injEq] at hstep
      obtain ⟨hfree, rfl⟩ := hstep
      exact ⟨rfl, onAccept_represents h hfree⟩
  | packet a pkt =>
      simp only [OpenServer.step, Option.ite_none_right_eq_some, Option.map_eq_some_iff] at hstep
      obtain ⟨-, result, hresult, rfl⟩ := hstep
      obtain ⟨s', hs', hrep⟩ := dispatch_represents h a pkt hresult
      refine ⟨by simp [written, OpenServer.writes, hresult, hs'], s', ?_, hrep⟩
      simp [step, hs']
  | disconnect a =>
      simp only [OpenServer.step, Option.ite_none_right_eq_some, Option.some.injEq] at hstep
      obtain ⟨hconn, rfl⟩ := hstep
      exact ⟨rfl, bufferedOnError_represents h hconn⟩

/--
The server on its links follows every run of the open server, whatever clients come,
go and send, as long as no order writes past `menu_items`: it never stores through a NULL
link and its loops end.  It writes the same packets and leaves the same records,
`TAILQ_FOREACH` visits the connected clients in the order in which they were accepted, and
`num_of_active_conn` is their number.
-/
theorem linked_run {events : List Arrival} {o : OpenServer}
    (hrun : run OpenServer.step OpenServer.initial events = some o) :
    ∃ s, run step initial events = some s ∧
      observed step written initial events =
        observed OpenServer.step OpenServer.writes OpenServer.initial events ∧
      s.heap = o.server.heap ∧
      s.clientTailq.foreachFrom s.fuel s.clientTailq.tqhFirst = some o.server.clientTailq ∧
      s.numOfActiveConn = o.server.clientTailq.length := by
  have hsteps : ∀ (o : OpenServer) (s : LinkedServer) (e : Arrival) (o' : OpenServer),
      s.Represents o.server → o.step e = some o' →
        s.written e = o.writes e ∧ ∃ s', s.step e = some s' ∧ s'.Represents o'.server :=
    fun _ _ _ _ h hstep => step_represents h hstep
  obtain ⟨s, hs, hrep, hsame⟩ := run_lockstep hsteps initial_represents hrun
  exact ⟨s, hs, hsame, hrep.heap, Tailq.foreachFrom_spec hrep.queue.chain hrep.fuel_lt,
    hrep.count⟩

def middleLeaves : List Arrival :=
  [.accept 5, .accept 3, .accept 9, .packet 5 (.regCook (.ofItems [1])),
    .packet 9 (.custOrder (.ofCodes [1])), .disconnect 3, .packet 5 (.cookUpdate ⟨[]⟩)]

set_option maxRecDepth 4000 in
theorem linked_run_middleLeaves :
    ∃ s, run step initial middleLeaves = some s ∧
      s.clientTailq.foreachFrom s.fuel s.clientTailq.tqhFirst = some [5, 9] ∧
      s.numOfActiveConn = 2 := by
  obtain ⟨o, ho, hqueue⟩ : ∃ o, run OpenServer.step OpenServer.initial middleLeaves =
      some o ∧ o.server.clientTailq = [5, 9] := exists_of_any (by decide)
  obtain ⟨s, hs, -, -, hvisits, hcount⟩ := linked_run ho
  exact ⟨s, hs, hqueue ▸ hvisits, by rw [hcount, hqueue]; rfl⟩

end LinkedServer

end SysprogTeam3.FoodSys
