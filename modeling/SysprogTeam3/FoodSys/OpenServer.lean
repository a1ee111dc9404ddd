import SysprogTeam3.Foundation.Runs
import SysprogTeam3.FoodSys.Assignment

/-!
# The server under any packets

Nothing is known here about the programs at the other ends.  Any connected
client may send any packet at any time, as long as its order codes are indices
of `menu_items`, and clients come and go; `calloc` may return an address again.
Beside the server this model records what each connection has sent and which of
the orders sent to it no handled `COOK_UPDATE` has answered.
-/

namespace SysprogTeam3.FoodSys

open SysprogTeam3.Foundation

def Pkt.inRange : Pkt → Prop
  | .custOrder p => p.inRange
  | _ => True

instance (pkt : Pkt) : Decidable pkt.inRange :=
  match pkt with
  | .custOrder p => inferInstanceAs (Decidable p.inRange)
  | .regCook _ | .regCustomer | .cookUpdate _ | .other _ => isTrue trivial

/-- What is left of a client's orders: a `COOK_UPDATE` answers the oldest one. -/
def Pkt.leaves : Pkt → List Ticket → List Ticket
  | .cookUpdate _, tickets => tickets.tail
  | _, tickets => tickets

structure OpenServer where
  server : Server
  /-- The connection whose record is at the address. -/
  conn : Addr → Conn
  nextConn : Conn
  /-- The packets of the connection that the server has handled. -/
  received : Addr → List Pkt
  /-- The orders sent on the connection that are not answered. -/
  outstanding : Addr → List Ticket

inductive Arrival where
  | accept (a : Addr)
  | packet (a : Addr) (pkt : Pkt)
  | disconnect (a : Addr)
  deriving DecidableEq

namespace OpenServer

def initial : OpenServer :=
  { server := { heap := fun _ => .zeroed, clientTailq := [] }
    conn := fun _ => 0
    nextConn := 0
    received := fun _ => []
    outstanding := fun _ => [] }

abbrev record (s : OpenServer) (a : Addr) : Client := s.server.heap a

abbrev Connected (s : OpenServer) (a : Addr) : Prop := a ∈ s.server.clientTailq

def accept (s : OpenServer) (a : Addr) : OpenServer :=
  { server := onAccept s.server a
    conn := Function.update s.conn a s.nextConn
    nextConn := s.nextConn + 1
    received := Function.update s.received a []
    outstanding := Function.update s.outstanding a [] }

def afterPacket (s : OpenServer) (a : Addr) (pkt : Pkt)
    (result : Server × List Write) : OpenServer :=
  { s with
    server := result.1
    received := Function.update s.received a (s.received a ++ [pkt])
    outstanding := fun b =>
      (if b = a then pkt.leaves (s.outstanding b) else s.outstanding b) ++
        (ordersTo result.2 b).map fun o => ⟨a, s.conn a, o⟩ }

def step (s : OpenServer) : Arrival → Option OpenServer
  | .accept a => if s.Connected a then none else some (s.accept a)
  | .packet a pkt =>
      if s.Connected a ∧ pkt.inRange then
        (handlerFuncDispatch s.server a pkt).map (s.afterPacket a pkt)
      else none
  | .disconnect a =>
      if s.Connected a then some { s with server := bufferedOnError s.server a }
      else none

def writes (s : OpenServer) : Arrival → List Write
  | .packet a pkt => ((handlerFuncDispatch s.server a pkt).map Prod.snd).getD []
  | _ => []

/-! ## What a packet does -/

def orderResult (s : OpenServer) (a : Addr) (p : CustOrderPkt) : Server × List Write :=
  let st := passed (s.server.heap) a p (searched s.server.heap a p s.server.clientTailq)
  ({ s.server with heap := st.heap },
    st.writes ++ notifyCustomer st.heap a st.ordersAssigned)

/-- The record of the assigned client after an update of the client at `a`. -/
def completedCustomer (s : OpenServer) (a cust : Addr) : Client :=
  completeItems (s.record a).menuItems (s.record cust)

def updateResult (s : OpenServer) (a cust : Addr) : Server × List Write :=
  ({ s.server with
      heap := Function.update
        (Function.update s.server.heap cust (s.completedCustomer a cust))
        a { s.record a with state := .cookFree } },
    completionWrites cust (s.completedCustomer a cust))

/-- Everything that the dispatcher can do with a packet of the client at `a`. -/
inductive Handled (s : OpenServer) (a : Addr) : Pkt → Server × List Write → Prop
  | registered (p : RegCookPkt) :
      Handled s a (.regCook p) (regCookHandler s.server a p, [])
  | customer : Handled s a .regCustomer (s.server, [])
  | refused (p : CustOrderPkt)
      (hstate : (s.record a).state = .cookFree ∨ (s.record a).state = .cookBusy) :
      Handled s a (.custOrder p) (s.server, [])
  | ordered (p : CustOrderPkt) (hrange : p.inRange)
      (hstate : (s.record a).state = .unknown ∨ (s.record a).state = .customer) :
      Handled s a (.custOrder p) (s.orderResult a p)
  | missed (m : CookUpdatePkt)
      (hmiss : ∀ cust, (s.record a).assignedClient = some cust → ¬ s.Connected cust) :
      Handled s a (.cookUpdate m) (s.server, [])
  | updated (m : CookUpdatePkt) (cust : Addr)
      (hassigned : (s.record a).assignedClient = some cust)
      (hcust : s.Connected cust) (hne : a ≠ cust) :
      Handled s a (.cookUpdate m) (s.updateResult a cust)
  | other (type : UInt16) : Handled s a (.other type) (s.server, [])

/-- What holds of the record of a connected client, whatever was sent. -/
structure RecordValid (a : Addr) (received : List Pkt) (c : Client) : Prop where
  /-- Only a client that registered as a cook is one. -/
  registered : c.state = .cookFree ∨ c.state = .cookBusy → ∃ p, .regCook p ∈ received
  idle : c.state = .unknown ∨ c.state = .customer → c.assignedClient = none
  other : ∀ cust, c.assignedClient = some cust → a ≠ cust

structure Valid (s : OpenServer) : Prop where
  nodup : s.server.clientTailq.Nodup
  record : ∀ a, s.Connected a → RecordValid a (s.received a) (s.record a)

theorem initial_valid : initial.Valid where
  nodup := by simp [initial]
  record := by simp [initial, Connected]

theorem dispatch_handled {s : OpenServer} (hs : s.Valid) {a : Addr}
    (ha : s.Connected a) {pkt : Pkt} (hrange : pkt.inRange) :
    ∃ result, handlerFuncDispatch s.server a pkt = some result ∧ s.Handled a pkt result := by
  cases pkt with
  | regCook p => exact ⟨_, rfl, .registered p⟩
  | regCustomer => exact ⟨_, rfl, .customer⟩
  | other type => exact ⟨_, rfl, .other type⟩
  | custOrder p =>
      rcases UserState.cook_or (s.record a).state with hstate | hstate
      · exact ⟨_, custOrderHandler_passed hrange hs.nodup hstate, .ordered p hrange hstate⟩
      · have hrefused : custOrderHandler s.server a p = some (s.server, []) := by
          rw [custOrderHandler, acceptOrder_refused p hstate]
        exact ⟨_, hrefused, .refused p hstate⟩
  | cookUpdate m =>
      by_cases hfound : ∃ cust, (s.record a).assignedClient = some cust ∧ s.Connected cust
      · obtain ⟨cust, hassigned, hcust⟩ := hfound
        have hne := (hs.record a ha).other cust hassigned
        exact ⟨_, congrArg some (cookUpdateHandler_hit hassigned hcust hne),
          .updated m cust hassigned hcust hne⟩
      · have hmiss : ∀ cust, (s.record a).assignedClient = some cust → ¬ s.Connected cust :=
          fun cust hassigned hcust => hfound ⟨cust, hassigned, hcust⟩
        exact ⟨_, congrArg some (cookUpdateHandler_miss hmiss), .missed m hmiss⟩

inductive Transition (s : OpenServer) : Arrival → OpenServer → Prop
  | accept {a : Addr} (hfree : ¬ s.Connected a) : Transition s (.accept a) (s.accept a)
  | packet {a : Addr} {pkt : Pkt} {result : Server × List Write} (hconn : s.Connected a)
      (hresult : handlerFuncDispatch s.server a pkt = some result)
      (hhandled : s.Handled a pkt result) :
      Transition s (.packet a pkt) (s.afterPacket a pkt result)
  | disconnect {a : Addr} (hconn : s.Connected a) :
      Transition s (.disconnect a) { s with server := bufferedOnError s.server a }

theorem transition_of_step {s s' : OpenServer} (hs : s.Valid) {e : Arrival}
    (hstep : s.step e = some s') : s.Transition e s' := by
  cases e with
  | accept a =>
      simp only [step, Option.ite_none_left_eq_some, Option.some.injEq] at hstep
      exact hstep.2 ▸ .accept hstep.1
  | packet a pkt =>
      simp only [step, Option.ite_none_right_eq_some, Option.map_eq_some_iff] at hstep
      obtain ⟨⟨hconn, hrange⟩, result, hresult, rfl⟩ := hstep
      obtain ⟨result', hresult', hhandled⟩ := dispatch_handled hs hconn hrange
      obtain rfl : result' = result := Option.some.inj (hresult'.symm.trans hresult)
      exact .packet hconn hresult hhandled
  | disconnect a =>
      simp only [step, Option.ite_none_right_eq_some, Option.some.injEq] at hstep
      exact hstep.2 ▸ .disconnect hstep.1

/-! ## The records after a packet -/

section Records

variable {s : OpenServer} {a b : Addr}

theorem orderResult_self (p : CustOrderPkt) :
    (s.orderResult a p).1.heap a =
      madeCustomer s.server.heap a p (searched s.server.heap a p s.server.clientTailq) :=
  passed_client _

@[simp] theorem record_accept_self : (s.accept a).record a = .zeroed := by
  simp [record, accept, onAccept]

theorem record_accept_of_ne (h : b ≠ a) : (s.accept a).record b = s.record b := by
  simp [record, accept, onAccept, h]

theorem connected_accept_of_ne (h : b ≠ a) : (s.accept a).Connected b ↔ s.Connected b := by
  simp [Connected, accept, onAccept, h]

theorem registered_self (p : RegCookPkt) :
    (regCookHandler s.server a p).heap a =
      { s.record a with
        state := .cookFree
        menuItems := fun i =>
          if p.declares i then .capable else (s.record a).menuItems i } :=
  Server.modify_heap_self ..

theorem registered_of_ne (hb : b ≠ a) (p : RegCookPkt) :
    (regCookHandler s.server a p).heap b = s.record b :=
  Server.modify_heap_of_ne hb _

theorem orderResult_of_ne (hs : s.Valid) (hb : b ≠ a) (p : CustOrderPkt) :
    (s.orderResult a p).1.heap b = s.record b ∨
      s.Connected b ∧ (s.record b).state = .cookFree ∧
        ((s.orderResult a p).1.heap b = { s.record b with assignedClient := some a } ∨
          ∃ o, (b, .cookOrder o) ∈ (s.orderResult a p).2 ∧
            (s.orderResult a p).1.heap b = servedCook a o (s.record b)) := by
  have hstart := searched_isPrefix s.server.heap a p s.server.clientTailq
  have hnodup := hs.nodup.sublist hstart.sublist
  cases hgets : gets s.server.heap a p (searched s.server.heap a p s.server.clientTailq) b
  · rcases passed_of_not_gets hb hgets with hsame | ⟨hmem, hfree, hlooked⟩
    · exact .inl hsame
    · exact .inr ⟨hstart.subset hmem, hfree, .inl hlooked⟩
  · obtain ⟨hmem, hfree⟩ := mem_of_gets hgets
    refine .inr ⟨hstart.subset hmem, hfree, .inr ⟨_, ?_, passed_of_gets hb hgets⟩⟩
    refine List.mem_append_left _ (mem_writesTo.mp ?_)
    rw [writesTo_passed hnodup, hgets, if_pos rfl]
    exact List.mem_singleton_self _

theorem mem_orderResult_writes {p : CustOrderPkt} {w : Write}
    (hw : w ∈ (s.orderResult a p).2) :
    w.1 = a ∨ s.Connected w.1 ∧ (s.record w.1).state = .cookFree := by
  have hstart := searched_isPrefix s.server.heap a p s.server.clientTailq
  rcases List.mem_append.mp hw with hw | hw
  · obtain ⟨b, hb, rfl⟩ := List.mem_map.mp hw
    obtain ⟨hmem, hfree⟩ := mem_of_gets (List.mem_filter.mp hb).2
    exact .inr ⟨hstart.subset hmem, hfree⟩
  · unfold notifyCustomer at hw
    split at hw
    · simp at hw
    · exact .inl (by rw [List.mem_singleton.mp hw])

theorem updateResult_self (cust : Addr) :
    (s.updateResult a cust).1.heap a = { s.record a with state := .cookFree } :=
  Function.update_self ..

theorem updateResult_cust {cust : Addr} (hne : a ≠ cust) :
    (s.updateResult a cust).1.heap cust = s.completedCustomer a cust := by
  simp [updateResult, hne.symm]

theorem updateResult_of_ne {cust : Addr} (ha : b ≠ a) (hcust : b ≠ cust) :
    (s.updateResult a cust).1.heap b = s.record b := by
  simp [updateResult, ha, hcust]

end Records

/-! ## Every reachable state is valid -/

section Preservation

variable {s : OpenServer} {a b : Addr}

theorem RecordValid.append {received : List Pkt} {c : Client}
    (h : RecordValid a received c) (pkts : List Pkt) :
    RecordValid a (received ++ pkts) c where
  registered hstate := by
    obtain ⟨p, hp⟩ := h.registered hstate
    exact ⟨p, List.mem_append_left _ hp⟩
  idle := h.idle
  other := h.other

theorem recordValid_orderResult (hs : s.Valid) (ha : s.Connected a)
    (hb : s.Connected b) {p : CustOrderPkt}
    (hstate : (s.record a).state = .unknown ∨ (s.record a).state = .customer) :
    RecordValid b (s.received b) ((s.orderResult a p).1.heap b) := by
  by_cases hba : b = a
  · subst hba
    have hnone := (hs.record b ha).idle hstate
    have hassigned : ((s.orderResult b p).1.heap b).assignedClient = none := by
      rw [orderResult_self]
      exact hnone
    refine ⟨?_, fun _ => hassigned, fun cust hcust => ?_⟩
    · rw [orderResult_self]
      simp [madeCustomer, orderedClient]
    · rw [hassigned] at hcust
      exact absurd hcust (by simp)
  · have hold := hs.record b hb
    rcases orderResult_of_ne hs hba p with hsame | ⟨-, hfree, hnew⟩
    · rw [hsame]
      exact hold
    · have hcook := hold.registered (.inl hfree)
      rcases hnew with hlooked | ⟨o, -, hserved⟩
      · rw [hlooked]
        exact ⟨fun _ => hcook, by simp [hfree], by simpa using hba⟩
      · rw [hserved]
        exact ⟨fun _ => hcook, by simp [servedCook], by simpa [servedCook] using hba⟩

theorem recordValid_updateResult (hs : s.Valid) (ha : s.Connected a)
    (hb : s.Connected b) {cust : Addr}
    (hassigned : (s.record a).assignedClient = some cust) (hne : a ≠ cust) :
    RecordValid b (s.received b) ((s.updateResult a cust).1.heap b) := by
  have hold := hs.record b hb
  by_cases hba : b = a
  · subst hba
    have hcook : (s.record b).state = .cookFree ∨ (s.record b).state = .cookBusy := by
      refine (UserState.cook_or _).resolve_left fun hidle => ?_
      rw [hold.idle hidle] at hassigned
      exact absurd hassigned (by simp)
    rw [updateResult_self]
    exact ⟨fun _ => hold.registered hcook, by simp, hold.other⟩
  by_cases hbc : b = cust
  · subst hbc
    rw [updateResult_cust hne]
    exact ⟨hold.registered, hold.idle, hold.other⟩
  · rw [updateResult_of_ne hba hbc]
    exact hold

theorem Handled.clientTailq {pkt : Pkt} {result : Server × List Write}
    (h : s.Handled a pkt result) : result.1.clientTailq = s.server.clientTailq := by
  cases h <;> rfl

theorem Handled.connected {pkt : Pkt} {result : Server × List Write}
    (h : s.Handled a pkt result) :
    (s.afterPacket a pkt result).Connected b ↔ s.Connected b := by
  simp [Connected, afterPacket, h.clientTailq]

theorem valid_afterPacket (hs : s.Valid) (ha : s.Connected a) {pkt : Pkt}
    {result : Server × List Write} (h : s.Handled a pkt result) :
    (s.afterPacket a pkt result).Valid := by
  refine ⟨by simpa [afterPacket, h.clientTailq] using hs.nodup, fun b hb => ?_⟩
  rw [h.connected] at hb
  have hold := hs.record b hb
  have hreceived : (s.afterPacket a pkt result).received b =
      s.received b ++ if b = a then [pkt] else [] := by
    by_cases hba : b = a
    · subst hba
      simp [afterPacket]
    · simp [afterPacket, hba]
  change RecordValid b _ (result.1.heap b)
  rw [hreceived]
  cases h with
  | registered p =>
      by_cases hba : b = a
      · subst hba
        rw [registered_self, if_pos rfl]
        exact ⟨fun _ => ⟨p, by simp⟩, by simp, hold.other⟩
      · rw [registered_of_ne hba]
        exact hold.append _
  | ordered p hrange hstate => exact (recordValid_orderResult hs ha hb hstate).append _
  | updated m cust hassigned hcust hne =>
      exact (recordValid_updateResult hs ha hb hassigned hne).append _
  | customer | refused | missed | other => exact hold.append _

theorem valid_step {s s' : OpenServer} (hs : s.Valid) {e : Arrival}
    (hstep : s.step e = some s') : s'.Valid := by
  cases transition_of_step hs hstep with
  | packet hconn _ hhandled => exact valid_afterPacket hs hconn hhandled
  | @accept a hfree =>
      refine ⟨?_, fun b hb => ?_⟩
      · have hnot : ∀ b ∈ s.server.clientTailq, b ≠ a := fun b hb heq => hfree (heq ▸ hb)
        simpa [accept, onAccept, List.nodup_append, hs.nodup] using hnot
      · by_cases hba : b = a
        · subst hba
          rw [record_accept_self]
          constructor <;> simp
        · rw [record_accept_of_ne hba]
          simpa [accept, hba] using hs.record b ((connected_accept_of_ne hba).mp hb)
  | disconnect hconn =>
      exact ⟨hs.nodup.erase _, fun b hb => hs.record b (List.mem_of_mem_erase hb)⟩

theorem valid_of_run {events : List Arrival} (hrun : run step initial events = some s) :
    s.Valid :=
  run_invariant (C := fun _ _ => True) (fun _ _ _ hs _ => valid_step hs) initial_valid
    (AllSteps.of_forall (fun _ _ => trivial) _ _) hrun

end Preservation

end OpenServer

end SysprogTeam3.FoodSys
