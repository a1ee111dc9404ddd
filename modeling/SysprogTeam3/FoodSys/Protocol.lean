import SysprogTeam3.FoodSys.System

/-!
# The phases of a connection

Every connected client is in one of eight phases, which fix the state in its
record, its `assigned_client` and the packets in flight.  In a state where this
holds, `Transition` lists everything a step can do; the invariants of the later
files are proved by cases on it.
-/

namespace SysprogTeam3.FoodSys

open SysprogTeam3.Foundation

/--
The phases of the client at `a`: what it opened with, the state and the
`assigned_client` in its record, the packets in flight to the server, and the
orders in flight to it.
-/
inductive Phase (a : Addr) : Peer → UserState → Option Addr →
    List Request → List Ticket → Prop
  | silent : Phase a .silent .unknown none [] []
  | ordering (p : CustOrderPkt) (hrange : p.inRange) :
      Phase a (.customer p) .unknown none [.custOrder p] []
  | ordered (p : CustOrderPkt) : Phase a (.customer p) .customer none [] []
  | registering (p : RegCookPkt) :
      Phase a (.cook p) .unknown none [.regCook p] []
  | free (p : RegCookPkt) (cust : Option Addr) :
      Phase a (.cook p) .cookFree cust [] []
  | cooking (p : RegCookPkt) (t : Ticket) (hne : t.cust ≠ a) :
      Phase a (.cook p) .cookBusy (some t.cust) [] [t]
  | answered (p : RegCookPkt) (m : CookUpdatePkt) (t : Ticket)
      (hne : t.cust ≠ a) :
      Phase a (.cook p) .cookBusy (some t.cust) [.cookUpdate m t] []
  /-- The update was handled when the customer was gone. -/
  | stuck (p : RegCookPkt) (cust : Addr) :
      Phase a (.cook p) .cookBusy (some cust) [] []

theorem Phase.cook_of_unread {a : Addr} {peer : Peer} {state : UserState}
    {assigned : Option Addr} {request : List Request} {unread : List Ticket}
    (h : Phase a peer state assigned request unread) {t : Ticket}
    (ht : t ∈ unread) : ∃ p, peer = .cook p := by
  cases h with
  | cooking p => exact ⟨p, rfl⟩
  | _ => simp at ht

namespace System

def InPhase (s : System) (a : Addr) : Prop :=
  Phase a (s.peer a) (s.record a).state (s.record a).assignedClient
    (s.toServer a) (s.unreadOrders a)

structure WellFormed (s : System) : Prop where
  nodup : s.server.clientTailq.Nodup
  phase : ∀ a, s.Connected a → s.InPhase a

theorem initial_wellFormed : initial.WellFormed where
  nodup := by simp [initial]
  phase := by simp [initial, Connected]

/-! ## Orders in flight -/

def grantTickets (s : System) (a : Addr) (grants : List Grant) (b : Addr) :
    List Ticket :=
  grants.filterMap fun g => if g.1 = b then some ⟨a, s.conn a, g.2⟩ else none

theorem mem_grantTickets {s : System} {a b : Addr} {grants : List Grant}
    {t : Ticket} :
    t ∈ s.grantTickets a grants b ↔
      ∃ p, (b, p) ∈ grants ∧ t = ⟨a, s.conn a, p⟩ := by
  simp only [grantTickets, List.mem_filterMap, Option.ite_none_right_eq_some,
    Option.some.injEq]
  constructor
  · rintro ⟨⟨b', p⟩, hg, rfl, rfl⟩
    exact ⟨p, hg, rfl⟩
  · rintro ⟨p, hg, rfl⟩
    exact ⟨(b, p), hg, rfl, rfl⟩

theorem grantTickets_of_not_mem {s : System} {a b : Addr} {grants : List Grant}
    (h : b ∉ grants.map Prod.fst) : s.grantTickets a grants b = [] := by
  refine List.eq_nil_iff_forall_not_mem.mpr fun t ht => ?_
  obtain ⟨p, hg, -⟩ := mem_grantTickets.mp ht
  exact h (List.mem_map_of_mem hg)

theorem grantTickets_of_mem {s : System} {a b : Addr} {grants : List Grant}
    {p : CookOrderPkt} (hnodup : (grants.map Prod.fst).Nodup)
    (hmem : (b, p) ∈ grants) :
    s.grantTickets a grants b = [⟨a, s.conn a, p⟩] := by
  induction grants with
  | nil => simp at hmem
  | cons g grants ih =>
      rw [List.map_cons, List.nodup_cons] at hnodup
      obtain heq | hmem := List.mem_cons.mp hmem
      · subst heq
        have hrest := grantTickets_of_not_mem (s := s) (a := a) hnodup.1
        simpa [grantTickets] using hrest
      · have hne : g.1 ≠ b := by
          rintro rfl
          exact hnodup.1 (List.mem_map.mpr ⟨_, hmem, rfl⟩)
        have hrest := ih hnodup.2 hmem
        simpa [grantTickets, hne] using hrest

theorem tickets_grants (s : System) (a b : Addr) (grants : List Grant) :
    ((writesTo (grants.map Grant.write) b).map (s.delivery a)).filterMap
        Delivery.ticket? = s.grantTickets a grants b := by
  induction grants with
  | nil => rfl
  | cons g grants ih =>
      simp only [writesTo, List.map_cons, List.filterMap_cons, Grant.write,
        grantTickets] at ih ⊢
      by_cases h : g.1 = b
      · simpa [h, delivery, Delivery.ticket?] using ih
      · simpa [h] using ih

def NoOrders (writes : List Write) : Prop :=
  ∀ w ∈ writes, ∃ p, w.2 = .custUpdate p

theorem noOrders_nil : NoOrders [] := by simp [NoOrders]

theorem noOrders_notifyCustomer (heap : Heap) (a : Addr) (n : Nat) :
    NoOrders (notifyCustomer heap a n) := by
  unfold NoOrders notifyCustomer
  split <;> simp

theorem noOrders_completionWrites (a : Addr) (c : Client) :
    NoOrders (completionWrites a c) := by
  unfold NoOrders completionWrites
  split <;> simp

theorem tickets_of_noOrders {writes : List Write} (h : NoOrders writes)
    (s : System) (a b : Addr) :
    ((writesTo writes b).map (s.delivery a)).filterMap Delivery.ticket? = [] := by
  refine List.eq_nil_iff_forall_not_mem.mpr fun t ht => ?_
  simp only [List.mem_filterMap, List.mem_map, writesTo] at ht
  obtain ⟨d, ⟨pkt, ⟨w, hw, hpkt⟩, rfl⟩, hd⟩ := ht
  obtain ⟨p, hp⟩ := h w hw
  split at hpkt
  · simp only [Option.some.injEq] at hpkt
    rw [← hpkt, hp] at hd
    simp [delivery, Delivery.ticket?] at hd
  · simp at hpkt

/-! ## Transitions -/

def afterOrder (s : System) (a : Addr) (heap : Heap) (grants : List Grant)
    (ordersAssigned : Nat) : System :=
  s.afterHandler a ({ s.server with heap := heap },
    grants.map Grant.write ++ notifyCustomer heap a ordersAssigned)

def completedCustomer (s : System) (a cust : Addr) : Client :=
  completeItems (s.record a).menuItems (s.record cust)

def afterUpdate (s : System) (a cust : Addr) : System :=
  s.afterHandler a
    ({ s.server with
        heap := Function.update
          (Function.update s.server.heap cust (s.completedCustomer a cust))
          a { s.record a with state := .cookFree } },
      completionWrites cust (s.completedCustomer a cust))

structure Ordering (s : System) (a : Addr) (p : CustOrderPkt) (heap : Heap)
    (grants : List Grant) (ordersAssigned : Nat) : Prop where
  connected : s.Connected a
  peer : s.peer a = .customer p
  state : (s.record a).state = .unknown
  request : s.toServer a = [.custOrder p]
  inRange : p.inRange
  granted : Granted a s.server.clientTailq
    (Function.update s.server.heap a (orderedClient (s.record a) p)) heap grants
  assigned : ordersAssigned = 0 ↔ grants = []
  count : (heap a).numOfOrders = p.codes.length
  writes : s.writes (.handle a) =
    grants.map Grant.write ++ notifyCustomer heap a ordersAssigned

structure Updating (s : System) (a : Addr) (p : RegCookPkt) (m : CookUpdatePkt)
    (t : Ticket) : Prop where
  connected : s.Connected a
  peer : s.peer a = .cook p
  state : (s.record a).state = .cookBusy
  assigned : (s.record a).assignedClient = some t.cust
  request : s.toServer a = [.cookUpdate m t]
  unread : s.unreadOrders a = []
  other : t.cust ≠ a

inductive Transition (s : System) : Event → System → Prop
  | accept {a : Addr} (hfree : ¬ s.Connected a) :
      Transition s (.accept a) (s.accept a)
  | sendOrder {a : Addr} {p : CustOrderPkt} (hconn : s.Connected a)
      (hpeer : s.peer a = .silent) (hrange : p.inRange) :
      Transition s (.sendOrder a p) (s.introduce a (.customer p) (.custOrder p))
  | sendReg {a : Addr} {p : RegCookPkt} (hconn : s.Connected a)
      (hpeer : s.peer a = .silent) :
      Transition s (.sendReg a p) (s.introduce a (.cook p) (.regCook p))
  | readOrder {a : Addr} {message : Text} {p : RegCookPkt} {t : Ticket}
      {rest : List Delivery} (hconn : s.Connected a) (hpeer : s.peer a = .cook p)
      (hread : s.toClient a = .cookOrder t :: rest) :
      Transition s (.read a message)
        { s with
          toClient := Function.update s.toClient a rest
          toServer := Function.update s.toServer a
            (s.toServer a ++ [.cookUpdate ⟨message⟩ t]) }
  | readUpdate {a : Addr} {message : Text} {u : CustUpdatePkt}
      {rest : List Delivery} (hconn : s.Connected a)
      (hread : s.toClient a = .custUpdate u :: rest) :
      Transition s (.read a message)
        { s with toClient := Function.update s.toClient a rest }
  | register {a : Addr} {p : RegCookPkt} (hconn : s.Connected a)
      (hpeer : s.peer a = .cook p) (hstate : (s.record a).state = .unknown)
      (hrequest : s.toServer a = [.regCook p])
      (hwrites : s.writes (.handle a) = []) :
      Transition s (.handle a)
        (s.afterHandler a (regCookHandler s.server a p, []))
  | order {a : Addr} {p : CustOrderPkt} {heap : Heap} {grants : List Grant}
      {ordersAssigned : Nat} (h : s.Ordering a p heap grants ordersAssigned) :
      Transition s (.handle a) (s.afterOrder a heap grants ordersAssigned)
  | update {a : Addr} {p : RegCookPkt} {m : CookUpdatePkt} {t : Ticket}
      (h : s.Updating a p m t) (hcust : s.Connected t.cust)
      (hwrites : s.writes (.handle a) =
        completionWrites t.cust (s.completedCustomer a t.cust)) :
      Transition s (.handle a) (s.afterUpdate a t.cust)
  | orphan {a : Addr} {p : RegCookPkt} {m : CookUpdatePkt} {t : Ticket}
      (h : s.Updating a p m t) (hcust : ¬ s.Connected t.cust)
      (hwrites : s.writes (.handle a) = []) :
      Transition s (.handle a) (s.afterHandler a (s.server, []))
  | disconnect {a : Addr} (hconn : s.Connected a) :
      Transition s (.disconnect a) (s.disconnect a)

theorem unreadOrders_cons {s : System} {a : Addr} {t : Ticket}
    {rest : List Delivery} (h : s.toClient a = .cookOrder t :: rest) :
    s.unreadOrders a = t :: rest.filterMap Delivery.ticket? := by
  simp [unreadOrders, h, Delivery.ticket?]

theorem transition_read {s s' : System} (hs : s.WellFormed) {a : Addr}
    {message : Text} (hstep : s.step (.read a message) = some s') :
    s.Transition (.read a message) s' := by
  simp only [step, Option.ite_none_right_eq_some] at hstep
  obtain ⟨hconn, hstep⟩ := hstep
  cases hread : s.toClient a with
  | nil => simp [hread] at hstep
  | cons d rest =>
      simp only [hread, Option.some.injEq] at hstep
      cases d with
      | custUpdate u =>
          have hs' : s' = { s with toClient := Function.update s.toClient a rest } := by
            rw [← hstep]
            cases hpeer : s.peer a <;> simp [consume, reply, hpeer]
          exact hs' ▸ .readUpdate hconn hread
      | cookOrder t =>
          -- only a cook has an order to read
          obtain ⟨p, hpeer⟩ := (hs.phase a hconn).cook_of_unread
            (t := t) (by simp [unreadOrders_cons hread])
          simp only [consume, hpeer, reply] at hstep
          exact hstep ▸ .readOrder hconn hpeer hread

theorem transition_handle {s s' : System} (hs : s.WellFormed) {a : Addr}
    (hstep : s.step (.handle a) = some s') : s.Transition (.handle a) s' := by
  simp only [step, Option.ite_none_right_eq_some, Option.map_eq_some_iff] at hstep
  obtain ⟨hconn, result, hresult, rfl⟩ := hstep
  have hwrites : s.writes (.handle a) = result.2 := by simp [writes, hresult]
  have hphase := hs.phase a hconn
  unfold InPhase at hphase
  generalize hpeer : s.peer a = peer at hphase
  generalize hstate : (s.record a).state = state at hphase
  generalize hassigned : (s.record a).assignedClient = assigned at hphase
  generalize hrequest : s.toServer a = request at hphase
  generalize hunread : s.unreadOrders a = unread at hphase
  cases hphase with
  | silent => simp [handled, hrequest] at hresult
  | ordered p => simp [handled, hrequest] at hresult
  | free p cust => simp [handled, hrequest] at hresult
  | cooking p t hne => simp [handled, hrequest] at hresult
  | stuck p cust => simp [handled, hrequest] at hresult
  | registering p =>
      simp only [handled, hrequest, Request.pkt, handlerFuncDispatch,
        Option.some.injEq] at hresult
      subst hresult
      exact .register hconn hpeer hstate hrequest hwrites
  | ordering p hrange =>
      obtain ⟨heap, grants, n, heq, hgranted, hn, hcount⟩ :=
        custOrderHandler_eq hrange hs.nodup (.inl hstate)
      simp only [handled, hrequest, Request.pkt, handlerFuncDispatch, heq,
        Option.some.injEq] at hresult
      subst hresult
      exact .order
        ⟨hconn, hpeer, hstate, hrequest, hrange, hgranted, hn, hcount, hwrites⟩
  | answered p m t hne =>
      have hupdating : s.Updating a p m t :=
        ⟨hconn, hpeer, hstate, hassigned, hrequest, hunread, hne⟩
      simp only [handled, hrequest, Request.pkt, handlerFuncDispatch,
        Option.some.injEq] at hresult
      by_cases hcust : s.Connected t.cust
      · rw [cookUpdateHandler_hit hassigned hcust hne.symm] at hresult
        subst hresult
        exact .update hupdating hcust hwrites
      · rw [cookUpdateHandler_miss fun cust hc => by
          rw [hassigned, Option.some.injEq] at hc
          exact hc ▸ hcust] at hresult
        subst hresult
        exact .orphan hupdating hcust hwrites

theorem transition_of_step {s s' : System} (hs : s.WellFormed) {e : Event}
    (hstep : s.step e = some s') : s.Transition e s' := by
  cases e with
  | read a message => exact transition_read hs hstep
  | handle a => exact transition_handle hs hstep
  | accept a =>
      simp only [step, Option.ite_none_left_eq_some, Option.some.injEq] at hstep
      exact hstep.2 ▸ .accept hstep.1
  | sendOrder a p =>
      simp only [step, Option.ite_none_right_eq_some, Option.some.injEq] at hstep
      obtain ⟨⟨hconn, hpeer, hrange⟩, rfl⟩ := hstep
      exact .sendOrder hconn hpeer hrange
  | sendReg a p =>
      simp only [step, Option.ite_none_right_eq_some, Option.some.injEq] at hstep
      obtain ⟨⟨hconn, hpeer⟩, rfl⟩ := hstep
      exact .sendReg hconn hpeer
  | disconnect a =>
      simp only [step, Option.ite_none_right_eq_some, Option.some.injEq] at hstep
      exact hstep.2 ▸ .disconnect hstep.1

/-! ## Projections of the next state -/

@[simp] theorem accept_connected {s : System} {a b : Addr} :
    (s.accept a).Connected b ↔ s.Connected b ∨ b = a := by
  simp [Connected, accept, onAccept]

theorem disconnect_connected {s : System} (h : s.WellFormed) {a b : Addr} :
    (s.disconnect a).Connected b ↔ b ≠ a ∧ s.Connected b := by
  simp [Connected, disconnect, bufferedOnError, h.nodup.mem_erase_iff]

@[simp] theorem record_accept_self {s : System} {a : Addr} :
    (s.accept a).record a = .zeroed := by
  simp [record, accept, onAccept]

theorem record_accept_of_ne {s : System} {a b : Addr} (h : b ≠ a) :
    (s.accept a).record b = s.record b := by
  simp [record, accept, onAccept, h]

theorem conn_accept_of_ne {s : System} {a b : Addr} (h : b ≠ a) :
    (s.accept a).conn b = s.conn b := by
  simp [accept, h]

theorem record_register_self {s : System} {a : Addr} {p : RegCookPkt} :
    (s.afterHandler a (regCookHandler s.server a p, [])).record a =
      { s.record a with
        state := .cookFree
        menuItems := fun i =>
          if p.declares i then .capable else (s.record a).menuItems i } := by
  simp [record, afterHandler, regCookHandler]

theorem record_register_of_ne {s : System} {a b : Addr} {p : RegCookPkt}
    (h : b ≠ a) :
    (s.afterHandler a (regCookHandler s.server a p, [])).record b = s.record b := by
  simp [record, afterHandler, regCookHandler, Server.modify_heap_of_ne h]

theorem unreadOrders_afterHandler {s : System} {a b : Addr} {sv : Server}
    {writes : List Write} (hnone : NoOrders writes) :
    (s.afterHandler a (sv, writes)).unreadOrders b = s.unreadOrders b := by
  simp [unreadOrders, afterHandler, tickets_of_noOrders hnone]

@[simp] theorem unreadOrders_afterOrder {s : System} {a b : Addr} {heap : Heap}
    {grants : List Grant} {n : Nat} :
    (s.afterOrder a heap grants n).unreadOrders b =
      s.unreadOrders b ++ s.grantTickets a grants b := by
  simp only [unreadOrders, afterOrder, afterHandler, List.filterMap_append,
    writesTo_append, List.map_append, tickets_grants,
    tickets_of_noOrders (noOrders_notifyCustomer heap a n), List.append_nil]

@[simp] theorem unreadOrders_afterUpdate {s : System} {a b cust : Addr} :
    (s.afterUpdate a cust).unreadOrders b = s.unreadOrders b :=
  unreadOrders_afterHandler (noOrders_completionWrites _ _)

@[simp] theorem record_afterOrder {s : System} {a b : Addr} {heap : Heap}
    {grants : List Grant} {n : Nat} :
    (s.afterOrder a heap grants n).record b = heap b := rfl

theorem ne_of_state {s : System} {a b : Addr} {u v : UserState}
    (ha : (s.record a).state = u) (hb : (s.record b).state = v) (huv : u ≠ v) :
    a ≠ b := by
  rintro rfl
  exact huv (ha.symm.trans hb)

theorem record_afterUpdate_self {s : System} {a cust : Addr} :
    (s.afterUpdate a cust).record a = { s.record a with state := .cookFree } := by
  simp [record, afterUpdate, afterHandler]

theorem record_afterUpdate_cust {s : System} {a cust : Addr} (hne : cust ≠ a) :
    (s.afterUpdate a cust).record cust = s.completedCustomer a cust := by
  simp [record, afterUpdate, afterHandler, hne]

theorem record_afterUpdate_of_ne {s : System} {a b cust : Addr} (ha : b ≠ a)
    (hcust : b ≠ cust) : (s.afterUpdate a cust).record b = s.record b := by
  simp [record, afterUpdate, afterHandler, ha, hcust]

namespace Ordering

variable {s : System} {a : Addr} {p : CustOrderPkt} {heap : Heap}
  {grants : List Grant} {n : Nat}

theorem record_self (h : s.Ordering a p heap grants n) :
    heap a = grantedCustomer grants (orderedClient (s.record a) p) := by
  rw [h.granted.customer, Function.update_self]

theorem granted_cook (h : s.Ordering a p heap grants n) {b : Addr}
    {q : CookOrderPkt} (hmem : (b, q) ∈ grants) :
    b ≠ a ∧ s.Connected b ∧ (s.record b).state = .cookFree := by
  obtain ⟨hconn, hfree⟩ := h.granted.free _ hmem
  have hne : b ≠ a := by
    rintro rfl
    simp [orderedClient] at hfree
  rw [Function.update_of_ne hne] at hfree
  exact ⟨hne, hconn, hfree⟩

theorem record_granted (h : s.Ordering a p heap grants n) {b : Addr}
    {q : CookOrderPkt} (hmem : (b, q) ∈ grants) :
    heap b = servedCook a q (s.record b) := by
  rw [h.granted.served _ hmem, Function.update_of_ne (h.granted_cook hmem).1]

theorem record_others (h : s.Ordering a p heap grants n) {b : Addr} (hne : b ≠ a)
    (hnot : b ∉ grants.map Prod.fst) :
    heap b = s.record b ∨ (s.record b).state = .cookFree ∧
      heap b = { s.record b with assignedClient := some a } := by
  obtain hsame | ⟨-, hfree, heq⟩ := h.granted.others b hne hnot
  · exact .inl (by rw [hsame, Function.update_of_ne hne])
  · rw [Function.update_of_ne hne] at hfree heq
    exact .inr ⟨hfree, heq⟩

theorem record_of_not_free (h : s.Ordering a p heap grants n) {b : Addr}
    (hne : b ≠ a) (hbusy : (s.record b).state ≠ .cookFree) :
    heap b = s.record b := by
  obtain hsame | ⟨hfree, -⟩ := h.record_others hne fun hmem => by
    obtain ⟨⟨b', q⟩, hg, rfl⟩ := List.mem_map.mp hmem
    exact hbusy (h.granted_cook hg).2.2
  · exact hsame
  · exact absurd hfree hbusy

theorem grantTickets_self (h : s.Ordering a p heap grants n) :
    s.grantTickets a grants a = [] := by
  refine grantTickets_of_not_mem fun hmem => ?_
  obtain ⟨⟨b, q⟩, hg, rfl⟩ := List.mem_map.mp hmem
  exact (h.granted_cook hg).1 rfl

end Ordering

/-! ## Preservation -/

theorem InPhase.congr {s s' : System} {a : Addr} (h : s.InPhase a)
    (hpeer : s'.peer a = s.peer a)
    (hstate : (s'.record a).state = (s.record a).state)
    (hassigned : (s'.record a).assignedClient = (s.record a).assignedClient)
    (hrequest : s'.toServer a = s.toServer a)
    (hunread : s'.unreadOrders a = s.unreadOrders a) : s'.InPhase a := by
  unfold InPhase at h ⊢
  rw [hpeer, hstate, hassigned, hrequest, hunread]
  exact h

theorem InPhase.of_eq {s : System} {a : Addr} {peer : Peer} {state : UserState}
    {assigned : Option Addr} {request : List Request} {unread : List Ticket}
    (h : Phase a peer state assigned request unread) (hpeer : s.peer a = peer)
    (hstate : (s.record a).state = state)
    (hassigned : (s.record a).assignedClient = assigned)
    (hrequest : s.toServer a = request) (hunread : s.unreadOrders a = unread) :
    s.InPhase a := by
  subst hpeer hstate hassigned hrequest hunread
  exact h

theorem InPhase.of_silent {s : System} {a : Addr} (h : s.InPhase a)
    (hpeer : s.peer a = .silent) :
    (s.record a).state = .unknown ∧ (s.record a).assignedClient = none ∧
      s.toServer a = [] ∧ s.unreadOrders a = [] := by
  unfold InPhase at h
  rw [hpeer] at h
  generalize (s.record a).state = state, (s.record a).assignedClient = assigned,
    s.toServer a = request, s.unreadOrders a = unread at h
  cases h
  simp

theorem InPhase.of_unread {s : System} {a : Addr} (h : s.InPhase a) {t : Ticket}
    {rest : List Ticket} (hunread : s.unreadOrders a = t :: rest) :
    (s.record a).state = .cookBusy ∧
      (s.record a).assignedClient = some t.cust ∧ s.toServer a = [] ∧
      rest = [] ∧ t.cust ≠ a := by
  unfold InPhase at h
  rw [hunread] at h
  generalize s.peer a = peer, (s.record a).state = state,
    (s.record a).assignedClient = assigned, s.toServer a = request at h
  cases h with
  | cooking p _ hne => exact ⟨rfl, rfl, rfl, rfl, hne⟩

theorem InPhase.of_free {s : System} {a : Addr} (h : s.InPhase a)
    (hstate : (s.record a).state = .cookFree) :
    ∃ p, s.peer a = .cook p ∧ s.toServer a = [] ∧ s.unreadOrders a = [] := by
  unfold InPhase at h
  rw [hstate] at h
  generalize s.peer a = peer, (s.record a).assignedClient = assigned,
    s.toServer a = request, s.unreadOrders a = unread at h
  cases h with
  | free p => exact ⟨p, rfl, rfl, rfl⟩

theorem wellFormed_accept {s : System} (hs : s.WellFormed) {a : Addr}
    (hfree : ¬ s.Connected a) : (s.accept a).WellFormed where
  nodup := by
    simpa [accept, onAccept, List.nodup_append] using
      ⟨hs.nodup, fun b hb hba => hfree (hba ▸ hb)⟩
  phase := by
    intro b hb
    by_cases hba : b = a
    · subst hba
      exact .of_eq .silent (by simp [accept]) (by simp) (by simp)
        (by simp [accept]) (by simp [unreadOrders, accept])
    · have hconn : s.Connected b := by simpa [hba] using hb
      have hrecord := record_accept_of_ne (s := s) hba
      exact (hs.phase b hconn).congr (by simp [accept, hba]) (by rw [hrecord])
        (by rw [hrecord]) (by simp [accept, hba])
        (by simp [unreadOrders, accept, hba])

theorem wellFormed_introduce {s : System} (hs : s.WellFormed) {a : Addr}
    {peer : Peer} {r : Request} (hconn : s.Connected a)
    (hpeer : s.peer a = .silent)
    (hphase : Phase a peer .unknown none [r] []) :
    (s.introduce a peer r).WellFormed where
  nodup := hs.nodup
  phase := by
    intro b hb
    by_cases hba : b = a
    · subst hba
      obtain ⟨hstate, hassigned, hrequest, hunread⟩ :=
        (hs.phase b hconn).of_silent hpeer
      exact .of_eq hphase (by simp [introduce]) hstate hassigned
        (by simp [introduce, hrequest]) hunread
    · exact (hs.phase b hb).congr (by simp [introduce, hba]) rfl rfl
        (by simp [introduce, hba]) rfl

theorem wellFormed_readOrder {s : System} (hs : s.WellFormed) {a : Addr}
    {message : Text} {p : RegCookPkt} {t : Ticket} {rest : List Delivery}
    (hconn : s.Connected a) (hpeer : s.peer a = .cook p)
    (hread : s.toClient a = .cookOrder t :: rest) :
    WellFormed
      { s with
        toClient := Function.update s.toClient a rest
        toServer := Function.update s.toServer a
          (s.toServer a ++ [.cookUpdate ⟨message⟩ t]) } where
  nodup := hs.nodup
  phase := by
    intro b hb
    by_cases hba : b = a
    · subst hba
      obtain ⟨hstate, hassigned, hrequest, hrest, hne⟩ :=
        (hs.phase b hconn).of_unread (unreadOrders_cons hread)
      exact .of_eq (.answered p ⟨message⟩ t hne) hpeer hstate hassigned
        (by simp [hrequest]) (by simpa [unreadOrders] using hrest)
    · exact (hs.phase b hb).congr rfl rfl rfl (by simp [hba])
        (by simp [unreadOrders, hba])

theorem wellFormed_readUpdate {s : System} (hs : s.WellFormed) {a : Addr}
    {u : CustUpdatePkt} {rest : List Delivery}
    (hread : s.toClient a = .custUpdate u :: rest) :
    WellFormed { s with toClient := Function.update s.toClient a rest } where
  nodup := hs.nodup
  phase := by
    intro b hb
    refine (hs.phase b hb).congr rfl rfl rfl rfl ?_
    by_cases hba : b = a
    · subst hba
      simp [unreadOrders, hread, List.filterMap_cons, Delivery.ticket?]
    · simp [unreadOrders, hba]

theorem wellFormed_register {s : System} (hs : s.WellFormed) {a : Addr}
    {p : RegCookPkt} (hconn : s.Connected a) (hpeer : s.peer a = .cook p)
    (hrequest : s.toServer a = [.regCook p])
    (hunread : s.unreadOrders a = []) :
    (s.afterHandler a (regCookHandler s.server a p, [])).WellFormed where
  nodup := hs.nodup
  phase := by
    intro b hb
    have hunread' : (s.afterHandler a
        (regCookHandler s.server a p, [])).unreadOrders b = s.unreadOrders b :=
      unreadOrders_afterHandler noOrders_nil
    by_cases hba : b = a
    · subst hba
      exact .of_eq (.free p _) hpeer (by rw [record_register_self]) rfl
        (by simp [afterHandler, hrequest]) (hunread'.trans hunread)
    · have hrecord := record_register_of_ne (s := s) (p := p) hba
      exact (hs.phase b hb).congr rfl (by rw [hrecord]) (by rw [hrecord])
        (by simp [afterHandler, hba]) hunread'

theorem wellFormed_order {s : System} (hs : s.WellFormed) {a : Addr}
    {p : CustOrderPkt} {heap : Heap} {grants : List Grant} {n : Nat}
    (h : s.Ordering a p heap grants n)
    (hassigned : (s.record a).assignedClient = none)
    (hunread : s.unreadOrders a = []) :
    (s.afterOrder a heap grants n).WellFormed where
  nodup := hs.nodup
  phase := by
    intro b hb
    by_cases hba : b = a
    · subst hba
      refine .of_eq (.ordered p) h.peer ?_ ?_ ?_ ?_
      · simp [h.record_self, grantedCustomer, orderedClient]
      · simpa [h.record_self, grantedCustomer, orderedClient] using hassigned
      · simp [afterOrder, afterHandler, h.request]
      · simp [hunread, h.grantTickets_self]
    · have hrequest : (s.afterOrder a heap grants n).toServer b = s.toServer b := by
        simp [afterOrder, afterHandler, hba]
      by_cases hmem : b ∈ grants.map Prod.fst
      · obtain ⟨⟨b', q⟩, hg, rfl⟩ := List.mem_map.mp hmem
        obtain ⟨hne, hconn, hfree⟩ := h.granted_cook hg
        obtain ⟨r, hpeer, hreq, hunread'⟩ := (hs.phase _ hconn).of_free hfree
        have hrecord := h.record_granted hg
        exact .of_eq (.cooking r ⟨a, s.conn a, q⟩ hne.symm) hpeer
          (by simp [hrecord, servedCook]) (by simp [hrecord, servedCook])
          (by simp [hrequest, hreq])
          (by simp [hunread', grantTickets_of_mem h.granted.nodup hg])
      · have hunread' : (s.afterOrder a heap grants n).unreadOrders b =
            s.unreadOrders b := by
          simp [grantTickets_of_not_mem hmem]
        obtain hsame | ⟨hfree, hlooked⟩ := h.record_others hba hmem
        · exact (hs.phase b hb).congr rfl (by simp [hsame]) (by simp [hsame])
            hrequest hunread'
        · obtain ⟨r, hpeer, hreq, hun⟩ := (hs.phase b hb).of_free hfree
          exact .of_eq (.free r (some a)) hpeer (by simp [hlooked, hfree])
            (by simp [hlooked]) (hrequest.trans hreq) (hunread'.trans hun)

theorem wellFormed_update {s : System} (hs : s.WellFormed) {a : Addr}
    {p : RegCookPkt} {m : CookUpdatePkt} {t : Ticket} (h : s.Updating a p m t) :
    (s.afterUpdate a t.cust).WellFormed where
  nodup := hs.nodup
  phase := by
    intro b hb
    by_cases hba : b = a
    · subst hba
      exact .of_eq (.free p _) h.peer (by simp [record_afterUpdate_self]) rfl
        (by simp [afterUpdate, afterHandler, h.request]) (by simp [h.unread])
    · have hrecord : ((s.afterUpdate a t.cust).record b).state =
            (s.record b).state ∧
          ((s.afterUpdate a t.cust).record b).assignedClient =
            (s.record b).assignedClient := by
        by_cases hcust : b = t.cust
        · subst hcust
          simp [record_afterUpdate_cust h.other, completedCustomer, completeItems]
        · simp [record_afterUpdate_of_ne hba hcust]
      exact (hs.phase b hb).congr rfl hrecord.1 hrecord.2
        (by simp [afterUpdate, afterHandler, hba]) (by simp)

theorem wellFormed_orphan {s : System} (hs : s.WellFormed) {a : Addr}
    {p : RegCookPkt} {m : CookUpdatePkt} {t : Ticket} (h : s.Updating a p m t) :
    (s.afterHandler a (s.server, [])).WellFormed where
  nodup := hs.nodup
  phase := by
    intro b hb
    have hunread : (s.afterHandler a (s.server, [])).unreadOrders b =
        s.unreadOrders b := unreadOrders_afterHandler noOrders_nil
    by_cases hba : b = a
    · subst hba
      exact .of_eq (.stuck p t.cust) h.peer h.state h.assigned
        (by simp [afterHandler, h.request]) (hunread.trans h.unread)
    · exact (hs.phase b hb).congr rfl rfl rfl (by simp [afterHandler, hba]) hunread

theorem wellFormed_disconnect {s : System} (hs : s.WellFormed) {a : Addr} :
    (s.disconnect a).WellFormed where
  nodup := hs.nodup.erase a
  phase := by
    intro b hb
    obtain ⟨hba, hconn⟩ := (disconnect_connected hs).mp hb
    exact (hs.phase b hconn).congr rfl rfl rfl (by simp [disconnect, hba])
      (by simp [unreadOrders, disconnect, hba])

theorem InPhase.of_unknown {s : System} {a : Addr} (h : s.InPhase a)
    (hstate : (s.record a).state = .unknown) :
    (s.record a).assignedClient = none ∧ s.unreadOrders a = [] := by
  unfold InPhase at h
  rw [hstate] at h
  generalize s.peer a = peer, (s.record a).assignedClient = assigned,
    s.toServer a = request, s.unreadOrders a = unread at h
  cases h <;> simp

theorem updating_of_handlesUpdate {s s' : System} (hs : s.WellFormed) {e : Event}
    {a : Addr} (hupdate : s.HandlesUpdate e a) (hstep : s.step e = some s') :
    ∃ p m t, s.Updating a p m t ∧
      (s.Connected t.cust ∧ s' = s.afterUpdate a t.cust ∨
        ¬ s.Connected t.cust ∧ s' = s.afterHandler a (s.server, [])) := by
  obtain ⟨rfl, m, t, rest, hrequest⟩ := hupdate
  cases transition_of_step hs hstep with
  | register hconn hpeer hstate hreq => simp [hreq] at hrequest
  | order h => simp [h.request] at hrequest
  | update h hcust => exact ⟨_, _, _, h, .inl ⟨hcust, rfl⟩⟩
  | orphan h hcust => exact ⟨_, _, _, h, .inr ⟨hcust, rfl⟩⟩

theorem wellFormed_step {s s' : System} (hs : s.WellFormed) {e : Event}
    (hstep : s.step e = some s') : s'.WellFormed := by
  cases transition_of_step hs hstep with
  | accept hfree => exact wellFormed_accept hs hfree
  | sendOrder hconn hpeer hrange =>
      exact wellFormed_introduce hs hconn hpeer (.ordering _ hrange)
  | sendReg hconn hpeer =>
      exact wellFormed_introduce hs hconn hpeer (.registering _)
  | readOrder hconn hpeer hread => exact wellFormed_readOrder hs hconn hpeer hread
  | readUpdate hconn hread => exact wellFormed_readUpdate hs hread
  | register hconn hpeer hstate hrequest =>
      exact wellFormed_register hs hconn hpeer hrequest
        ((hs.phase _ hconn).of_unknown hstate).2
  | order h =>
      obtain ⟨hassigned, hunread⟩ := (hs.phase _ h.connected).of_unknown h.state
      exact wellFormed_order hs h hassigned hunread
  | update h hcust => exact wellFormed_update hs h
  | orphan h hcust => exact wellFormed_orphan hs h
  | disconnect hconn => exact wellFormed_disconnect hs

end System

end SysprogTeam3.FoodSys
