import SysprogTeam3.FoodSys.Protocol

/-!
# Pending orders

How a step changes the orders that a cook has pending: only a handled order
adds one, only a handled update takes one away.
-/

namespace SysprogTeam3.FoodSys

namespace System

theorem mem_pending {s : System} {a : Addr} {t : Ticket} :
    t ∈ s.pending a ↔
      t ∈ s.unreadOrders a ∨ t ∈ (s.toServer a).filterMap Request.ticket? :=
  List.mem_append

/-- A cook with a pending order has that one order pending and nothing else in
flight, and its record names the customer. -/
theorem InPhase.of_pending {s : System} {a : Addr} (h : s.InPhase a) {t : Ticket}
    (ht : t ∈ s.pending a) :
    (s.record a).state = .cookBusy ∧
      (s.record a).assignedClient = some t.cust ∧ t.cust ≠ a ∧
      s.pending a = [t] ∧ (s.toServer a).length + (s.unreadOrders a).length = 1 ∧
      ∃ p, s.peer a = .cook p := by
  unfold InPhase at h
  unfold pending at ht ⊢
  generalize s.peer a = peer, (s.record a).state = state,
    (s.record a).assignedClient = assigned, s.toServer a = request,
    s.unreadOrders a = unread at h ht
  cases h with
  | cooking p t' hne =>
      obtain rfl : t = t' := by simpa using ht
      simpa using hne
  | answered p m t' hne =>
      obtain rfl : t = t' := by simpa [Request.ticket?] using ht
      simpa [Request.ticket?] using hne
  | _ => simp [Request.ticket?] at ht

theorem InPhase.inFlight_le {s : System} {a : Addr} (h : s.InPhase a) :
    (s.toServer a).length + (s.unreadOrders a).length ≤ 1 := by
  unfold InPhase at h
  generalize s.peer a = peer, (s.record a).state = state,
    (s.record a).assignedClient = assigned, s.toServer a = request,
    s.unreadOrders a = unread at h
  cases h <;> simp

theorem pending_of_free {s : System} {a : Addr} (h : s.InPhase a)
    (hstate : (s.record a).state ≠ .cookBusy) : s.pending a = [] :=
  List.eq_nil_iff_forall_not_mem.mpr fun _ ht => hstate (h.of_pending ht).1

theorem Updating.pending {s : System} {a : Addr} {p : RegCookPkt}
    {m : CookUpdatePkt} {t : Ticket} (h : s.Updating a p m t) :
    s.pending a = [t] := by
  simp [System.pending, h.unread, h.request, Request.ticket?]

@[simp] theorem pending_accept_self {s : System} {a : Addr} :
    (s.accept a).pending a = [] := by
  simp [pending, unreadOrders, accept]

theorem pending_accept_of_ne {s : System} {a b : Addr} (h : b ≠ a) :
    (s.accept a).pending b = s.pending b := by
  simp [pending, unreadOrders, accept, h]

theorem pending_introduce {s : System} {a b : Addr} {peer : Peer} {r : Request}
    (hr : r.ticket? = none) : (s.introduce a peer r).pending b = s.pending b := by
  by_cases h : b = a
  · subst h
    simp [pending, unreadOrders, introduce, hr]
  · simp [pending, unreadOrders, introduce, h]

theorem pending_readOrder {s : System} {a b : Addr} {message : Text}
    {t : Ticket} {rest : List Delivery} (hphase : s.InPhase a)
    (hread : s.toClient a = .cookOrder t :: rest) :
    pending
      { s with
        toClient := Function.update s.toClient a rest
        toServer := Function.update s.toServer a
          (s.toServer a ++ [.cookUpdate ⟨message⟩ t]) } b = s.pending b := by
  by_cases h : b = a
  · subst h
    obtain ⟨-, -, hrequest, hrest, -⟩ := hphase.of_unread (unreadOrders_cons hread)
    simp [pending, unreadOrders, hread, hrequest, hrest, Delivery.ticket?,
      Request.ticket?]
  · simp [pending, unreadOrders, h]

theorem pending_readUpdate {s : System} {a b : Addr} {u : CustUpdatePkt}
    {rest : List Delivery} (hread : s.toClient a = .custUpdate u :: rest) :
    pending { s with toClient := Function.update s.toClient a rest } b =
      s.pending b := by
  by_cases h : b = a
  · subst h
    simp [pending, unreadOrders, hread, List.filterMap_cons, Delivery.ticket?]
  · simp [pending, unreadOrders, h]

theorem pending_register {s : System} {a b : Addr} {p : RegCookPkt}
    (hrequest : s.toServer a = [.regCook p]) :
    (s.afterHandler a (regCookHandler s.server a p, [])).pending b =
      s.pending b := by
  rw [pending, unreadOrders_afterHandler noOrders_nil, pending]
  by_cases h : b = a
  · subst h
    simp [afterHandler, hrequest, Request.ticket?]
  · simp [afterHandler, h]

theorem mem_pending_order {s : System} {a b : Addr} {p : CustOrderPkt}
    {heap : Heap} {grants : List Grant} {n : Nat}
    (h : s.Ordering a p heap grants n) {t : Ticket} :
    t ∈ (s.afterOrder a heap grants n).pending b ↔
      t ∈ s.pending b ∨ t ∈ s.grantTickets a grants b := by
  have hrequest : t ∈ ((s.afterOrder a heap grants n).toServer b).filterMap
      Request.ticket? ↔ t ∈ (s.toServer b).filterMap Request.ticket? := by
    by_cases hba : b = a
    · subst hba
      simp [afterOrder, afterHandler, h.request, Request.ticket?]
    · simp [afterOrder, afterHandler, hba]
  rw [mem_pending, mem_pending, hrequest, unreadOrders_afterOrder, List.mem_append]
  tauto

theorem pending_update_self {s : System} {a cust : Addr} {p : RegCookPkt}
    {m : CookUpdatePkt} {t : Ticket} (h : s.Updating a p m t) :
    (s.afterUpdate a cust).pending a = [] := by
  rw [pending, unreadOrders_afterUpdate, h.unread]
  simp [afterUpdate, afterHandler, h.request]

theorem pending_update_of_ne {s : System} {a b cust : Addr} (hba : b ≠ a) :
    (s.afterUpdate a cust).pending b = s.pending b := by
  rw [pending, unreadOrders_afterUpdate, pending]
  simp [afterUpdate, afterHandler, hba]

theorem pending_orphan_self {s : System} {a : Addr} {p : RegCookPkt}
    {m : CookUpdatePkt} {t : Ticket} (h : s.Updating a p m t) :
    (s.afterHandler a (s.server, [])).pending a = [] := by
  rw [pending, unreadOrders_afterHandler noOrders_nil, h.unread]
  simp [afterHandler, h.request]

theorem pending_orphan_of_ne {s : System} {a b : Addr} (hba : b ≠ a) :
    (s.afterHandler a (s.server, [])).pending b = s.pending b := by
  rw [pending, unreadOrders_afterHandler noOrders_nil, pending]
  simp [afterHandler, hba]

theorem mem_pending_accept {s : System} {a b : Addr} {t : Ticket} :
    t ∈ (s.accept a).pending b ↔ b ≠ a ∧ t ∈ s.pending b := by
  by_cases hba : b = a
  · subst hba
    simp
  · simp [pending_accept_of_ne hba, hba]

theorem mem_pending_update {s : System} {a b cust : Addr} {p : RegCookPkt}
    {m : CookUpdatePkt} {t u : Ticket} (h : s.Updating a p m t) :
    u ∈ (s.afterUpdate a cust).pending b ↔ b ≠ a ∧ u ∈ s.pending b := by
  by_cases hba : b = a
  · subst hba
    simp [pending_update_self h]
  · simp [pending_update_of_ne hba, hba]

theorem mem_pending_orphan {s : System} {a b : Addr} {p : RegCookPkt}
    {m : CookUpdatePkt} {t u : Ticket} (h : s.Updating a p m t) :
    u ∈ (s.afterHandler a (s.server, [])).pending b ↔
      b ≠ a ∧ u ∈ s.pending b := by
  by_cases hba : b = a
  · subst hba
    simp [pending_orphan_self h]
  · simp [pending_orphan_of_ne hba, hba]

theorem pending_disconnect_of_ne {s : System} {a b : Addr} (hba : b ≠ a) :
    (s.disconnect a).pending b = s.pending b := by
  simp [pending, unreadOrders, disconnect, hba]

/-! ## Steps that add no order -/

/-- The step accepts nobody, adds no pending order and writes no record, except
that it may register a cook. -/
structure Quiet (s : System) (e : Event) (s' : System) : Prop where
  connected : ∀ a, s'.Connected a ↔ s.Connected a ∧ e ≠ .disconnect a
  conn : s'.conn = s.conn
  nextConn : s'.nextConn = s.nextConn
  handedOut : s'.handedOut = s.handedOut
  peer : ∀ b, s.peer b ≠ .silent → s'.peer b = s.peer b
  pending : ∀ b, s'.Connected b → ∀ t ∈ s'.pending b, t ∈ s.pending b
  record : ∀ b, s'.Connected b → (s.record b).state ≠ .unknown →
    s'.record b = s.record b

theorem Quiet.old {s s' : System} {e : Event} (h : s.Quiet e s') {a : Addr}
    (ha : s'.Connected a) : s.Connected a :=
  ((h.connected a).mp ha).1

/-- The steps again, with those that are quiet taken together. -/
inductive Change (s : System) : Event → System → Prop
  | accept {a : Addr} (hfree : ¬ s.Connected a) :
      Change s (.accept a) (s.accept a)
  | order {a : Addr} {p : CustOrderPkt} {heap : Heap} {grants : List Grant}
      {ordersAssigned : Nat} (h : s.Ordering a p heap grants ordersAssigned) :
      Change s (.handle a) (s.afterOrder a heap grants ordersAssigned)
  | update {a : Addr} {p : RegCookPkt} {m : CookUpdatePkt} {t : Ticket}
      (h : s.Updating a p m t) (hcust : s.Connected t.cust)
      (hwrites : s.writes (.handle a) =
        completionWrites t.cust (s.completedCustomer a t.cust)) :
      Change s (.handle a) (s.afterUpdate a t.cust)
  | quiet {e : Event} {s' : System} (h : s.Quiet e s')
      (hwrites : s.writes e = []) : Change s e s'

theorem quiet_introduce {s : System} {e : Event} {a : Addr} {peer : Peer}
    {r : Request} (hpeer : s.peer a = .silent) (hr : r.ticket? = none)
    (he : ∀ b, e ≠ .disconnect b) : s.Quiet e (s.introduce a peer r) where
  connected := fun b => (and_iff_left (he b)).symm
  conn := rfl
  nextConn := rfl
  handedOut := rfl
  peer := fun b hb => by
    have hba : b ≠ a := fun heq => hb (heq ▸ hpeer)
    simp [introduce, hba]
  pending := fun _ _ _ ht => pending_introduce hr ▸ ht
  record := fun _ _ _ => rfl

theorem quiet_register {s : System} {a : Addr} {p : RegCookPkt}
    (hstate : (s.record a).state = .unknown)
    (hrequest : s.toServer a = [.regCook p]) :
    s.Quiet (.handle a)
      (s.afterHandler a (regCookHandler s.server a p, [])) where
  connected := fun _ => (and_iff_left nofun).symm
  conn := rfl
  nextConn := rfl
  handedOut := rfl
  peer := fun _ _ => rfl
  pending := fun _ _ _ ht => pending_register hrequest ▸ ht
  record := fun b _ hb => by
    have hba : b ≠ a := fun heq => hb (heq ▸ hstate)
    exact record_register_of_ne hba

theorem quiet_disconnect {s : System} (hs : s.WellFormed) {a : Addr} :
    s.Quiet (.disconnect a) (s.disconnect a) where
  connected := fun b => by
    rw [disconnect_connected hs, and_comm]
    simp [eq_comm]
  conn := rfl
  nextConn := rfl
  handedOut := rfl
  peer := fun _ _ => rfl
  pending := fun _ hb _ ht =>
    pending_disconnect_of_ne ((disconnect_connected hs).mp hb).1 ▸ ht
  record := fun _ _ _ => rfl

theorem quiet_read {s : System} {a : Addr} {message : Text}
    {toClient : Addr → List Delivery} {toServer : Addr → List Request}
    (hpending : ∀ b, pending { s with toClient := toClient, toServer := toServer } b =
      s.pending b) :
    s.Quiet (.read a message)
      { s with toClient := toClient, toServer := toServer } where
  connected := fun _ => (and_iff_left nofun).symm
  conn := rfl
  nextConn := rfl
  handedOut := rfl
  peer := fun _ _ => rfl
  pending := fun b _ _ ht => hpending b ▸ ht
  record := fun _ _ _ => rfl

theorem quiet_orphan {s : System} {a : Addr} {p : RegCookPkt} {m : CookUpdatePkt}
    {t : Ticket} (h : s.Updating a p m t) :
    s.Quiet (.handle a) (s.afterHandler a (s.server, [])) where
  connected := fun _ => (and_iff_left nofun).symm
  conn := rfl
  nextConn := rfl
  handedOut := rfl
  peer := fun _ _ => rfl
  pending := fun _ _ _ ht => ((mem_pending_orphan h).mp ht).2
  record := fun _ _ _ => rfl

theorem change_of_step {s s' : System} (hs : s.WellFormed) {e : Event}
    (hstep : s.step e = some s') : s.Change e s' := by
  cases transition_of_step hs hstep with
  | accept hfree => exact .accept hfree
  | sendOrder hconn hpeer hrange =>
      exact .quiet (quiet_introduce hpeer rfl nofun) rfl
  | sendReg hconn hpeer => exact .quiet (quiet_introduce hpeer rfl nofun) rfl
  | @readOrder a m p t rest hconn hpeer hread =>
      exact .quiet
        (quiet_read fun b => pending_readOrder (hs.phase a hconn) hread) rfl
  | readUpdate hconn hread =>
      exact .quiet (quiet_read fun b => pending_readUpdate hread) rfl
  | register hconn hpeer hstate hrequest hwrites =>
      exact .quiet (quiet_register hstate hrequest) hwrites
  | order h => exact .order h
  | update h hcust hwrites => exact .update h hcust hwrites
  | orphan h hcust hwrites => exact .quiet (quiet_orphan h) hwrites
  | disconnect hconn => exact .quiet (quiet_disconnect hs) rfl

end System

end SysprogTeam3.FoodSys
