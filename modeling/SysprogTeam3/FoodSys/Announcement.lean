import SysprogTeam3.FoodSys.Verdict

/-!
# The announcement of missed items

`cust_order_handler` releases the lock before it tells the customer which items
nobody makes, and the `COOK_ORDER` packets are on their way by then.  Here the
handlers are run by several workers, step by step and in any order, and everything
that is written to a customer is kept with the number of the order that it is
about.
-/

namespace SysprogTeam3.FoodSys

open SysprogTeam3.Foundation
open OpenServer (unserviceablePrefix customerMsg_of_ne_zero unserviceable_ne_unserv)

/-! ## The steps of `cook_update_handler` -/

/-- The loop that marks the cook's items `COMPLETED`, after the search. -/
def markCompleted (sv : Server) (client cust : Addr) : Server :=
  sv.modify cust (completeItems (sv.heap client).menuItems)

def replyUpdate (sv : Server) (client cust : Addr) : Server × List Write :=
  (sv.modify client fun c => { c with state := .cookFree },
    if assignedFound (sv.heap cust) then []
    else [(cust, .custUpdate ⟨orderCompleteMessage⟩)])

theorem finishUpdate_eq_reply {sv : Server} {client cust : Addr}
    (h : (sv.heap client).assignedClient = some cust) :
    finishUpdate sv client = replyUpdate (markCompleted sv client cust) client cust := by
  rw [finishUpdate, h]
  rfl

/-! ## The number of orders -/

theorem assignCook_numOfOrders (client clientItem : Addr) (st : LoopState) (b : Addr) :
    ((assignCook client clientItem st).heap b).numOfOrders = (st.heap b).numOfOrders := by
  by_cases hb : b = clientItem
  · subst hb
    simp only [assignCook]
    split <;> simp
  · by_cases hc : b = client
    · subst hc
      simp only [assignCook]
      split <;> simp [hb]
    · simp only [assignCook]
      split <;> simp [hb, hc]

theorem assignLoop_numOfOrders (client : Addr) (queue : List Addr) (st : LoopState)
    (b : Addr) :
    ((assignLoop client queue st).heap b).numOfOrders = (st.heap b).numOfOrders :=
  assignLoop_invariant
    (P := fun st' => (st'.heap b).numOfOrders = (st.heap b).numOfOrders)
    (fun clientItem st' hold => (assignCook_numOfOrders client clientItem st' b).trans hold)
    queue rfl

/-! ## The workers -/

structure Notifier where
  order : Nat
  client : Addr
  ordersAssigned : Nat

/-- A packet that was written to a customer, and the number of the order that it is
about. -/
structure Sent where
  order : Nat
  client : Addr
  pkt : ServerPkt
  deriving DecidableEq

def completion (order : Nat) (client : Addr) : Sent :=
  ⟨order, client, .custUpdate ⟨orderCompleteMessage⟩⟩

def Sent.missed (x : Sent) : Bool :=
  match x.pkt with
  | .custUpdate p => unserviceablePrefix.isPrefixOf p.message
  | .cookOrder _ => false

structure HandlerPool where
  server : Server
  nextRecord : Addr
  /-- How many orders were accepted; they are numbered from 1. -/
  orders : Nat
  /-- The number of each customer's latest order, 0 before the first. -/
  latestOrder : Addr → Nat
  /-- The `cust_order_handler`s that have yet to notify the customer. -/
  notifiers : List Notifier
  /-- The cooks for whom a `COOK_ORDER` is in flight. -/
  inFlight : List Addr
  /-- The cooks whose `COOK_UPDATE` has arrived. -/
  arrived : List Addr
  /-- The cooks whose `cook_update_handler` has found the customer. -/
  found : List Addr
  /-- The cooks whose `cook_update_handler` has marked the items. -/
  marked : List Addr
  /-- What was written to customers, in order. -/
  sent : List Sent

inductive HandlerEvent where
  | accept
  | register (client : Addr) (p : RegCookPkt)
  | error (client : Addr)
  /-- A worker handles an order up to the end of its locked loop. -/
  | order (client : Addr) (p : CustOrderPkt)
  /-- The rest of a `cust_order_handler`. -/
  | notify (n : Nat)
  /-- A cook answers a `COOK_ORDER`, and its `COOK_UPDATE` arrives. -/
  | answer (n : Nat)
  /-- A worker takes a `COOK_UPDATE` and searches for the customer. -/
  | search (n : Nat)
  | complete (n : Nat)
  | reply (n : Nat)

namespace HandlerPool

def initial : HandlerPool :=
  { server := { heap := fun _ => .zeroed, clientTailq := [] }
    nextRecord := 0
    orders := 0
    latestOrder := fun _ => 0
    notifiers := []
    inFlight := []
    arrived := []
    found := []
    marked := []
    sent := [] }

abbrev Connected (s : HandlerPool) (a : Addr) : Prop := a ∈ s.server.clientTailq

def assigned (s : HandlerPool) (client : Addr) (c : Client) : HandlerPool :=
  let st := assignOrders (s.server.modify client fun _ => c) client
  { s with
    server := { s.server with heap := st.heap }
    orders := s.orders + 1
    latestOrder := Function.update s.latestOrder client (s.orders + 1)
    notifiers := s.notifiers ++ [⟨s.orders + 1, client, st.ordersAssigned⟩]
    inFlight := s.inFlight ++ st.writes.map Prod.fst }

def notification (s : HandlerPool) (h : Notifier) : List Sent :=
  (notifyCustomer s.server.heap h.client h.ordersAssigned).map fun w =>
    ⟨h.order, w.1, w.2⟩

def replySent (s : HandlerPool) (cook cust : Addr) : List Sent :=
  (replyUpdate s.server cook cust).2.map fun w => ⟨s.latestOrder w.1, w.1, w.2⟩

def step (s : HandlerPool) : HandlerEvent → Option HandlerPool
  | .accept =>
      some { s with
        server := onAccept s.server s.nextRecord
        nextRecord := s.nextRecord + 1 }
  | .register client p =>
      if s.Connected client then
        some { s with server := regCookHandler s.server client p }
      else none
  | .error client =>
      if s.Connected client then
        some { s with server := bufferedOnError s.server client }
      else none
  | .order client p =>
      if s.Connected client then
        match acceptOrder (s.server.heap client) p with
        | none => none
        | some none => some s
        | some (some c) => some (s.assigned client c)
      else none
  | .notify n =>
      match s.notifiers[n]? with
      | none => none
      | some h =>
          some { s with
            notifiers := s.notifiers.eraseIdx n
            sent := s.sent ++ s.notification h }
  | .answer n =>
      match s.inFlight[n]? with
      | none => none
      | some cook =>
          if s.Connected cook then
            some { s with
              inFlight := s.inFlight.eraseIdx n
              arrived := s.arrived ++ [cook] }
          else none
  | .search n =>
      match s.arrived[n]? with
      | none => none
      | some cook =>
          some { s with
            arrived := s.arrived.eraseIdx n
            found := if customerExists s.server cook then s.found ++ [cook] else s.found }
  | .complete n =>
      match s.found[n]? with
      | none => none
      | some cook =>
          (s.server.heap cook).assignedClient.map fun cust =>
            { s with
              server := markCompleted s.server cook cust
              found := s.found.eraseIdx n
              marked := s.marked ++ [cook] }
  | .reply n =>
      match s.marked[n]? with
      | none => none
      | some cook =>
          (s.server.heap cook).assignedClient.map fun cust =>
            { s with
              server := (replyUpdate s.server cook cust).1
              marked := s.marked.eraseIdx n
              sent := s.sent ++ s.replySent cook cust }

/-! ## The order of the two packets -/

/-- No missed update of an order was written after the order's completion. -/
def AnnouncedFirst (s : HandlerPool) : Prop :=
  s.sent.Pairwise fun x y => x = completion y.order y.client → y.missed = false

instance (s : HandlerPool) : Decidable s.AnnouncedFirst :=
  inferInstanceAs (Decidable (s.sent.Pairwise _))

/-- So far no missed update came after the completion, and none does when a handler
writes its notification next. -/
def Announces (s : HandlerPool) : Prop :=
  s.AnnouncedFirst ∧ ∀ n s', s.step (.notify n) = some s' → s'.AnnouncedFirst

end HandlerPool

abbrev Notifier.Due (h : Notifier) (numOfOrders : Nat) : Prop :=
  h.ordersAssigned ≠ 0 ∧ numOfOrders ≠ h.ordersAssigned

namespace HandlerPool

/-- The missed update of the customer's latest order is still to be sent. -/
def MissedDue (s : HandlerPool) (cust : Addr) : Prop :=
  ∃ h ∈ s.notifiers, h.client = cust ∧ h.order = s.latestOrder cust ∧
    h.Due (s.server.heap cust).numOfOrders

/-- With this many orders in the customer's record the missed update of a completed
order is still to be sent. -/
def LateWith (s : HandlerPool) (cust : Addr) (numOfOrders : Nat) : Prop :=
  ∃ h ∈ s.notifiers, h.client = cust ∧ completion h.order cust ∈ s.sent ∧
    h.Due numOfOrders

instance (s : HandlerPool) : DecidablePred s.MissedDue := fun cust =>
  inferInstanceAs (Decidable (∃ h ∈ s.notifiers, h.client = cust ∧
    h.order = s.latestOrder cust ∧ h.Due (s.server.heap cust).numOfOrders))

instance (s : HandlerPool) (cust : Addr) : DecidablePred (s.LateWith cust) :=
  fun numOfOrders => inferInstanceAs (Decidable (∃ h ∈ s.notifiers, h.client = cust ∧
    completion h.order cust ∈ s.sent ∧ h.Due numOfOrders))

/-- No order is completed while its missed update is due, and no later order of the
customer makes the missed update of a completed order due. -/
def OnTime (s : HandlerPool) : HandlerEvent → Prop
  | .order client p =>
      ∀ accepted ∈ acceptOrder (s.server.heap client) p, ∀ c ∈ accepted,
        ¬ s.LateWith client c.numOfOrders
  | .reply n =>
      ∀ cook ∈ s.marked[n]?, ∀ cust ∈ (s.server.heap cook).assignedClient,
        assignedFound (s.server.heap cust) = false → ¬ s.MissedDue cust
  | _ => True

instance (s : HandlerPool) (e : HandlerEvent) : Decidable (s.OnTime e) :=
  match e with
  | .order client p => inferInstanceAs (Decidable
      (∀ accepted ∈ acceptOrder (s.server.heap client) p, ∀ c ∈ accepted,
        ¬ s.LateWith client c.numOfOrders))
  | .reply n => inferInstanceAs (Decidable
      (∀ cook ∈ s.marked[n]?, ∀ cust ∈ (s.server.heap cook).assignedClient,
        assignedFound (s.server.heap cust) = false → ¬ s.MissedDue cust))
  | .accept | .register _ _ | .error _ | .notify _ | .answer _ | .search _ | .complete _ =>
      isTrue trivial

structure Ordered (s : HandlerPool) : Prop where
  announced : s.AnnouncedFirst
  notLate : ∀ a, ¬ s.LateWith a (s.server.heap a).numOfOrders
  connected : ∀ a, s.Connected a → a < s.nextRecord
  notifiers : ∀ h ∈ s.notifiers, h.client < s.nextRecord ∧ h.order ≤ s.orders
  sent : ∀ x ∈ s.sent, x.order ≤ s.orders
  latest : ∀ a, s.latestOrder a ≤ s.orders

theorem initial_ordered : initial.Ordered := by
  constructor <;> simp [initial, AnnouncedFirst, LateWith, Connected]

variable {s s' : HandlerPool}

theorem Ordered.mono (h : s.Ordered) (hsent : s'.sent = s.sent)
    (hnotifiers : s'.notifiers = s.notifiers) (horders : s'.orders = s.orders)
    (hlatest : s'.latestOrder = s.latestOrder) (hnext : s.nextRecord ≤ s'.nextRecord)
    (hconnected : ∀ a, s'.Connected a → a < s'.nextRecord)
    (hcount : ∀ a, a < s.nextRecord →
      (s'.server.heap a).numOfOrders = (s.server.heap a).numOfOrders) : s'.Ordered where
  announced := by
    rw [AnnouncedFirst, hsent]
    exact h.announced
  notLate := fun a ⟨x, hx, hclient, hcomplete, hdue⟩ => by
    rw [hnotifiers] at hx
    rw [hsent] at hcomplete
    rw [hcount a (hclient ▸ (h.notifiers x hx).1)] at hdue
    exact h.notLate a ⟨x, hx, hclient, hcomplete, hdue⟩
  connected := hconnected
  notifiers := fun x hx => by
    rw [hnotifiers] at hx
    rw [horders]
    exact ⟨Nat.lt_of_lt_of_le (h.notifiers x hx).1 hnext, (h.notifiers x hx).2⟩
  sent := fun x hx => by
    rw [hsent] at hx
    rw [horders]
    exact h.sent x hx
  latest := fun a => by
    rw [hlatest, horders]
    exact h.latest a

/-! ## The notification -/

theorem missed_customerMsg (order : Nat) (client : Addr) (c : Client) (n : Nat) :
    Sent.missed ⟨order, client, .custUpdate ⟨customerMsg c n⟩⟩ = true ↔ n ≠ 0 := by
  simp only [Sent.missed]
  constructor
  · rintro hstart rfl
    rw [customerMsg_zero] at hstart
    exact absurd hstart (by decide)
  · intro hn
    rw [customerMsg_of_ne_zero c hn]
    simp

theorem missed_completion (order : Nat) (client : Addr) :
    (completion order client).missed = false := by
  have hstart : unserviceablePrefix.isPrefixOf orderCompleteMessage = false := by decide
  exact hstart

theorem mem_notification {h : Notifier} {x : Sent} (hx : x ∈ s.notification h) :
    x.order = h.order ∧ x.client = h.client ∧ x ≠ completion h.order h.client ∧
      (x.missed = true → h.Due (s.server.heap h.client).numOfOrders) := by
  simp only [notification, notifyCustomer] at hx
  split at hx
  · simp at hx
  case isFalse hne =>
      simp only [List.map_cons, List.map_nil, List.mem_singleton] at hx
      subst hx
      refine ⟨rfl, rfl, fun heq => ?_, fun hmissed => ⟨?_, hne⟩⟩
      · simp only [completion, Sent.mk.injEq, ServerPkt.custUpdate.injEq,
          CustUpdatePkt.mk.injEq] at heq
        exact customerMsg_ne_complete _ _ heq.2.2
      · exact (missed_customerMsg _ _ _ _).mp hmissed

theorem exists_missed {h : Notifier} (hdue : h.Due (s.server.heap h.client).numOfOrders) :
    ∃ x ∈ s.notification h, x.order = h.order ∧ x.client = h.client ∧ x.missed = true := by
  refine ⟨⟨h.order, h.client, .custUpdate ⟨customerMsg (s.server.heap h.client)
    h.ordersAssigned⟩⟩, ?_, rfl, rfl, (missed_customerMsg _ _ _ _).mpr hdue.1⟩
  simp [notification, notifyCustomer, hdue.2]

theorem ordered_notify (h : s.Ordered) {n : Nat} {x : Notifier}
    (hx : s.notifiers[n]? = some x) :
    Ordered { s with
      notifiers := s.notifiers.eraseIdx n
      sent := s.sent ++ s.notification x } := by
  have hmem : x ∈ s.notifiers := List.mem_of_getElem? hx
  have hrest : ∀ y ∈ s.notifiers.eraseIdx n, y ∈ s.notifiers :=
    fun y => List.mem_of_mem_eraseIdx
  refine ⟨?_, fun a => ?_, h.connected, fun y hy => h.notifiers y (hrest y hy),
    fun y hy => ?_, h.latest⟩
  · refine List.pairwise_append.mpr ⟨h.announced, ?_, fun y hy z hz heq => ?_⟩
    · -- one packet at most
      simp only [notification, notifyCustomer]
      split <;> simp
    · obtain ⟨horder, hclient, -, hdue⟩ := mem_notification hz
      rw [horder, hclient] at heq
      subst heq
      by_contra hmissed
      exact h.notLate x.client ⟨x, hmem, rfl, hy, hdue (by simpa using hmissed)⟩
  · rintro ⟨y, hy, rfl, hcomplete, hdue⟩
    rcases List.mem_append.mp hcomplete with hold | hnew
    · exact h.notLate y.client ⟨y, hrest y hy, rfl, hold, hdue⟩
    · obtain ⟨horder, hclient, hne, -⟩ := mem_notification hnew
      refine absurd ?_ hne
      rw [← horder, ← hclient]
      rfl
  · rcases List.mem_append.mp hy with hold | hnew
    · exact h.sent y hold
    · rw [(mem_notification hnew).1]
      exact (h.notifiers x hmem).2

/-! ## The locked loop -/

theorem assigned_numOfOrders (s : HandlerPool) (client : Addr) (c : Client) (a : Addr) :
    ((s.assigned client c).server.heap a).numOfOrders =
      if a = client then c.numOfOrders else (s.server.heap a).numOfOrders := by
  refine (assignLoop_numOfOrders client _ _ a).trans ?_
  by_cases ha : a = client
  · subst ha
    simp
  · simp [Server.modify_heap_of_ne ha, ha]

theorem ordered_assigned (h : s.Ordered) {client : Addr} (hclient : s.Connected client)
    {c : Client} (hlate : ¬ s.LateWith client c.numOfOrders) :
    (s.assigned client c).Ordered where
  announced := h.announced
  notLate := fun a ⟨x, hx, hxclient, hcomplete, hdue⟩ => by
    rw [assigned_numOfOrders] at hdue
    rcases List.mem_append.mp hx with hold | hnew
    · by_cases ha : a = client
      · rw [if_pos ha] at hdue
        exact hlate ⟨x, hold, hxclient.trans ha, ha ▸ hcomplete, hdue⟩
      · rw [if_neg ha] at hdue
        exact h.notLate a ⟨x, hold, hxclient, hcomplete, hdue⟩
    · -- the new order has a number that nothing was sent about
      rw [List.mem_singleton.mp hnew] at hcomplete
      exact absurd (h.sent _ hcomplete) (Nat.not_succ_le_self s.orders)
  connected := h.connected
  notifiers := fun x hx => by
    rcases List.mem_append.mp hx with hold | hnew
    · exact ⟨(h.notifiers x hold).1, Nat.le_succ_of_le (h.notifiers x hold).2⟩
    · rw [List.mem_singleton.mp hnew]
      exact ⟨h.connected client hclient, Nat.le_refl _⟩
  sent := fun x hx => Nat.le_succ_of_le (h.sent x hx)
  latest := fun a => by
    by_cases ha : a = client
    · simp [assigned, ha]
    · simp only [assigned, Function.update_of_ne ha]
      exact Nat.le_succ_of_le (h.latest a)

/-! ## The reply -/

theorem replySent_eq (s : HandlerPool) (cook cust : Addr) :
    s.replySent cook cust = if assignedFound (s.server.heap cust) then []
      else [completion (s.latestOrder cust) cust] := by
  rw [replySent, replyUpdate]
  split <;> rfl

theorem replyUpdate_numOfOrders (sv : Server) (client cust a : Addr) :
    ((replyUpdate sv client cust).1.heap a).numOfOrders = (sv.heap a).numOfOrders := by
  by_cases ha : a = client
  · subst ha
    simp [replyUpdate]
  · simp [replyUpdate, Server.modify_heap_of_ne ha]

theorem markCompleted_numOfOrders (sv : Server) (client cust a : Addr) :
    ((markCompleted sv client cust).heap a).numOfOrders = (sv.heap a).numOfOrders := by
  by_cases ha : a = cust
  · subst ha
    simp [markCompleted, completeItems]
  · simp [markCompleted, Server.modify_heap_of_ne ha]

theorem ordered_reply (h : s.Ordered) {cook cust : Addr} {n : Nat}
    (hdue : assignedFound (s.server.heap cust) = false → ¬ s.MissedDue cust) :
    Ordered { s with
      server := (replyUpdate s.server cook cust).1
      marked := s.marked.eraseIdx n
      sent := s.sent ++ s.replySent cook cust } := by
  have hcount := replyUpdate_numOfOrders s.server cook cust
  cases hfound : assignedFound (s.server.heap cust) with
  | true =>
      have hsent : s.sent ++ s.replySent cook cust = s.sent := by simp [replySent_eq, hfound]
      exact h.mono hsent rfl rfl rfl (Nat.le_refl _) h.connected fun a _ => hcount a
  | false =>
      have hreply : s.replySent cook cust = [completion (s.latestOrder cust) cust] := by
        simp [replySent_eq, hfound]
      rw [hreply]
      refine ⟨?_, fun a => ?_, h.connected, h.notifiers, fun x hx => ?_, h.latest⟩
      · refine List.pairwise_append.mpr ⟨h.announced, List.pairwise_singleton _ _, ?_⟩
        intro x hx y hy _
        rw [List.mem_singleton.mp hy]
        exact missed_completion _ _
      · rintro ⟨x, hx, hclient, hcomplete, hxdue⟩
        rw [hcount] at hxdue
        rcases List.mem_append.mp hcomplete with hold | hnew
        · exact h.notLate a ⟨x, hx, hclient, hold, hxdue⟩
        · obtain ⟨horder, rfl, -⟩ := Sent.mk.inj (List.mem_singleton.mp hnew)
          exact hdue hfound ⟨x, hx, hclient, horder, hxdue⟩
      · rcases List.mem_append.mp hx with hold | hnew
        · exact h.sent x hold
        · rw [List.mem_singleton.mp hnew]
          exact h.latest cust

/-! ## Runs -/

theorem ordered_accept (h : s.Ordered) :
    Ordered { s with
      server := onAccept s.server s.nextRecord
      nextRecord := s.nextRecord + 1 } := by
  refine h.mono rfl rfl rfl rfl (Nat.le_succ _) (fun a ha => ?_) fun a ha => ?_
  · rcases List.mem_append.mp ha with hold | hnew
    · exact Nat.lt_succ_of_lt (h.connected a hold)
    · rw [List.mem_singleton.mp hnew]
      exact Nat.lt_succ_self s.nextRecord
  · simp [onAccept, Nat.ne_of_lt ha]

theorem ordered_register (h : s.Ordered) (client : Addr) (p : RegCookPkt) :
    Ordered { s with server := regCookHandler s.server client p } := by
  refine h.mono rfl rfl rfl rfl (Nat.le_refl _) h.connected fun a _ => ?_
  by_cases ha : a = client
  · subst ha
    simp [regCookHandler]
  · simp [regCookHandler, Server.modify_heap_of_ne ha]

theorem ordered_order (h : s.Ordered) {client : Addr} {p : CustOrderPkt}
    (hC : s.OnTime (.order client p)) (hstep : s.step (.order client p) = some s') :
    s'.Ordered := by
  simp only [step, Option.ite_none_right_eq_some] at hstep
  obtain ⟨hclient, hstep⟩ := hstep
  cases haccept : acceptOrder (s.server.heap client) p with
  | none => simp [haccept] at hstep
  | some accepted =>
      cases accepted with
      | none =>
          simp only [haccept, Option.some.injEq] at hstep
          exact hstep ▸ h
      | some c =>
          simp only [haccept, Option.some.injEq] at hstep
          rw [← hstep]
          exact ordered_assigned h hclient (hC (some c) haccept c rfl)

theorem ordered_step (h : s.Ordered) {e : HandlerEvent} (hC : s.OnTime e)
    (hstep : s.step e = some s') : s'.Ordered := by
  cases e with
  | accept =>
      cases hstep
      exact ordered_accept h
  | register client p =>
      simp only [step, Option.ite_none_right_eq_some, Option.some.injEq] at hstep
      obtain ⟨-, rfl⟩ := hstep
      exact ordered_register h client p
  | error client =>
      simp only [step, Option.ite_none_right_eq_some, Option.some.injEq] at hstep
      obtain ⟨-, rfl⟩ := hstep
      exact h.mono rfl rfl rfl rfl (Nat.le_refl _)
        (fun a ha => h.connected a (List.mem_of_mem_erase ha)) fun _ _ => rfl
  | order client p => exact ordered_order h hC hstep
  | notify n =>
      cases hx : s.notifiers[n]? with
      | none => simp [step, hx] at hstep
      | some x =>
          simp only [step, hx, Option.some.injEq] at hstep
          exact hstep ▸ ordered_notify h hx
  | answer n =>
      cases hcook : s.inFlight[n]? with
      | none => simp [step, hcook] at hstep
      | some cook =>
          simp only [step, hcook, Option.ite_none_right_eq_some, Option.some.injEq] at hstep
          obtain ⟨-, rfl⟩ := hstep
          exact h.mono rfl rfl rfl rfl (Nat.le_refl _) h.connected fun _ _ => rfl
  | search n =>
      cases hcook : s.arrived[n]? with
      | none => simp [step, hcook] at hstep
      | some cook =>
          simp only [step, hcook, Option.some.injEq] at hstep
          subst hstep
          exact h.mono rfl rfl rfl rfl (Nat.le_refl _) h.connected fun _ _ => rfl
  | complete n =>
      cases hcook : s.found[n]? with
      | none => simp [step, hcook] at hstep
      | some cook =>
          simp only [step, hcook, Option.map_eq_some_iff] at hstep
          obtain ⟨cust, -, rfl⟩ := hstep
          exact h.mono rfl rfl rfl rfl (Nat.le_refl _) h.connected
            fun a _ => markCompleted_numOfOrders s.server cook cust a
  | reply n =>
      cases hcook : s.marked[n]? with
      | none => simp [step, hcook] at hstep
      | some cook =>
          simp only [step, hcook, Option.map_eq_some_iff] at hstep
          obtain ⟨cust, hcust, rfl⟩ := hstep
          exact ordered_reply h (hC cook hcook cust hcust)

theorem announces_of_ordered (h : s.Ordered) : s.Announces :=
  ⟨h.announced, fun n _ hstep => (ordered_step h (e := .notify n) trivial hstep).announced⟩

theorem not_announces_of_late {a : Addr}
    (hlate : s.LateWith a (s.server.heap a).numOfOrders) : ¬ s.Announces := by
  obtain ⟨x, hx, rfl, hcomplete, hdue⟩ := hlate
  obtain ⟨n, hn⟩ := List.mem_iff_getElem?.mp hx
  obtain ⟨y, hy, horder, hclient, hmissed⟩ := exists_missed hdue
  rintro ⟨-, hnotify⟩
  have hannounced := hnotify n _ (by simp only [step, hn]; rfl)
  have hfirst := (List.pairwise_append.mp hannounced).2.2 _ hcomplete y hy
  rw [horder, hclient, hmissed] at hfirst
  exact absurd (hfirst rfl) (by simp)

theorem not_announces_of_step {e : HandlerEvent} (hC : ¬ s.OnTime e)
    (hstep : s.step e = some s') : ¬ s'.Announces := by
  cases e with
  | order client p =>
      simp only [OnTime, not_forall, not_not] at hC
      obtain ⟨accepted, haccept, c, hc, x, hx, hclient, hcomplete, hdue⟩ := hC
      rw [Option.mem_def] at haccept hc
      simp only [step, haccept, hc, Option.ite_none_right_eq_some,
        Option.some.injEq] at hstep
      obtain ⟨-, rfl⟩ := hstep
      refine not_announces_of_late (a := client)
        ⟨x, List.mem_append_left _ hx, hclient, hcomplete, ?_⟩
      rw [assigned_numOfOrders, if_pos rfl]
      exact hdue
  | reply n =>
      simp only [OnTime, not_forall, not_not] at hC
      obtain ⟨cook, hcook, cust, hcust, hfound, x, hx, hclient, horder, hdue⟩ := hC
      rw [Option.mem_def] at hcook hcust
      simp only [step, hcook, hcust, Option.map_some, Option.some.injEq] at hstep
      rw [← hstep]
      refine not_announces_of_late (a := cust) ⟨x, hx, hclient, ?_, ?_⟩
      · simp [replySent_eq, hfound, horder]
      · rw [replyUpdate_numOfOrders]
        exact hdue
  | accept | register client p | error client | notify n | answer n | search n
    | complete n => exact absurd trivial hC

/--
In a run no missed update comes after the completion of its order, or can come after
it next, exactly when no order is completed while its missed update is due and no
later order makes a missed update due.
-/
theorem announced_first_iff {events : List HandlerEvent} {s : HandlerPool}
    (hrun : run step initial events = some s) :
    AllStates step Announces initial events ↔ AllSteps step OnTime initial events :=
  allStates_iff_allSteps (fun _ => announces_of_ordered)
    (fun _ _ _ hs hC hstep => ordered_step hs hC hstep)
    (fun _ _ _ _ hC hstep => not_announces_of_step hC hstep)
    initial_ordered hrun

def announcedRun : List HandlerEvent :=
  [.accept, .register 0 (.ofItems [1]), .accept, .register 1 (.ofItems [2]),
   .accept, .order 2 (.ofCodes [1, 2, 3]), .answer 0, .search 0, .complete 0, .notify 0,
   .reply 0, .answer 0, .search 0, .complete 0, .reply 0]

theorem announcedRun_isSome : (run step initial announcedRun).isSome := by
  decide +kernel

theorem announced_first_announcedRun : AllStates step Announces initial announcedRun :=
  (announced_first_iff (Option.some_get announcedRun_isSome).symm).mpr (by decide +kernel)

/-! ## The customer's program -/

end HandlerPool

def custUpdateHandler (pktData : CustUpdatePkt) : Nat :=
  if pktData.message = orderCompleteMessage then 0
  else if pktData.message = orderUnservMessage then 0
  else 1

/-- The updates that the read loop of `client.c` comes to: it ends with the first one
for which the handler returns 0. -/
def readLoop : List CustUpdatePkt → List CustUpdatePkt
  | [] => []
  | pktData :: rest =>
      pktData :: if custUpdateHandler pktData = 0 then [] else readLoop rest

theorem readLoop_complete (first rest : List CustUpdatePkt) :
    readLoop (first ++ ⟨orderCompleteMessage⟩ :: rest) =
      readLoop (first ++ [⟨orderCompleteMessage⟩]) := by
  induction first with
  | nil => rfl
  | cons pktData first ih => simp only [List.cons_append, readLoop, ih]

namespace HandlerPool

def updatesTo (s : HandlerPool) (a : Addr) : List CustUpdatePkt :=
  s.sent.filterMap fun x =>
    match x.pkt with
    | .custUpdate p => if x.client = a then some p else none
    | .cookOrder _ => none

/-- The cook's update is handled before the customer is told of the missing item. -/
def lateRun : List HandlerEvent :=
  [.accept, .register 0 (.ofItems [1]), .accept, .order 1 (.ofCodes [1, 2]),
   .answer 0, .search 0, .complete 0, .reply 0, .notify 0]

theorem lateRun_isSome : (run step initial lateRun).isSome := by
  decide +kernel

theorem missed_after_completion :
    ∃ s, run step initial lateRun = some s ∧
      s.sent = [completion 1 1, ⟨1, 1, .custUpdate
        ⟨"Orders unserviceable currently 2 , rest of the orders will be s".toList⟩⟩] ∧
      ¬ s.AnnouncedFirst ∧
      readLoop (s.updatesTo 1) = [⟨orderCompleteMessage⟩] := by
  refine ⟨_, (Option.some_get lateRun_isSome).symm, ?_, ?_, ?_⟩
  · decide +kernel
  · decide +kernel
  · decide +kernel

end HandlerPool

end SysprogTeam3.FoodSys
