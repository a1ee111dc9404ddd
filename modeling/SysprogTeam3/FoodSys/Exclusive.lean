import SysprogTeam3.FoodSys.Invariants

/-!
# Exclusive assignment

When no record address is used twice, a cook has at most one thing pending, and
a pending order belongs to exactly one customer and shares no item with another
cook's order of that customer.
-/

namespace SysprogTeam3.FoodSys

open SysprogTeam3.Foundation

inductive PendingItem where
  | regCook (p : RegCookPkt)
  | cookOrder (t : Ticket)
  | cookUpdate (p : CookUpdatePkt) (answers : Ticket)
  deriving DecidableEq

namespace PendingItem

def ofRequest : Request → Option PendingItem
  | .regCook p => some (.regCook p)
  | .custOrder _ => none
  | .cookUpdate p t => some (.cookUpdate p t)

def ticket? : PendingItem → Option Ticket
  | .regCook _ => none
  | .cookOrder t => some t
  | .cookUpdate _ t => some t

end PendingItem

namespace System

def pendingItems (s : System) (b : Addr) : List PendingItem :=
  (s.unreadOrders b).map .cookOrder ++
    (s.toServer b).filterMap PendingItem.ofRequest

/-- Every connection gets a record address that was never used before. -/
def FreshAccept (s : System) : Event → Prop
  | .accept a => a ∉ s.handedOut
  | _ => True

instance (s : System) (e : Event) : Decidable (s.FreshAccept e) :=
  match e with
  | .accept a => inferInstanceAs (Decidable (a ∉ s.handedOut))
  | .sendOrder _ _ | .sendReg _ _ | .read _ _ | .handle _ | .disconnect _ =>
      isTrue trivial

/-- The customer whose order caused `t`, and the items, are as the records of
the cook and the customer say. -/
def RightfulOrder (s : System) (b : Addr) (p : RegCookPkt) (t : Ticket) : Prop :=
  (s.record b).state = .cookBusy ∧
    (s.record b).assignedClient = some t.cust ∧ s.conn t.cust = t.conn ∧
    ∃ q, s.peer t.cust = .customer q ∧
      ∀ i, t.order.gives i = true → q.names i = true ∧ p.declares i = true

structure ExclusiveAssignment (s : System) : Prop where
  atMostOne : ∀ b p, s.Connected b → s.peer b = .cook p →
    (s.pendingItems b).length ≤ 1
  rightful : ∀ b p, s.Connected b → s.peer b = .cook p →
    ∀ item ∈ s.pendingItems b, ∀ t, item.ticket? = some t → s.RightfulOrder b p t
  /-- Two cooks never have the same item of one customer. -/
  disjoint : ∀ b b', s.Connected b → s.Connected b' → b ≠ b' →
    ∀ item ∈ s.pendingItems b, ∀ item' ∈ s.pendingItems b',
    ∀ t t', item.ticket? = some t → item'.ticket? = some t' → t.cust = t'.cust →
    ∀ i, ¬ (t.order.gives i = true ∧ t'.order.gives i = true)

theorem ticket_mem_pending {s : System} {b : Addr} {item : PendingItem}
    {t : Ticket} (hitem : item ∈ s.pendingItems b) (ht : item.ticket? = some t) :
    t ∈ s.pending b := by
  rw [mem_pending]
  simp only [pendingItems, List.mem_append, List.mem_map, List.mem_filterMap] at hitem
  obtain ⟨u, hu, rfl⟩ | ⟨r, hr, hitem⟩ := hitem
  · obtain rfl : u = t := by simpa [PendingItem.ticket?] using ht
    exact .inl hu
  · refine .inr (List.mem_filterMap.mpr ⟨r, hr, ?_⟩)
    cases r with
    | regCook p | custOrder p =>
        simp only [PendingItem.ofRequest] at hitem
        cases hitem
        try cases ht
    | cookUpdate p u =>
        simp only [PendingItem.ofRequest, Option.some.injEq] at hitem
        subst hitem
        exact ht

/-- What holds of a pending order as long as addresses are not used twice. -/
structure Owned (s : System) : Prop where
  handed : ∀ a, s.Connected a → a ∈ s.handedOut
  owner : ∀ b, s.Connected b → ∀ t ∈ s.pending b,
    t.cust ∈ s.handedOut ∧ s.conn t.cust = t.conn ∧
      ∃ q, s.peer t.cust = .customer q ∧
        ∀ i, t.order.gives i = true → q.names i = true

theorem initial_owned : initial.Owned := by
  constructor <;> simp [initial, Connected]

theorem Owned.mono {s s' : System} (h : s.Owned)
    (hconn : ∀ a, s'.Connected a → s.Connected a)
    (hname : s'.conn = s.conn) (hhanded : s'.handedOut = s.handedOut)
    (hpending : ∀ b, s'.Connected b → ∀ t ∈ s'.pending b, t ∈ s.pending b)
    (hpeer : ∀ a q, s.peer a = .customer q → s'.peer a = .customer q) :
    s'.Owned where
  handed := fun a ha => hhanded ▸ h.handed a (hconn a ha)
  owner := fun b hb t ht => by
    obtain ⟨hcust, hc, q, hq, hnames⟩ :=
      h.owner b (hconn b hb) t (hpending b hb t ht)
    exact ⟨hhanded ▸ hcust, hname ▸ hc, q, hpeer _ _ hq, hnames⟩

theorem owned_accept {s : System} (h : s.Owned) {a : Addr}
    (hfresh : a ∉ s.handedOut) : (s.accept a).Owned where
  handed := fun b hb => by
    obtain hb | rfl := accept_connected.mp hb
    · exact List.mem_cons_of_mem _ (h.handed b hb)
    · exact List.mem_cons_self
  owner := fun b hb t ht => by
    obtain ⟨hba, ht⟩ := mem_pending_accept.mp ht
    obtain ⟨hcust, hc, q, hq, hnames⟩ :=
      h.owner b (by simpa [hba] using hb) t ht
    have hne : t.cust ≠ a := fun heq => hfresh (heq ▸ hcust)
    exact ⟨List.mem_cons_of_mem _ hcust, by simpa [accept, hne] using hc, q,
      by simpa [accept, hne] using hq, hnames⟩

theorem owned_order {s : System} (h : s.Owned)
    (hmenus : ∀ a, s.Connected a → s.MenuOk a) {a : Addr} {p : CustOrderPkt}
    {heap : Heap} {grants : List Grant} {n : Nat}
    (ho : s.Ordering a p heap grants n) : (s.afterOrder a heap grants n).Owned where
  handed := h.handed
  owner := fun b hb t ht => by
    obtain hold | ⟨hg, hcust, hconn⟩ := mem_pending_order_cases ho ht
    · exact h.owner b hb t hold
    · refine ⟨hcust ▸ h.handed a ho.connected, hcust ▸ hconn.symm, p,
        hcust ▸ ho.peer, fun i hi => ?_⟩
      exact names_of_grant (hmenus a ho.connected) ho hg hi

theorem owned_step {s s' : System} (hs : s.Invariant) (h : s.Owned) {e : Event}
    (hfresh : s.FreshAccept e) (hstep : s.step e = some s') : s'.Owned := by
  cases change_of_step hs.wellFormed hstep with
  | accept hfree => exact owned_accept h hfresh
  | order ho => exact owned_order h hs.menus ho
  | update hu =>
      exact h.mono (fun _ => id) rfl rfl
        (fun _ _ _ ht => ((mem_pending_update hu).mp ht).2) (fun _ _ => id)
  | quiet hq =>
      refine h.mono (fun _ => hq.old) hq.conn hq.handedOut hq.pending
        (fun a q hpeer => ?_)
      rw [hq.peer a (by rw [hpeer]; nofun)]
      exact hpeer

theorem exclusiveAssignment_of_owned {s : System} (hs : s.Invariant)
    (h : s.Owned) : s.ExclusiveAssignment where
  atMostOne := fun b p hb hp => by
    have hlength := (hs.wellFormed.phase b hb).inFlight_le
    have hfilter := List.length_filterMap_le PendingItem.ofRequest (s.toServer b)
    simp only [pendingItems, List.length_append, List.length_map]
    omega
  rightful := fun b p hb hp item hitem t ht => by
    have hpending := ticket_mem_pending hitem ht
    obtain ⟨hstate, hassigned, -⟩ := (hs.wellFormed.phase b hb).of_pending hpending
    obtain ⟨-, hconn, q, hq, hnames⟩ := h.owner b hb t hpending
    exact ⟨hstate, hassigned, hconn, q, hq, fun i hi =>
      ⟨hnames i hi, hs.tickets.declared b hb t hpending p hp i hi⟩⟩
  disjoint := fun b b' hb hb' hne item hitem item' hitem' t t' ht ht' hcust i => by
    have hpending := ticket_mem_pending hitem ht
    have hpending' := ticket_mem_pending hitem' ht'
    have hconn : t.conn = t'.conn := by
      rw [← (h.owner b hb t hpending).2.1, ← (h.owner b' hb' t' hpending').2.1, hcust]
    rintro ⟨hi, hi'⟩
    simp [hs.tickets.disjoint b b' hb hb' hne t hpending t' hpending' hconn i hi] at hi'

/--
In every run of customers and cooks with a fresh address for each connection,
the orders are assigned exclusively.
-/
theorem exclusive_assignment {events : List Event} {s : System}
    (hrun : run step initial events = some s)
    (hfresh : AllSteps step FreshAccept initial events) :
    s.ExclusiveAssignment := by
  have hstep : ∀ (s : System) e s', s.Invariant ∧ s.Owned → s.FreshAccept e →
      s.step e = some s' → s'.Invariant ∧ s'.Owned := fun s e s' hs hC hnext =>
    ⟨invariant_step hs.1 hnext, owned_step hs.1 hs.2 hC hnext⟩
  have hinv := run_invariant hstep ⟨initial_invariant, initial_owned⟩ hfresh hrun
  exact exclusiveAssignment_of_owned hinv.1 hinv.2

def sharedOrderRun : List Event :=
  [.accept 1, .sendReg 1 (.ofItems [1]), .handle 1,
   .accept 2, .sendReg 2 (.ofItems [1, 2]), .handle 2,
   .accept 3, .sendOrder 3 (.ofCodes [1, 2, 1]), .handle 3, .read 1 []]

theorem sharedOrderRun_isSome : (run step initial sharedOrderRun).isSome := by
  decide +kernel

theorem exclusive_assignment_sharedOrderRun :
    ∃ s, run step initial sharedOrderRun = some s ∧ s.ExclusiveAssignment :=
  have hrun := (Option.some_get sharedOrderRun_isSome).symm
  ⟨_, hrun, exclusive_assignment hrun (by decide +kernel)⟩

end System

end SysprogTeam3.FoodSys
