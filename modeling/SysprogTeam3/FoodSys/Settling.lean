import SysprogTeam3.Foundation.Simulation
import SysprogTeam3.Foundation.Weights
import SysprogTeam3.FoodSys.Waiting
import SysprogTeam3.FoodSys.CookLifecycle

/-!
# Until nothing is in flight

The programs read what the server sends and the server handles what the programs
send.  Each of these steps takes one packet from a connection, and what it puts
there weighs less, so the packets run out whatever the order of the steps.
-/

namespace SysprogTeam3.FoodSys

open SysprogTeam3.Foundation

def Event.IsDelivery : Event → Prop
  | .read _ _ | .handle _ => True
  | _ => False

instance (e : Event) : Decidable e.IsDelivery :=
  match e with
  | .read _ _ | .handle _ => isTrue trivial
  | .accept _ | .sendOrder _ _ | .sendReg _ _ | .disconnect _ => isFalse id

/-- A step of a run in which nobody leaves and every order names an item. -/
def Event.Stays : Event → Prop
  | .disconnect _ => False
  | .sendOrder _ p => p.codes ≠ []
  | _ => True

instance (e : Event) : Decidable e.Stays :=
  match e with
  | .disconnect _ => isFalse id
  | .sendOrder _ p => inferInstanceAs (Decidable (p.codes ≠ []))
  | .accept _ | .sendReg _ _ | .read _ _ | .handle _ => isTrue trivial

/-- An order can reach all of `clients` clients and its sender. -/
def Request.weight (clients : Nat) : Request → Nat
  | .regCook _ => 1
  | .custOrder _ => 3 * clients + 2
  | .cookUpdate _ _ => 2

def ServerPkt.weight : ServerPkt → Nat
  | .cookOrder _ => 3
  | .custUpdate _ => 1

def Delivery.weight : Delivery → Nat
  | .cookOrder _ => 3
  | .custUpdate _ => 1

def writesWeight (writes : List Write) : Nat := total (fun w => w.2.weight) writes

namespace System

def inFlightAt (s : System) (a : Addr) : Nat :=
  total (Request.weight s.server.clientTailq.length) (s.toServer a) +
    total Delivery.weight (s.toClient a)

/-- What the packets in flight weigh: a bound on the steps that they can cause. -/
def inFlight (s : System) : Nat := total s.inFlightAt s.server.clientTailq

def NothingInFlight (s : System) : Prop :=
  ∀ a, s.Connected a → s.toServer a = [] ∧ s.toClient a = []

instance (s : System) : Decidable s.NothingInFlight :=
  inferInstanceAs (Decidable (∀ a ∈ s.server.clientTailq,
    s.toServer a = [] ∧ s.toClient a = []))

/-! ## Each step takes weight away -/

theorem total_delivery (s : System) (a : Addr) (pkts : List ServerPkt) :
    total Delivery.weight (pkts.map (s.delivery a)) = total ServerPkt.weight pkts := by
  induction pkts with
  | nil => rfl
  | cons p pkts ih =>
      rw [List.map_cons, total, total, ih]
      cases p <;> rfl

theorem total_writesTo_le {queue : List Addr} (hnodup : queue.Nodup) (writes : List Write) :
    total (fun b => total ServerPkt.weight (writesTo writes b)) queue ≤
      writesWeight writes := by
  induction writes with
  | nil =>
      have hzero : total (fun _ => 0) queue ≤ 0 := by
        induction queue with
        | nil => exact Nat.le_refl 0
        | cons b queue ih => simpa [total] using ih (List.nodup_cons.mp hnodup).2
      exact hzero
  | cons w writes ih =>
      have hone : total (fun b => total ServerPkt.weight (writesTo (w :: writes) b)) queue ≤
          total (fun b => total ServerPkt.weight (writesTo writes b)) queue +
            w.2.weight := by
        refine total_le_add (a := w.1) hnodup (fun b hb => ?_) ?_
        · simp [writesTo, Ne.symm hb]
        · simp [writesTo, total, Nat.add_comm]
      simp only [writesWeight, total] at ih ⊢
      omega

theorem inFlight_consume {s s' : System} (hs : s.WellFormed) {a : Addr} {d : Delivery}
    {rest : List Delivery} {reply : List Request} (hconn : s.Connected a)
    (hread : s.toClient a = d :: rest) (hserver : s'.server = s.server)
    (htoClient : s'.toClient = Function.update s.toClient a rest)
    (htoServer : s'.toServer = Function.update s.toServer a (s.toServer a ++ reply))
    (hless : total (Request.weight s.server.clientTailq.length) reply < d.weight) :
    s'.inFlight < s.inFlight := by
  have hshrinks : s'.inFlightAt a + 1 ≤ s.inFlightAt a := by
    simp only [inFlightAt, hserver, htoClient, htoServer, hread, Function.update_self,
      total_append, total]
    omega
  have hsame : ∀ b, b ≠ a → s'.inFlightAt b = s.inFlightAt b := by
    intro b hb
    simp [inFlightAt, hserver, htoClient, htoServer, hb]
  have htotal := total_add_le hs.nodup hconn hsame hshrinks
  simp only [inFlight, hserver] at htotal ⊢
  omega

theorem inFlight_afterHandler {s : System} (hs : s.WellFormed) {a : Addr} {r : Request}
    {rest : List Request} {result : Server × List Write} (hconn : s.Connected a)
    (hrequest : s.toServer a = r :: rest)
    (hqueue : result.1.clientTailq = s.server.clientTailq)
    (hless : writesWeight result.2 < r.weight s.server.clientTailq.length) :
    (s.afterHandler a result).inFlight < s.inFlight := by
  let taken : Addr → Nat := fun b =>
    total (Request.weight s.server.clientTailq.length)
        (Function.update s.toServer a (s.toServer a).tail b) +
      total Delivery.weight (s.toClient b)
  have hsplit : (s.afterHandler a result).inFlightAt = fun b =>
      taken b + total ServerPkt.weight (writesTo result.2 b) := by
    funext b
    simp only [inFlightAt, afterHandler, hqueue, total_append, total_delivery, taken]
    omega
  have hshrinks : taken a + r.weight s.server.clientTailq.length ≤ s.inFlightAt a := by
    simp only [taken, inFlightAt, hrequest, Function.update_self, List.tail_cons, total]
    omega
  have hsame : ∀ b, b ≠ a → taken b = s.inFlightAt b := by
    intro b hb
    simp [taken, inFlightAt, hb]
  have htaken := total_add_le hs.nodup hconn hsame hshrinks
  have hwritten := total_writesTo_le hs.nodup result.2
  have hclients : (s.afterHandler a result).server.clientTailq = s.server.clientTailq :=
    hqueue
  rw [inFlight, hclients, hsplit, total_add]
  simp only [inFlight]
  omega

theorem writesWeight_notify (heap : Heap) (a : Addr) (n : Nat) :
    writesWeight (notifyCustomer heap a n) ≤ 1 := by
  unfold notifyCustomer writesWeight
  split <;> simp [total, ServerPkt.weight]

theorem writesWeight_completion (cust : Addr) (c : Client) :
    writesWeight (completionWrites cust c) ≤ 1 := by
  unfold completionWrites writesWeight
  split <;> simp [total, ServerPkt.weight]

theorem writesWeight_grants (grants : List Grant) :
    writesWeight (grants.map Grant.write) = 3 * grants.length := by
  induction grants with
  | nil => rfl
  | cons g grants ih =>
      simp only [writesWeight, List.map_cons, total, List.length_cons, Grant.write,
        ServerPkt.weight] at ih ⊢
      omega

theorem Ordering.grants_length_le {s : System} {a : Addr} {p : CustOrderPkt} {heap : Heap}
    {grants : List Grant} {n : Nat} (ho : s.Ordering a p heap grants n) :
    grants.length ≤ s.server.clientTailq.length := by
  have hsubset : grants.map Prod.fst ⊆ s.server.clientTailq := by
    intro b hb
    obtain ⟨g, hg, rfl⟩ := List.mem_map.mp hb
    exact (ho.granted.free g hg).1
  simpa using (List.subperm_of_subset ho.granted.nodup hsubset).length_le

theorem inFlight_step {s s' : System} (hs : s.WellFormed) {e : Event} (he : e.IsDelivery)
    (hstep : s.step e = some s') : s'.inFlight < s.inFlight := by
  cases transition_of_step hs hstep with
  | accept | sendOrder | sendReg | disconnect => exact he.elim
  | @readOrder a m p t rest hconn hpeer hread =>
      exact inFlight_consume hs hconn hread rfl rfl rfl (Nat.lt_succ_self 2)
  | @readUpdate a m u rest hconn hread =>
      have hkept : s.toServer = Function.update s.toServer a (s.toServer a ++ []) := by simp
      exact inFlight_consume hs hconn hread rfl rfl hkept Nat.zero_lt_one
  | register hconn hpeer hstate hrequest =>
      exact inFlight_afterHandler hs hconn hrequest rfl Nat.zero_lt_one
  | @order a p heap grants n ho =>
      refine inFlight_afterHandler hs ho.connected ho.request rfl ?_
      have hcooks := ho.grants_length_le
      have hnotify := writesWeight_notify heap a n
      have hgrants := writesWeight_grants grants
      simp only [writesWeight, total_append, Request.weight] at hnotify hgrants ⊢
      omega
  | @update a p m t hu hcust =>
      refine inFlight_afterHandler hs hu.connected hu.request rfl ?_
      exact Nat.lt_succ_of_le (writesWeight_completion _ _)
  | orphan hu hcust =>
      exact inFlight_afterHandler hs hu.connected hu.request rfl Nat.zero_lt_two

/-! ## When no step is left -/

theorem handle_isSome {s : System} (hs : s.WellFormed) {a : Addr} (hconn : s.Connected a)
    (hrequest : s.toServer a ≠ []) : (s.step (.handle a)).isSome := by
  have hphase := hs.phase a hconn
  unfold InPhase at hphase
  generalize hstate : (s.record a).state = state at hphase
  generalize hpending : s.toServer a = request at hphase hrequest
  generalize s.peer a = peer, (s.record a).assignedClient = assigned,
    s.unreadOrders a = unread at hphase
  cases hphase with
  | ordering p hrange =>
      obtain ⟨heap, grants, n, heq, -⟩ := custOrderHandler_eq hrange hs.nodup (.inl hstate)
      simp [step, hconn, handled, hpending, Request.pkt, handlerFuncDispatch, heq]
  | registering p => simp [step, hconn, handled, hpending, Request.pkt, handlerFuncDispatch]
  | answered p m t hne =>
      simp [step, hconn, handled, hpending, Request.pkt, handlerFuncDispatch]
  | _ => exact absurd rfl hrequest

theorem quiescent_iff {s : System} (hs : s.WellFormed) :
    Quiescent step Event.IsDelivery s ↔ s.NothingInFlight := by
  constructor
  · intro hrest a hconn
    constructor
    · by_contra hrequest
      have hsome := handle_isSome hs hconn hrequest
      rw [hrest (.handle a) trivial] at hsome
      cases hsome
    · cases hread : s.toClient a with
      | nil => rfl
      | cons d rest =>
          have hnone := hrest (.read a []) trivial
          simp [step, hconn, hread] at hnone
  · intro hnothing e he
    cases e with
    | read a message =>
        by_cases hconn : s.Connected a
        · simp [step, (hnothing a hconn).2]
        · simp [step, hconn]
    | handle a =>
        by_cases hconn : s.Connected a
        · simp [step, handled, (hnothing a hconn).1]
        · simp [step, hconn]
    | accept | sendOrder | sendReg | disconnect => exact he.elim

theorem NothingInFlight.pending {s : System} (h : s.NothingInFlight) {a : Addr}
    (hconn : s.Connected a) : s.pending a = [] := by
  obtain ⟨hrequest, hread⟩ := h a hconn
  simp [System.pending, unreadOrders, hrequest, hread]

theorem wellFormed_run {events : List Event} {s s' : System} (hs : s.WellFormed)
    (hrun : run step s events = some s') : s'.WellFormed := by
  have hkept : ∀ (s : System) (e : Event) s', s.WellFormed → True → s.step e = some s' →
      s'.WellFormed := fun _ _ _ hs _ hstep => wellFormed_step hs hstep
  exact run_invariant hkept hs (.of_forall (fun _ _ => trivial) s events) hrun

/-! ## Runs in which nobody leaves -/

/-- What holds while nobody has left and every order named an item. -/
structure Steady (s : System) : Prop where
  invariant : s.Invariant
  served : s.CustomersServed
  busy : s.BusyWhilePending
  named : ∀ a, s.Connected a → ∀ p, s.peer a = .customer p → p.codes ≠ []
  /-- The customer of a pending order is still connected. -/
  here : ∀ b, s.Connected b → ∀ t ∈ s.pending b,
    s.Connected t.cust ∧ s.conn t.cust = t.conn

theorem initial_steady : initial.Steady where
  invariant := initial_invariant
  served := by simp [CustomersServed, initial, Connected]
  busy := by simp [BusyWhilePending, initial, Connected]
  named := by simp [initial, Connected]
  here := by simp [initial, Connected]

namespace Steady

variable {s s' : System} {e : Event}

theorem updatesFindCustomer (h : s.Steady) (hstep : s.step e = some s') :
    s.UpdatesFindCustomer e := by
  intro a hupdate
  obtain ⟨p, m, t, hu, -⟩ := updating_of_handlesUpdate h.invariant.wellFormed hupdate hstep
  have ht : t ∈ s.pending a := by simp [hu.pending]
  exact ⟨t.cust, hu.assigned, (h.here a hu.connected t ht).1⟩

theorem dispensable (h : s.Steady) {a : Addr} {p : RegCookPkt} {m : CookUpdatePkt}
    {t : Ticket} (hu : s.Updating a p m t) (i : Item) : s.Dispensable t.cust i := by
  intro c hc _ _ hat
  have ht : t ∈ s.pending a := by simp [hu.pending]
  obtain ⟨hconn, hname⟩ := h.here a hu.connected t ht
  have hcustomer :=
    (h.invariant.tickets.cause a hu.connected t ht t.cust hconn hname).2
  have hbusy := (hat.busy h.invariant hconn hc).1
  rw [hcustomer] at hbusy
  cases hbusy

theorem keepsCooks (h : s.Steady) (hstays : e.Stays) (hstep : s.step e = some s') :
    s.KeepsCooks e := by
  cases transition_of_step h.invariant.wellFormed hstep with
  | accept | sendOrder | sendReg | readOrder | readUpdate => trivial
  | disconnect => exact hstays.elim
  | @register a p hconn hpeer hstate hrequest =>
      refine ⟨by simp [ordering, hrequest], fun hupdate => ?_⟩
      obtain ⟨-, m, t, rest, hanswer⟩ := hupdate
      simp [hrequest] at hanswer
  | @order a p heap grants n ho =>
      refine ⟨fun q hq => ?_, fun hupdate => ?_⟩
      · obtain rfl : p = q := by simpa [ordering, ho.request] using hq
        exact h.named a ho.connected p ho.peer
      · obtain ⟨-, m, t, rest, hanswer⟩ := hupdate
        simp [ho.request] at hanswer
  | @update a p m t hu | @orphan a p m t hu =>
      refine ⟨by simp [ordering, hu.request], fun _ b hb i _ => ?_⟩
      obtain rfl : t.cust = b := by simpa [hu.assigned] using hb
      exact h.dispensable hu i

theorem named_step (h : s.Steady) (hstays : e.Stays) (hstep : s.step e = some s') :
    ∀ a, s'.Connected a → ∀ p, s'.peer a = .customer p → p.codes ≠ [] := by
  intro a hconn p hpeer
  cases transition_of_step h.invariant.wellFormed hstep with
  | @accept b hfree =>
      by_cases hab : a = b
      · simp [System.accept, hab] at hpeer
      · exact h.named a (by simpa [hab] using hconn) p
          (by simpa [System.accept, hab] using hpeer)
  | @sendOrder b q =>
      by_cases hab : a = b
      · obtain rfl : q = p := by simpa [introduce, hab] using hpeer
        exact hstays
      · exact h.named a hconn p (by simpa [introduce, hab] using hpeer)
  | @sendReg b q =>
      by_cases hab : a = b
      · simp [introduce, hab] at hpeer
      · exact h.named a hconn p (by simpa [introduce, hab] using hpeer)
  | disconnect => exact hstays.elim
  | _ => exact h.named a hconn p hpeer

theorem here_step (h : s.Steady) (hstays : e.Stays) (hstep : s.step e = some s') :
    ∀ b, s'.Connected b → ∀ t ∈ s'.pending b,
      s'.Connected t.cust ∧ s'.conn t.cust = t.conn := by
  intro b hb t ht
  cases change_of_step h.invariant.wellFormed hstep with
  | @accept a hfree =>
      obtain ⟨hba, hold⟩ := mem_pending_accept.mp ht
      obtain ⟨hconn, hname⟩ := h.here b (by simpa [hba] using hb) t hold
      have hne : t.cust ≠ a := fun heq => hfree (heq ▸ hconn)
      exact ⟨by simp [hconn], (conn_accept_of_ne hne).trans hname⟩
  | order ho =>
      rcases mem_pending_order_cases ho ht with hold | ⟨-, hcust, hconn⟩
      · exact h.here b hb t hold
      · exact ⟨hcust ▸ ho.connected, by rw [hcust, hconn]; rfl⟩
  | update hu => exact h.here b hb t ((mem_pending_update hu).mp ht).2
  | quiet hq =>
      obtain ⟨hconn, hname⟩ := h.here b (hq.old hb) t (hq.pending b hb t ht)
      refine ⟨(hq.connected t.cust).mpr ⟨hconn, ?_⟩, by rw [hq.conn]; exact hname⟩
      rintro rfl
      exact hstays

theorem step (h : s.Steady) (hstays : e.Stays) (hstep : s.step e = some s') :
    s'.Steady where
  invariant := invariant_step h.invariant hstep
  served := customersServed_step h.invariant h.served (h.keepsCooks hstays hstep) hstep
  busy := busyWhilePending_step h.invariant.wellFormed h.busy (h.updatesFindCustomer hstep)
    hstep
  named := h.named_step hstays hstep
  here := h.here_step hstays hstep

theorem run {events : List Event} (h : s.Steady) (hstays : ∀ e ∈ events, e.Stays)
    (hrun : Foundation.run System.step s events = some s') : s'.Steady := by
  have hkept : ∀ (s : System) (e : Event) s', s.Steady → e.Stays → s.step e = some s' →
      s'.Steady := fun _ _ _ hs he hstep => hs.step he hstep
  exact run_invariant hkept h (.of_mem hstays) hrun

theorem told (h : s.Steady) (hrest : s.NothingInFlight) {c : Addr} {p : CustOrderPkt}
    (hconn : s.Connected c) (hpeer : s.peer c = .customer p) : s.TerminalSent c := by
  rcases nobodyWaits_of_served h.invariant h.served c p hconn hpeer (hrest c hconn).1 with
    hsaid | ⟨b, hb, -, -, t, ht, -⟩
  · exact hsaid
  · rw [hrest.pending hb] at ht
    simp at ht

theorem cooks_free (h : s.Steady) (hrest : s.NothingInFlight) {b : Addr} {p : RegCookPkt}
    (hconn : s.Connected b) (hpeer : s.peer b = .cook p) :
    (s.record b).state = .cookFree := by
  have hphase := h.invariant.wellFormed.phase b hconn
  have hbusy := h.busy b hconn
  rw [hrest.pending hconn] at hbusy
  unfold InPhase at hphase
  rw [hpeer, (hrest b hconn).1] at hphase
  generalize (s.record b).state = state, (s.record b).assignedClient = assigned,
    s.unreadOrders b = unread at hphase hbusy
  cases hphase with
  | free => rfl
  | cooking | stuck => exact absurd rfl (hbusy rfl)

end Steady

theorem inFlight_run {s s' : System} (hs : s.WellFormed) {deliveries : List Event}
    (hdeliver : ∀ e ∈ deliveries, e.IsDelivery)
    (hmore : Foundation.run step s deliveries = some s') :
    deliveries.length + s'.inFlight ≤ s.inFlight := by
  have hkept : ∀ (s : System) (e : Event) s', s.WellFormed → e.IsDelivery →
      s.step e = some s' → s'.WellFormed := fun _ _ _ hs _ hstep => wellFormed_step hs hstep
  have hless : ∀ (s : System) (e : Event) s', s.WellFormed → e.IsDelivery →
      s.step e = some s' → s'.inFlight < s.inFlight :=
    fun _ _ _ hs he hstep => inFlight_step hs he hstep
  exact length_add_measure_le hkept hless hs hdeliver hmore

/--
From every state of every run the packets in flight run out: whatever is read and
handled next, in whatever order, the steps are at most as many as `inFlight` says,
and they go on exactly as long as some connection holds a packet.
-/
theorem packets_run_out {events : List Event} {s : System}
    (hrun : Foundation.run step initial events = some s) :
    (∀ deliveries s', (∀ e ∈ deliveries, e.IsDelivery) →
        Foundation.run step s deliveries = some s' →
        deliveries.length + s'.inFlight ≤ s.inFlight ∧
          (Quiescent step Event.IsDelivery s' ↔ s'.NothingInFlight)) ∧
      ∃ deliveries s', (∀ e ∈ deliveries, e.IsDelivery) ∧
        Foundation.run step s deliveries = some s' ∧ s'.NothingInFlight := by
  have hs := wellFormed_run initial_wellFormed hrun
  have hkept : ∀ (s : System) (e : Event) s', s.WellFormed → e.IsDelivery →
      s.step e = some s' → s'.WellFormed := fun _ _ _ hs _ hstep => wellFormed_step hs hstep
  have hless : ∀ (s : System) (e : Event) s', s.WellFormed → e.IsDelivery →
      s.step e = some s' → s'.inFlight < s.inFlight :=
    fun _ _ _ hs he hstep => inFlight_step hs he hstep
  constructor
  · intro deliveries s' hdeliver hmore
    exact ⟨inFlight_run hs hdeliver hmore, quiescent_iff (wellFormed_run hs hmore)⟩
  · obtain ⟨deliveries, s', hdeliver, hmore, hrest⟩ := exists_run_quiescent hkept hless hs
    exact ⟨deliveries, s', hdeliver, hmore,
      (quiescent_iff (wellFormed_run hs hmore)).mp hrest⟩

/--
In every run in which nobody leaves and every order names an item, whenever no packet
is left in flight, every customer has been told the end of its order, and every cook
that registered is free.
-/
theorem all_served_at_rest {events : List Event} {s : System}
    (hrun : Foundation.run step initial events = some s) (hstays : ∀ e ∈ events, e.Stays)
    (hrest : s.NothingInFlight) :
    (∀ c p, s.Connected c → s.peer c = .customer p → s.TerminalSent c) ∧
      ∀ b p, s.Connected b → s.peer b = .cook p → (s.record b).state = .cookFree := by
  have hsteady := initial_steady.run hstays hrun
  exact ⟨fun _ _ hc hp => hsteady.told hrest hc hp,
    fun _ _ hb hp => hsteady.cooks_free hrest hb hp⟩

def bothAnswerRun : List Event :=
  [.accept 1, .sendReg 1 (.ofItems [1]), .handle 1,
   .accept 2, .sendReg 2 (.ofItems [1, 2]), .handle 2,
   .accept 3, .sendOrder 3 (.ofCodes [1, 2]), .handle 3,
   .read 2 [], .read 1 [], .handle 1, .handle 2, .read 3 []]

set_option maxRecDepth 4000 in
theorem bothAnswerRun_rests :
    ∃ s, Foundation.run step initial bothAnswerRun = some s ∧ s.NothingInFlight :=
  exists_of_any (by decide)

set_option maxRecDepth 4000 in
theorem packets_run_out_bothAnswerRun :
    ∃ s, Foundation.run step initial (bothAnswerRun.take 9) = some s ∧ s.inFlight = 6 ∧
      ∀ deliveries s', (∀ e ∈ deliveries, e.IsDelivery) →
        Foundation.run step s deliveries = some s' → deliveries.length ≤ 6 := by
  obtain ⟨s, hs, hweight⟩ : ∃ s, Foundation.run step initial (bothAnswerRun.take 9) =
      some s ∧ s.inFlight = 6 := exists_of_any (by decide)
  refine ⟨s, hs, hweight, fun deliveries s' hdeliver hmore => ?_⟩
  have hbound := ((packets_run_out hs).1 deliveries s' hdeliver hmore).1
  omega

theorem all_served_at_rest_bothAnswerRun :
    ∃ s, Foundation.run step initial bothAnswerRun = some s ∧
      (∀ c p, s.Connected c → s.peer c = .customer p → s.TerminalSent c) ∧
      ∀ b p, s.Connected b → s.peer b = .cook p → (s.record b).state = .cookFree := by
  obtain ⟨s, hs, hrest⟩ := bothAnswerRun_rests
  exact ⟨s, hs, all_served_at_rest hs (by decide) hrest⟩

end System

end SysprogTeam3.FoodSys
