import SysprogTeam3.FoodSys.Invariants

/-!
# Addresses and connections

`assigned_client` holds the address of a record, and the search of
`cook_update_handler` compares addresses.  An update therefore reaches the
connection it was cooked for as long as `on_accept` is not handed an address
that a cook with a pending order still holds.
-/

namespace SysprogTeam3.FoodSys

open SysprogTeam3.Foundation

namespace System

def answering (s : System) (a : Addr) : Option Ticket :=
  (s.toServer a).head?.bind Request.ticket?

/-- A handled `COOK_UPDATE` changes the marks of nobody, and sends a
`CUST_UPDATE` to nobody, but the connection whose order it answers. -/
def ReachesOwnCustomer (s : System) (e : Event) : Prop :=
  ∀ a t, e = .handle a → s.answering a = some t → ∀ s', s.step e = some s' →
    ∀ c, ((s'.record c).menuItems ≠ (s.record c).menuItems ∨
        ∃ p, (c, ServerPkt.custUpdate p) ∈ s.writes e) →
      s.Connected c ∧ s.conn c = t.conn

/-- A new record is not at an address that is still the `assigned_client` of a
connected cook with a pending order. -/
def AcceptsUnreferenced (s : System) : Event → Prop
  | .accept a => ∀ b, s.Connected b → s.pending b ≠ [] →
      (s.record b).assignedClient ≠ some a
  | _ => True

instance (s : System) (e : Event) : Decidable (s.AcceptsUnreferenced e) :=
  match e with
  | .accept a => inferInstanceAs (Decidable (∀ b, s.Connected b →
      s.pending b ≠ [] → (s.record b).assignedClient ≠ some a))
  | .sendOrder _ _ | .sendReg _ _ | .read _ _ | .handle _ | .disconnect _ =>
      isTrue trivial

/-- The record that a pending order names, if it is in the queue at all, is the
record of the connection that caused the order. -/
def CustomersKept (s : System) : Prop :=
  ∀ b, s.Connected b → ∀ t ∈ s.pending b, s.Connected t.cust →
    s.conn t.cust = t.conn

theorem customersKept_accept {s : System} (hs : s.WellFormed)
    (h : s.CustomersKept) {a : Addr} (hC : s.AcceptsUnreferenced (.accept a)) :
    (s.accept a).CustomersKept := by
  intro b hb t ht hcust
  obtain ⟨hba, ht⟩ := mem_pending_accept.mp ht
  have hold : s.Connected b := by simpa [hba] using hb
  have hassigned := ((hs.phase b hold).of_pending ht).2.1
  have hne : t.cust ≠ a := by
    intro heq
    have hunref := hC b hold (List.ne_nil_of_mem ht)
    rw [hassigned, heq] at hunref
    exact hunref rfl
  have hcust' : s.Connected t.cust := by simpa [hne] using hcust
  rw [conn_accept_of_ne hne]
  exact h b hold t ht hcust'

theorem customersKept_step {s s' : System} (hs : s.WellFormed)
    (h : s.CustomersKept) {e : Event} (hC : s.AcceptsUnreferenced e)
    (hstep : s.step e = some s') : s'.CustomersKept := by
  cases change_of_step hs hstep with
  | accept hfree => exact customersKept_accept hs h hC
  | order ho =>
      intro b hb t ht hcust
      rcases mem_pending_order_cases ho ht with hold | ⟨-, heq, hconn⟩
      · exact h b hb t hold hcust
      · rw [heq]
        exact hconn.symm
  | update hu =>
      intro b hb t ht hcust
      exact h b hb t ((mem_pending_update hu).mp ht).2 hcust
  | quiet hq =>
      intro b hb t ht hcust
      rw [hq.conn]
      exact h b (hq.old hb) t (hq.pending b hb t ht) (hq.old hcust)

theorem reachesOwnCustomer_of_kept {s : System} (hs : s.WellFormed)
    (h : s.CustomersKept) (e : Event) : s.ReachesOwnCustomer e := by
  rintro a t rfl hanswer s' hstep c hc
  cases transition_of_step hs hstep with
  | register hconn hpeer hstate hrequest =>
      simp [answering, hrequest, Request.ticket?] at hanswer
  | order ho => simp [answering, ho.request, Request.ticket?] at hanswer
  | @update a p m' t' hu hcust hwrites =>
      have ht : t' = t := by
        simpa [answering, hu.request, Request.ticket?] using hanswer
      have hpending : t' ∈ s.pending a := by simp [hu.pending]
      have hkept := h a hu.connected t' hpending hcust
      have hself : c = t'.cust := by
        rcases hc with hmenu | ⟨p, hp⟩
        · by_contra hne
          by_cases hca : c = a
          · rw [hca, record_afterUpdate_self] at hmenu
            exact hmenu rfl
          · rw [record_afterUpdate_of_ne hca hne] at hmenu
            exact hmenu rfl
        · rw [hwrites, completionWrites] at hp
          split at hp
          · simp at hp
          · simp only [List.mem_singleton, Prod.mk.injEq] at hp
            exact hp.1
      rw [hself, ← ht]
      exact ⟨hcust, hkept⟩
  | orphan hu hcust hwrites =>
      rcases hc with hmenu | ⟨p, hp⟩
      · exact absurd rfl hmenu
      · simp [hwrites] at hp

/--
In every run that never gives a new connection an address held by a cook with a
pending order, every update reaches only the connection it was cooked for.
-/
theorem updates_reach_own_customer {events : List Event}
    (hunref : AllSteps step AcceptsUnreferenced initial events) :
    AllSteps step ReachesOwnCustomer initial events := by
  have hstep : ∀ (s : System) e s', s.WellFormed ∧ s.CustomersKept →
      s.AcceptsUnreferenced e → s.step e = some s' →
      s'.WellFormed ∧ s'.CustomersKept := fun s e s' hs hC hnext =>
    ⟨wellFormed_step hs.1 hnext, customersKept_step hs.1 hs.2 hC hnext⟩
  have hinit : initial.WellFormed ∧ initial.CustomersKept :=
    ⟨initial_wellFormed, by simp [CustomersKept, initial, Connected]⟩
  exact .of_invariant hstep
    (fun s e hs _ => reachesOwnCustomer_of_kept hs.1 hs.2 e) hinit hunref

/-- The address of a customer that has left goes to a new connection after its
cook has answered. -/
def reuseRun : List Event :=
  [.accept 1, .sendReg 1 (.ofItems [1, 2]), .handle 1,
   .accept 2, .sendOrder 2 (.ofCodes [1]), .handle 2, .read 1 [], .handle 1,
   .disconnect 2, .accept 2, .sendOrder 2 (.ofCodes [2]), .handle 2,
   .read 1 [], .handle 1]

theorem updates_reach_own_customer_reuseRun :
    (run step initial reuseRun).isSome ∧
      AllSteps step ReachesOwnCustomer initial reuseRun :=
  ⟨by decide +kernel, updates_reach_own_customer (by decide +kernel)⟩

/-- The address goes to a new connection while the cook is still at work. -/
def lateUpdateRun : List Event :=
  [.accept 1, .sendReg 1 (.ofItems [1]), .handle 1,
   .accept 2, .sendOrder 2 (.ofCodes [1]), .handle 2,
   .disconnect 2, .accept 2, .read 1 []]

theorem lateUpdateRun_isSome : (run step initial lateUpdateRun).isSome := by
  decide +kernel

def lateUpdateState : System :=
  (run step initial lateUpdateRun).get lateUpdateRun_isSome

theorem lateUpdateState_step_isSome :
    (lateUpdateState.step (.handle 1)).isSome := by decide +kernel

theorem lateUpdateState_answering_isSome :
    (lateUpdateState.answering 1).isSome := by decide +kernel

theorem lateUpdateState_not_reachesOwnCustomer :
    run step initial lateUpdateRun = some lateUpdateState ∧
      ¬ lateUpdateState.ReachesOwnCustomer (.handle 1) := by
  refine ⟨(Option.some_get lateUpdateRun_isSome).symm, fun h => ?_⟩
  have hreached := h 1 _ rfl
    (Option.some_get lateUpdateState_answering_isSome).symm _
    (Option.some_get lateUpdateState_step_isSome).symm 2
    (.inl fun hsame => absurd (congrFun hsame 1) (by decide +kernel))
  exact absurd hreached.2 (by decide +kernel)

end System

end SysprogTeam3.FoodSys
