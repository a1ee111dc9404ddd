import SysprogTeam3.FoodSys.Invariants

/-!
# The completion message

`cook_update_handler` sends the completion message when no item of the
customer is marked `ASSIGNED`.  That is right as long as the marks in the
customer's record cover the orders that its cooks still have pending.
-/

namespace SysprogTeam3.FoodSys

open SysprogTeam3.Foundation

namespace System

/-- When the completion message is sent, no connected cook has an order of that
customer left. -/
def CompletesFinished (s : System) (e : Event) : Prop :=
  ∀ c, s.SendsComplete e c → ∀ s', s.step e = some s' →
    ∀ b, s'.Connected b → ∀ t ∈ s'.pending b, t.conn ≠ s.conn c

/-- A handled update whose customer is connected has no item marked that another
connected cook still has in a pending order of that customer. -/
def UpdatesOwnItems (s : System) (e : Event) : Prop :=
  ∀ a, s.HandlesUpdate e a → ∀ c, s.Connected c →
    (s.record a).assignedClient = some c → ∀ b, s.Connected b → b ≠ a →
    ∀ t ∈ s.pending b, t.conn = s.conn c → ∀ i, t.order.gives i = true →
      (s.record a).menuItems i ≠ .assigned

instance (s : System) (e : Event) : Decidable (s.UpdatesOwnItems e) :=
  inferInstanceAs (Decidable (∀ a, s.HandlesUpdate e a → ∀ c, s.Connected c →
    (s.record a).assignedClient = some c → ∀ b, s.Connected b → b ≠ a →
    ∀ t ∈ s.pending b, t.conn = s.conn c → ∀ i, t.order.gives i = true →
      (s.record a).menuItems i ≠ .assigned))

/-- The items of the pending orders are marked `ASSIGNED` in the record of the
connection that ordered them. -/
def OrdersMarked (s : System) : Prop :=
  ∀ b, s.Connected b → ∀ t ∈ s.pending b, ∀ c, s.Connected c →
    s.conn c = t.conn → ∀ i, t.order.gives i = true →
      (s.record c).menuItems i = .assigned

theorem ordersMarked_accept {s : System} (hs : s.Invariant) (h : s.OrdersMarked)
    {a : Addr} : (s.accept a).OrdersMarked := by
  intro b hb t ht c hc hct i hi
  obtain ⟨hba, hpending⟩ := mem_pending_accept.mp ht
  have hold : s.Connected b := by simpa [hba] using hb
  have hca : c ≠ a := by
    rintro rfl
    have hlt := hs.tickets.ticketLt b hold t hpending
    have hnew : (s.accept c).conn c = s.nextConn := by simp [accept]
    rw [← hct, hnew] at hlt
    exact absurd hlt (Nat.lt_irrefl _)
  rw [conn_accept_of_ne hca] at hct
  rw [record_accept_of_ne hca]
  exact h b hold t hpending c (by simpa [hca] using hc) hct i hi

theorem ordersMarked_order {s : System} (hs : s.Invariant) (h : s.OrdersMarked)
    {a : Addr} {p : CustOrderPkt} {heap : Heap} {grants : List Grant} {n : Nat}
    (ho : s.Ordering a p heap grants n) :
    (s.afterOrder a heap grants n).OrdersMarked := by
  intro b hb t ht c hc hct i hi
  rcases mem_pending_order_cases ho ht with hold | ⟨hg, hcust, hconn⟩
  · have hcause := (hs.tickets.cause b hb t hold c hc hct).2
    have hca : c ≠ a := ne_of_state hcause ho.state (by decide)
    rw [record_afterOrder, ho.record_of_not_free hca (by rw [hcause]; decide)]
    exact h b hb t hold c hc hct i hi
  · have hca : c = a := hs.tickets.connInj c a hc ho.connected (hct.trans hconn)
    have hgiven : given grants i = true := given_eq_true.mpr ⟨_, hg, hi⟩
    rw [hca, record_afterOrder, ho.record_self]
    simp [grantedCustomer, hgiven]

theorem ordersMarked_update {s : System} (hs : s.Invariant) (h : s.OrdersMarked)
    {a : Addr} {p : RegCookPkt} {m : CookUpdatePkt} {u : Ticket}
    (hu : s.Updating a p m u) (hC : s.UpdatesOwnItems (.handle a)) :
    (s.afterUpdate a u.cust).OrdersMarked := by
  intro b hb t ht c hc hct i hi
  obtain ⟨hba, hold⟩ := (mem_pending_update hu).mp ht
  obtain ⟨hcust, hstate⟩ := hs.tickets.cause b hb t hold c hc hct
  have hmark := h b hb t hold c hc hct i hi
  have hca : c ≠ a := ne_of_state hstate hu.state (by decide)
  by_cases hcu : c = u.cust
  · -- the other cook's items are not among the marks of the updating one
    have hassigned : (s.record a).assignedClient = some c := by
      rw [hu.assigned, hcu]
    have hnot := hC a ⟨rfl, m, u, [], hu.request⟩ c hc hassigned b hb hba t hold
      hct.symm i hi
    rw [hcu] at hmark ⊢
    rw [record_afterUpdate_cust hu.other]
    simpa [completedCustomer, completeItems, hnot] using hmark
  · rw [record_afterUpdate_of_ne hca hcu]
    exact hmark

theorem ordersMarked_step {s s' : System} (hs : s.Invariant) (h : s.OrdersMarked)
    {e : Event} (hC : s.UpdatesOwnItems e) (hstep : s.step e = some s') :
    s'.OrdersMarked := by
  cases change_of_step hs.wellFormed hstep with
  | accept hfree => exact ordersMarked_accept hs h
  | order ho => exact ordersMarked_order hs h ho
  | update hu => exact ordersMarked_update hs h hu hC
  | quiet hq =>
      intro b hb t ht c hc hct i hi
      have hb' := hq.old hb
      have ht' := hq.pending b hb t ht
      have hc' := hq.old hc
      rw [hq.conn] at hct
      have hstate := (hs.tickets.cause b hb' t ht' c hc' hct).2
      rw [hq.record c hc (by rw [hstate]; decide)]
      exact h b hb' t ht' c hc' hct i hi

theorem not_complete_mem_order (grants : List Grant) (heap : Heap) (a c : Addr)
    (n : Nat) : (c, ServerPkt.custUpdate ⟨orderCompleteMessage⟩) ∉
      grants.map Grant.write ++ notifyCustomer heap a n := by
  intro hmem
  rcases List.mem_append.mp hmem with hgrant | hnotify
  · obtain ⟨g, -, hg⟩ := List.mem_map.mp hgrant
    simp [Grant.write] at hg
  · unfold notifyCustomer at hnotify
    split at hnotify
    · simp at hnotify
    · simp only [List.mem_singleton, Prod.mk.injEq, ServerPkt.custUpdate.injEq,
        CustUpdatePkt.mk.injEq] at hnotify
      exact customerMsg_ne_complete _ _ hnotify.2.symm

theorem complete_mem_completionWrites {cust c : Addr} {r : Client} :
    (c, ServerPkt.custUpdate ⟨orderCompleteMessage⟩) ∈ completionWrites cust r ↔
      c = cust ∧ assignedFound r = false := by
  unfold completionWrites
  cases assignedFound r <;> simp

theorem updating_of_sendsComplete {s s' : System} (hs : s.WellFormed) {e : Event}
    {c : Addr} (hsends : s.SendsComplete e c) (hstep : s.step e = some s') :
    ∃ a p m t, e = .handle a ∧ s.Updating a p m t ∧ s.Connected c ∧ t.cust = c ∧
      s' = s.afterUpdate a c ∧ assignedFound (s.completedCustomer a c) = false := by
  unfold SendsComplete at hsends
  cases change_of_step hs hstep with
  | accept hfree => simp [writes] at hsends
  | order ho =>
      rw [ho.writes] at hsends
      exact absurd hsends (not_complete_mem_order _ _ _ _ _)
  | @update a p m t hu hcust hwrites =>
      rw [hwrites] at hsends
      obtain ⟨rfl, hfound⟩ := complete_mem_completionWrites.mp hsends
      exact ⟨a, p, m, t, rfl, hu, hcust, rfl, rfl, hfound⟩
  | quiet hq hwrites => simp [hwrites] at hsends

theorem completesFinished_of_marked {s : System} (hs : s.Invariant)
    (h : s.OrdersMarked) {e : Event} (hC : s.UpdatesOwnItems e) :
    s.CompletesFinished e := by
  intro c hsends s' hstep b hb t ht hct
  have hs' := invariant_step hs hstep
  have hmarked := ordersMarked_step hs h hC hstep
  obtain ⟨a, p, m, u, -, hu, hc, hcust, rfl, hfound⟩ :=
    updating_of_sendsComplete hs.wellFormed hsends hstep
  obtain ⟨i, hi⟩ := hs'.tickets.gives b hb t ht
  have hmark := hmarked b hb t ht c hc hct.symm i hi
  rw [record_afterUpdate_cust (hcust ▸ hu.other)] at hmark
  have hany := assignedFound_eq_true.mpr ⟨i, hmark⟩
  rw [hfound] at hany
  cases hany

/--
In every run whose updates mark no item that another cook still has to make for
the same customer, the completion message is only sent when every cook of the
order has answered.
-/
theorem completions_are_finished {events : List Event}
    (hown : AllSteps step UpdatesOwnItems initial events) :
    AllSteps step CompletesFinished initial events := by
  have hstep : ∀ (s : System) e s', s.Invariant ∧ s.OrdersMarked →
      s.UpdatesOwnItems e → s.step e = some s' →
      s'.Invariant ∧ s'.OrdersMarked := fun s e s' hs hC hnext =>
    ⟨invariant_step hs.1 hnext, ordersMarked_step hs.1 hs.2 hC hnext⟩
  have hinit : initial.Invariant ∧ initial.OrdersMarked :=
    ⟨initial_invariant, by simp [OrdersMarked, initial, Connected]⟩
  exact .of_invariant hstep
    (fun s e hs hC => completesFinished_of_marked hs.1 hs.2 hC) hinit hown

def sharedCompletionRun : List Event :=
  [.accept 1, .sendReg 1 (.ofItems [1]), .handle 1,
   .accept 2, .sendReg 2 (.ofItems [1, 2]), .handle 2,
   .accept 3, .sendOrder 3 (.ofCodes [1, 2]), .handle 3,
   .read 1 [], .handle 1, .read 2 [], .handle 2]

theorem completions_are_finished_sharedCompletionRun :
    (run step initial sharedCompletionRun).isSome ∧
      AllSteps step CompletesFinished initial sharedCompletionRun :=
  ⟨by decide +kernel, completions_are_finished (by decide +kernel)⟩

/-- The first cook still has item 1 marked from its first order when it answers
the second, of which item 1 is the other cook's. -/
def staleMarkRun : List Event :=
  [.accept 1, .sendReg 1 (.ofItems [1, 2]), .handle 1,
   .accept 2, .sendReg 2 (.ofItems [1]), .handle 2,
   .accept 3, .sendOrder 3 (.ofCodes [1]), .handle 3, .read 1 [], .handle 1,
   .accept 4, .sendOrder 4 (.ofCodes [1, 2]), .handle 4, .read 1 []]

theorem staleMarkRun_isSome : (run step initial staleMarkRun).isSome := by
  decide +kernel

def staleMarkState : System := (run step initial staleMarkRun).get staleMarkRun_isSome

theorem staleMarkState_step_isSome : (staleMarkState.step (.handle 1)).isSome := by
  decide +kernel

def staleMarkPending : List Ticket :=
  ((staleMarkState.step (.handle 1)).get staleMarkState_step_isSome).pending 2

theorem staleMarkState_not_completesFinished :
    run step initial staleMarkRun = some staleMarkState ∧
      ¬ staleMarkState.CompletesFinished (.handle 1) := by
  refine ⟨(Option.some_get staleMarkRun_isSome).symm, fun h => ?_⟩
  have hleft : ∃ t ∈ staleMarkPending, t.conn = staleMarkState.conn 4 := by
    decide +kernel
  obtain ⟨t, ht, hconn⟩ := hleft
  exact h 4 (by decide +kernel) _
    (Option.some_get staleMarkState_step_isSome).symm 2 (by decide +kernel) t ht
    hconn

end System

end SysprogTeam3.FoodSys
