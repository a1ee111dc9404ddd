import SysprogTeam3.FoodSys.Invariants

/-!
# A cook's way through its orders

When a cook that has answered is free again, and what it can then still make.
Both depend on whether the update finds the customer's record in the queue: if
it does not, the cook stays busy, and if it does, the cook is free but keeps
the marks of the order.
-/

namespace SysprogTeam3.FoodSys

open SysprogTeam3.Foundation

namespace System

def AssignedConnected (s : System) (a : Addr) : Prop :=
  ∃ cust, (s.record a).assignedClient = some cust ∧ s.Connected cust

instance (s : System) (a : Addr) : Decidable (s.AssignedConnected a) :=
  decidable_of_iff
    ((s.record a).assignedClient.any (· ∈ s.server.clientTailq) = true)
    (by cases h : (s.record a).assignedClient <;> simp [AssignedConnected, h])

theorem Updating.assignedConnected_iff {s : System} {a : Addr} {p : RegCookPkt}
    {m : CookUpdatePkt} {t : Ticket} (h : s.Updating a p m t) :
    s.AssignedConnected a ↔ s.Connected t.cust := by
  simp [AssignedConnected, h.assigned]

/-! ## Busy cooks -/

def BusyWhilePending (s : System) : Prop :=
  ∀ b, s.Connected b → (s.record b).state = .cookBusy → s.pending b ≠ []

def FreeAfterUpdate (s : System) (e : Event) : Prop :=
  ∀ a, s.HandlesUpdate e a → ∀ s', s.step e = some s' →
    (s'.record a).state = .cookFree

/-- An update is only handled while the customer it is for is in the queue. -/
def UpdatesFindCustomer (s : System) (e : Event) : Prop :=
  ∀ a, s.HandlesUpdate e a → s.AssignedConnected a

instance (s : System) (e : Event) : Decidable (s.UpdatesFindCustomer e) :=
  inferInstanceAs (Decidable (∀ a, s.HandlesUpdate e a → s.AssignedConnected a))

theorem busyWhilePending_order {s : System} (h : s.BusyWhilePending) {a : Addr}
    {p : CustOrderPkt} {heap : Heap} {grants : List Grant} {n : Nat}
    (ho : s.Ordering a p heap grants n) :
    (s.afterOrder a heap grants n).BusyWhilePending := by
  intro b hb hbusy
  by_cases hmem : b ∈ grants.map Prod.fst
  · obtain ⟨⟨b', q⟩, hg, rfl⟩ := List.mem_map.mp hmem
    have hticket : (⟨a, s.conn a, q⟩ : Ticket) ∈
        (s.afterOrder a heap grants n).pending b' :=
      (mem_pending_order ho).mpr (.inr (mem_grantTickets.mpr ⟨q, hg, rfl⟩))
    exact List.ne_nil_of_mem hticket
  · have hne : b ≠ a := by
      rintro rfl
      simp [ho.record_self, grantedCustomer, orderedClient] at hbusy
    have hold : (s.record b).state = .cookBusy := by
      obtain hsame | ⟨-, hlooked⟩ := ho.record_others hne hmem
      · simpa [hsame] using hbusy
      · simpa [hlooked] using hbusy
    obtain ⟨t, ht⟩ := List.exists_mem_of_ne_nil _ (h b hb hold)
    exact List.ne_nil_of_mem ((mem_pending_order ho).mpr (.inl ht))

theorem busyWhilePending_step {s s' : System} (hs : s.WellFormed)
    (h : s.BusyWhilePending) {e : Event} (hC : s.UpdatesFindCustomer e)
    (hstep : s.step e = some s') : s'.BusyWhilePending := by
  cases transition_of_step hs hstep with
  | @accept a hfree =>
      intro b hb hbusy
      have hba : b ≠ a := by
        rintro rfl
        simp at hbusy
      rw [pending_accept_of_ne hba]
      exact h b (by simpa [hba] using hb)
        (by rwa [record_accept_of_ne hba] at hbusy)
  | sendOrder hconn hpeer hrange =>
      exact fun b hb hbusy => pending_introduce (s := s) (r := .custOrder _) rfl ▸
        h b hb hbusy
  | sendReg hconn hpeer =>
      exact fun b hb hbusy => pending_introduce (s := s) (r := .regCook _) rfl ▸
        h b hb hbusy
  | @readOrder a m p t rest hconn hpeer hread =>
      exact fun b hb hbusy => pending_readOrder (hs.phase a hconn) hread ▸
        h b hb hbusy
  | readUpdate hconn hread =>
      exact fun b hb hbusy => pending_readUpdate hread ▸ h b hb hbusy
  | @register a p hconn hpeer hstate hrequest =>
      intro b hb hbusy
      have hba : b ≠ a := by
        rintro rfl
        rw [record_register_self] at hbusy
        cases hbusy
      rw [record_register_of_ne hba] at hbusy
      rw [pending_register hrequest]
      exact h b hb hbusy
  | order ho => exact busyWhilePending_order h ho
  | @update a p m t hu hcust =>
      intro b hb hbusy
      have hba : b ≠ a := by
        rintro rfl
        simp [record_afterUpdate_self] at hbusy
      rw [pending_update_of_ne hba]
      refine h b hb ?_
      by_cases hbc : b = t.cust
      · subst hbc
        rw [record_afterUpdate_cust hba] at hbusy
        exact hbusy
      · rwa [record_afterUpdate_of_ne hba hbc] at hbusy
  | @orphan a p m t hu hcust =>
      have hfound := hC a ⟨rfl, m, t, [], hu.request⟩
      exact absurd (hu.assignedConnected_iff.mp hfound) hcust
  | @disconnect a hconn =>
      intro b hb hbusy
      obtain ⟨hba, hb⟩ := (disconnect_connected hs).mp hb
      rw [pending_disconnect_of_ne hba]
      exact h b hb hbusy

theorem not_busyWhilePending_of_orphan {s s' : System} (hs : s.WellFormed)
    {e : Event} (hC : ¬ s.UpdatesFindCustomer e) (hstep : s.step e = some s') :
    ¬ s'.BusyWhilePending := by
  simp only [UpdatesFindCustomer, not_forall] at hC
  obtain ⟨a, hupdate, hmissing⟩ := hC
  obtain ⟨p, m, t, hu, ⟨hcust, -⟩ | ⟨-, rfl⟩⟩ :=
    updating_of_handlesUpdate hs hupdate hstep
  · exact absurd (hu.assignedConnected_iff.mpr hcust) hmissing
  · intro h
    exact h a hu.connected hu.state (pending_orphan_self hu)

theorem freeAfterUpdate_of_found {s : System} (hs : s.WellFormed) {e : Event}
    (hC : s.UpdatesFindCustomer e) : s.FreeAfterUpdate e := by
  intro a hupdate s' hstep
  obtain ⟨p, m, t, hu, ⟨-, rfl⟩ | ⟨hcust, -⟩⟩ :=
    updating_of_handlesUpdate hs hupdate hstep
  · rw [record_afterUpdate_self]
  · exact absurd (hu.assignedConnected_iff.mp (hC a hupdate)) hcust

/--
A run frees every cook that has answered, and never leaves one busy with
nothing pending, exactly when each of its updates finds the customer's record
in the queue.
-/
theorem answered_cooks_free_iff {events : List Event} {s : System}
    (hrun : run step initial events = some s) :
    AllStates step BusyWhilePending initial events ∧
        AllSteps step FreeAfterUpdate initial events ↔
      AllSteps step UpdatesFindCustomer initial events := by
  have hstep : ∀ (s : System) e s', s.WellFormed ∧ s.BusyWhilePending →
      s.UpdatesFindCustomer e → s.step e = some s' →
      WellFormed s' ∧ BusyWhilePending s' := fun s e s' hs hC hnext =>
    ⟨wellFormed_step hs.1 hnext, busyWhilePending_step hs.1 hs.2 hC hnext⟩
  have hinit : initial.WellFormed ∧ initial.BusyWhilePending :=
    ⟨initial_wellFormed, by simp [BusyWhilePending, initial, Connected]⟩
  have hstates := allStates_iff_allSteps (fun s hs => hs.2) hstep
    (fun s e s' hs hC hnext => not_busyWhilePending_of_orphan hs.1 hC hnext)
    hinit hrun
  constructor
  · exact fun h => hstates.mp h.1
  · intro h
    exact ⟨hstates.mpr h, .of_invariant hstep
      (fun s e hs hC => freeAfterUpdate_of_found hs.1 hC) hinit h⟩

def orphanRun : List Event :=
  [.accept 1, .sendReg 1 (.ofItems [1]), .handle 1,
   .accept 2, .sendOrder 2 (.ofCodes [1]), .handle 2, .disconnect 2,
   .read 1 [], .handle 1]

theorem orphanRun_isSome : (run step initial orphanRun).isSome := by
  decide +kernel

theorem orphanRun_not_busyWhilePending :
    ∃ s, run step initial orphanRun = some s ∧ ¬ s.BusyWhilePending :=
  ⟨_, (Option.some_get orphanRun_isSome).symm, fun h =>
    h 1 (by decide +kernel) (by decide +kernel) (by decide +kernel)⟩

def finishedRun : List Event :=
  [.accept 1, .sendReg 1 (.ofItems [1]), .handle 1,
   .accept 2, .sendOrder 2 (.ofCodes [1]), .handle 2, .read 1 [], .handle 1]

theorem finishedRun_isSome : (run step initial finishedRun).isSome := by
  decide +kernel

theorem answered_cooks_free_finishedRun :
    AllStates step BusyWhilePending initial finishedRun ∧
      AllSteps step FreeAfterUpdate initial finishedRun :=
  (answered_cooks_free_iff (Option.some_get finishedRun_isSome).symm).mpr
    (by decide +kernel)

/-! ## Free cooks -/

/-- A free cook can be given everything that it declared. -/
def FreeCooksCapable (s : System) : Prop :=
  ∀ b p, s.Connected b → s.peer b = .cook p → (s.record b).state = .cookFree →
    ∀ i, p.declares i = true → (s.record b).menuItems i = .capable

/-- An update is only handled when the customer it is for has gone. -/
def UpdatesMissCustomer (s : System) (e : Event) : Prop :=
  ∀ a, s.HandlesUpdate e a → ¬ s.AssignedConnected a

instance (s : System) (e : Event) : Decidable (s.UpdatesMissCustomer e) :=
  inferInstanceAs (Decidable (∀ a, s.HandlesUpdate e a → ¬ s.AssignedConnected a))

def PendingMarked (s : System) : Prop :=
  ∀ b, s.Connected b → ∀ t ∈ s.pending b, ∀ i, t.order.gives i = true →
    (s.record b).menuItems i = .assigned

theorem marks_mono {s s' : System} (h : s.FreeCooksCapable ∧ s.PendingMarked)
    (hfree : ∀ b, s'.Connected b → (s'.record b).state = .cookFree →
      s.Connected b ∧ s'.peer b = s.peer b ∧ s'.record b = s.record b)
    (hpending : ∀ b, s'.Connected b → ∀ t ∈ s'.pending b,
      s.Connected b ∧ t ∈ s.pending b ∧ s'.record b = s.record b) :
    s'.FreeCooksCapable ∧ s'.PendingMarked := by
  constructor
  · intro b p hb hp hstate i hi
    obtain ⟨hold, hpeer, hrecord⟩ := hfree b hb hstate
    rw [hrecord] at hstate ⊢
    exact h.1 b p hold (hpeer ▸ hp) hstate i hi
  · intro b hb t ht i hi
    obtain ⟨hold, ht', hrecord⟩ := hpending b hb t ht
    rw [hrecord]
    exact h.2 b hold t ht' i hi

theorem marks_introduce {s : System} (hs : s.WellFormed)
    (h : s.FreeCooksCapable ∧ s.PendingMarked) {a : Addr} {peer : Peer}
    {r : Request} (hconn : s.Connected a) (hpeer : s.peer a = .silent)
    (hr : r.ticket? = none) :
    (s.introduce a peer r).FreeCooksCapable ∧
      (s.introduce a peer r).PendingMarked := by
  refine marks_mono h (fun b hb hstate => ⟨hb, ?_, rfl⟩)
    (fun b hb t ht => ⟨hb, pending_introduce hr ▸ ht, rfl⟩)
  have hba : b ≠ a := by
    rintro rfl
    have hunknown := ((hs.phase b hconn).of_silent hpeer).1
    simp [record, introduce] at hstate hunknown
    simp [hunknown] at hstate
  simp [introduce, hba]

theorem marks_register {s : System} (hs : s.WellFormed)
    (h : s.FreeCooksCapable ∧ s.PendingMarked) {a : Addr} {p : RegCookPkt}
    (hconn : s.Connected a) (hpeer : s.peer a = .cook p)
    (hstate : (s.record a).state = .unknown)
    (hrequest : s.toServer a = [.regCook p]) :
    FreeCooksCapable (s.afterHandler a (regCookHandler s.server a p, [])) ∧
      PendingMarked (s.afterHandler a (regCookHandler s.server a p, [])) := by
  constructor
  · intro b q hb hq hfree i hi
    by_cases hba : b = a
    · subst hba
      obtain rfl : p = q := by
        simpa [afterHandler, hpeer] using hq
      rw [record_register_self]
      exact if_pos hi
    · rw [record_register_of_ne hba] at hfree ⊢
      exact h.1 b q hb hq hfree i hi
  · intro b hb t ht i hi
    rw [pending_register hrequest] at ht
    have hba : b ≠ a := by
      rintro rfl
      rw [pending_of_free (hs.phase b hconn) (by simp [hstate])] at ht
      simp at ht
    rw [record_register_of_ne hba]
    exact h.2 b hb t ht i hi

theorem marks_order {s : System} (hs : s.WellFormed)
    (h : s.FreeCooksCapable ∧ s.PendingMarked) {a : Addr} {p : CustOrderPkt}
    {heap : Heap} {grants : List Grant} {n : Nat}
    (ho : s.Ordering a p heap grants n) :
    (s.afterOrder a heap grants n).FreeCooksCapable ∧
      (s.afterOrder a heap grants n).PendingMarked := by
  constructor
  · intro b q hb hq hfree i hi
    have hne : b ≠ a := by
      rintro rfl
      simp [ho.record_self, grantedCustomer, orderedClient] at hfree
    have hmem : b ∉ grants.map Prod.fst := by
      intro hmem
      obtain ⟨⟨b', r⟩, hg, rfl⟩ := List.mem_map.mp hmem
      simp [ho.record_granted hg, servedCook] at hfree
    obtain hsame | ⟨-, hlooked⟩ := ho.record_others hne hmem
    · rw [record_afterOrder, hsame] at hfree ⊢
      exact h.1 b q hb hq hfree i hi
    · rw [record_afterOrder, hlooked] at hfree ⊢
      exact h.1 b q hb hq hfree i hi
  · intro b hb t ht i hi
    obtain hold | ⟨hg, -, -⟩ := mem_pending_order_cases ho ht
    · obtain ⟨hbusy, -⟩ := (hs.phase b hb).of_pending hold
      have hne : b ≠ a := by
        rintro rfl
        simp [ho.state] at hbusy
      rw [record_afterOrder, ho.record_of_not_free hne (by simp [hbusy])]
      exact h.2 b hb t hold i hi
    · simp [ho.record_granted hg, servedCook, hi]

theorem marks_step {s s' : System} (hs : s.WellFormed)
    (h : s.FreeCooksCapable ∧ s.PendingMarked) {e : Event}
    (hC : s.UpdatesMissCustomer e) (hstep : s.step e = some s') :
    s'.FreeCooksCapable ∧ s'.PendingMarked := by
  cases transition_of_step hs hstep with
  | @accept a hfree =>
      refine marks_mono h (fun b hb hstate => ?_) (fun b hb t ht => ?_)
      · have hba : b ≠ a := by
          rintro rfl
          simp at hstate
        exact ⟨by simpa [hba] using hb, by simp [accept, hba],
          record_accept_of_ne hba⟩
      · obtain ⟨hba, ht⟩ := mem_pending_accept.mp ht
        exact ⟨by simpa [hba] using hb, ht, record_accept_of_ne hba⟩
  | @sendOrder a p hconn hpeer hrange =>
      exact marks_introduce hs h hconn hpeer rfl
  | @sendReg a p hconn hpeer => exact marks_introduce hs h hconn hpeer rfl
  | @readOrder a m p t rest hconn hpeer hread =>
      exact marks_mono h (fun b hb _ => ⟨hb, rfl, rfl⟩) (fun b hb t ht =>
        ⟨hb, pending_readOrder (hs.phase a hconn) hread ▸ ht, rfl⟩)
  | readUpdate hconn hread =>
      exact marks_mono h (fun b hb _ => ⟨hb, rfl, rfl⟩) (fun b hb t ht =>
        ⟨hb, pending_readUpdate hread ▸ ht, rfl⟩)
  | register hconn hpeer hstate hrequest =>
      exact marks_register hs h hconn hpeer hstate hrequest
  | order ho => exact marks_order hs h ho
  | @update a p m t hu hcust =>
      exact absurd (hu.assignedConnected_iff.mpr hcust)
        (hC a ⟨rfl, m, t, [], hu.request⟩)
  | @orphan a p m t hu hcust =>
      exact marks_mono h (fun b hb _ => ⟨hb, rfl, rfl⟩) (fun b hb u hm =>
        ⟨hb, ((mem_pending_orphan hu).mp hm).2, rfl⟩)
  | @disconnect a hconn =>
      have hmem := fun b hb => (disconnect_connected hs (a := a) (b := b)).mp hb
      exact marks_mono h (fun b hb _ => ⟨(hmem b hb).2, rfl, rfl⟩)
        (fun b hb t ht => ⟨(hmem b hb).2,
          pending_disconnect_of_ne (hmem b hb).1 ▸ ht, rfl⟩)

theorem not_freeCooksCapable_of_update {s s' : System} (hs : s.Invariant)
    (h : s.PendingMarked) {e : Event} (hC : ¬ s.UpdatesMissCustomer e)
    (hstep : s.step e = some s') : ¬ s'.FreeCooksCapable := by
  simp only [UpdatesMissCustomer, not_forall, not_not] at hC
  obtain ⟨a, hupdate, hfound⟩ := hC
  obtain ⟨p, m, t, hu, ⟨-, rfl⟩ | ⟨hcust, -⟩⟩ :=
    updating_of_handlesUpdate hs.wellFormed hupdate hstep
  · intro hfree
    have ht : t ∈ s.pending a := by simp [hu.pending]
    obtain ⟨i, hi⟩ := hs.tickets.gives a hu.connected t ht
    have hdeclared := hs.tickets.declared a hu.connected t ht p hu.peer i hi
    have hmark := h a hu.connected t ht i hi
    have hcapable := hfree a p hu.connected hu.peer
      (by rw [record_afterUpdate_self]) i hdeclared
    rw [record_afterUpdate_self] at hcapable
    simp [hmark] at hcapable
  · exact absurd (hu.assignedConnected_iff.mp hfound) hcust

/--
A run keeps every free cook capable of all that it declared exactly when no
update in it finds the customer's record in the queue, that is when no order is
ever finished.
-/
theorem free_cooks_capable_iff {events : List Event} {s : System}
    (hrun : run step initial events = some s) :
    AllStates step FreeCooksCapable initial events ↔
      AllSteps step UpdatesMissCustomer initial events := by
  have hstep : ∀ (s : System) e s',
      s.Invariant ∧ s.FreeCooksCapable ∧ s.PendingMarked →
      s.UpdatesMissCustomer e → s.step e = some s' →
      s'.Invariant ∧ s'.FreeCooksCapable ∧ s'.PendingMarked :=
    fun s e s' hs hC hnext =>
      ⟨invariant_step hs.1 hnext, marks_step hs.1.wellFormed hs.2 hC hnext⟩
  have hinit : initial.Invariant ∧ initial.FreeCooksCapable ∧
      initial.PendingMarked := by
    refine ⟨initial_invariant, ?_, ?_⟩
    · simp [FreeCooksCapable, initial, Connected]
    · simp [PendingMarked, initial, Connected]
  exact allStates_iff_allSteps (fun s hs => hs.2.1) hstep
    (fun s e s' hs hC hnext => not_freeCooksCapable_of_update hs.1 hs.2.2 hC hnext)
    hinit hrun

theorem finishedRun_not_freeCooksCapable :
    ∃ s, run step initial finishedRun = some s ∧ ¬ s.FreeCooksCapable := by
  refine ⟨_, (Option.some_get finishedRun_isSome).symm, fun h => ?_⟩
  have hcapable := h 1 (.ofItems [1]) (by decide +kernel) (by decide +kernel)
    (by decide +kernel) 1 (by decide +kernel)
  exact absurd hcapable (by decide +kernel)

theorem free_cooks_capable_orphanRun :
    AllStates step FreeCooksCapable initial orphanRun :=
  (free_cooks_capable_iff (Option.some_get orphanRun_isSome).symm).mpr
    (by decide +kernel)

end System

end SysprogTeam3.FoodSys
