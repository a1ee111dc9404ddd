import SysprogTeam3.FoodSys.Completion

/-!
# Waiting customers

A customer reads until a terminal message comes.  The server sends one in the
end as long as every item that is `ASSIGNED` in the customer's record is marked
by a cook that still has an order of the customer pending.
-/

namespace SysprogTeam3.FoodSys

open SysprogTeam3.Foundation

namespace System

def TerminalSent (s : System) (c : Addr) : Prop :=
  .custUpdate ⟨orderUnservMessage⟩ ∈ s.sent c ∨
    .custUpdate ⟨orderCompleteMessage⟩ ∈ s.sent c

/-- Every customer whose order is handled has been told the end of it, or some
busy cook still has an order for it pending. -/
def NobodyWaitsInSilence (s : System) : Prop :=
  ∀ c q, s.Connected c → s.peer c = .customer q → s.toServer c = [] →
    s.TerminalSent c ∨
      ∃ b, s.Connected b ∧ (s.record b).state = .cookBusy ∧
        (s.record b).assignedClient = some c ∧
        ∃ t ∈ s.pending b, t.conn = s.conn c

def AtWork (s : System) (b c : Addr) (i : Item) : Prop :=
  (s.record b).menuItems i = .assigned ∧ ∃ t ∈ s.pending b, t.conn = s.conn c

instance (s : System) (b c : Addr) (i : Item) : Decidable (s.AtWork b c i) :=
  inferInstanceAs (Decidable ((s.record b).menuItems i = .assigned ∧
    ∃ t ∈ s.pending b, t.conn = s.conn c))

/-- No customer loses its last cook for the item when `b` loses the mark. -/
def Dispensable (s : System) (b : Addr) (i : Item) : Prop :=
  ∀ c, s.Connected c → c ≠ b → (s.record c).menuItems i = .assigned →
    s.AtWork b c i → ∃ b' ∈ s.server.clientTailq, b' ≠ b ∧ s.AtWork b' c i

instance (s : System) (b : Addr) (i : Item) : Decidable (s.Dispensable b i) :=
  inferInstanceAs (Decidable (∀ c, s.Connected c → c ≠ b →
    (s.record c).menuItems i = .assigned → s.AtWork b c i →
    ∃ b' ∈ s.server.clientTailq, b' ≠ b ∧ s.AtWork b' c i))

def ordering (s : System) (a : Addr) : Option CustOrderPkt :=
  match s.toServer a with
  | .custOrder p :: _ => some p
  | _ => none

/-- A handled order names an item, and a step that takes the mark of an item
from a client leaves the customers another cook for it: a disconnection takes
all the marks, an update those that it completes in the record it reaches. -/
def KeepsCooks (s : System) : Event → Prop
  | .disconnect b => ∀ i, s.Dispensable b i
  | .handle a =>
      (∀ p ∈ s.ordering a, p.codes ≠ []) ∧
        (s.HandlesUpdate (.handle a) a →
          ∀ b ∈ (s.record a).assignedClient, ∀ i,
            (s.record a).menuItems i = .assigned → s.Dispensable b i)
  | _ => True

instance (s : System) (e : Event) : Decidable (s.KeepsCooks e) :=
  match e with
  | .disconnect b => inferInstanceAs (Decidable (∀ i, s.Dispensable b i))
  | .handle a => inferInstanceAs (Decidable ((∀ p ∈ s.ordering a, p.codes ≠ []) ∧
      (s.HandlesUpdate (.handle a) a → ∀ b ∈ (s.record a).assignedClient, ∀ i,
        (s.record a).menuItems i = .assigned → s.Dispensable b i)))
  | .accept _ | .sendOrder _ _ | .sendReg _ _ | .read _ _ => isTrue trivial

/-- The customer has been told the end, or some of its items are `ASSIGNED` and
for each of these a cook is at work. -/
def Served (s : System) (c : Addr) : Prop :=
  s.TerminalSent c ∨
    (∃ i, (s.record c).menuItems i = .assigned) ∧
      ∀ i, (s.record c).menuItems i = .assigned →
        ∃ b, s.Connected b ∧ s.AtWork b c i

def CustomersServed (s : System) : Prop :=
  ∀ c, s.Connected c → (s.record c).state = .customer → s.Served c

theorem TerminalSent.mono {s s' : System} {c : Addr} (h : s.TerminalSent c)
    (hsent : ∀ p ∈ s.sent c, p ∈ s'.sent c) : s'.TerminalSent c :=
  h.imp (hsent _) (hsent _)

theorem AtWork.mono {s s' : System} {b c : Addr} {i : Item} (h : s.AtWork b c i)
    (hmark : (s.record b).menuItems i = .assigned →
      (s'.record b).menuItems i = .assigned)
    (hpending : ∀ t ∈ s.pending b, t ∈ s'.pending b)
    (hconn : s'.conn c = s.conn c) : s'.AtWork b c i := by
  obtain ⟨hi, t, ht, hct⟩ := h
  exact ⟨hmark hi, t, hpending t ht, hct.trans hconn.symm⟩

theorem Served.mono {s s' : System} {c : Addr} (h : s.Served c)
    (hsent : ∀ p ∈ s.sent c, p ∈ s'.sent c)
    (hmenu : (s'.record c).menuItems = (s.record c).menuItems)
    (hwork : ∀ i b, (s.record c).menuItems i = .assigned → s.Connected b →
      s.AtWork b c i → ∃ b', s'.Connected b' ∧ s'.AtWork b' c i) :
    s'.Served c := by
  rcases h with hsaid | ⟨⟨i, hi⟩, hcooks⟩
  · exact .inl (hsaid.mono hsent)
  · refine .inr ⟨⟨i, by rw [hmenu]; exact hi⟩, fun j hj => ?_⟩
    rw [hmenu] at hj
    obtain ⟨b, hb, hat⟩ := hcooks j hj
    exact hwork j b hj hb hat

theorem AtWork.busy {s : System} (hs : s.Invariant) {b c : Addr} {i : Item}
    (hb : s.Connected b) (hc : s.Connected c) (h : s.AtWork b c i) :
    (s.record b).state = .cookBusy ∧ (s.record b).assignedClient = some c := by
  obtain ⟨-, t, ht, hct⟩ := h
  obtain ⟨hbusy, hassigned, -⟩ := (hs.wellFormed.phase b hb).of_pending ht
  have hcause := (hs.tickets.cause b hb t ht c hc hct.symm).1
  exact ⟨hbusy, by rw [hassigned, ← hcause]⟩

theorem mem_sent_afterHandler {s : System} {a c : Addr}
    {result : Server × List Write} {p : ServerPkt} (h : p ∈ s.sent c) :
    p ∈ (s.afterHandler a result).sent c :=
  List.mem_append_left _ h

/-! ## The steps -/

theorem customersServed_accept {s : System} (h : s.CustomersServed) {a : Addr}
    (hfree : ¬ s.Connected a) : (s.accept a).CustomersServed := by
  intro c hc hstate
  have hca : c ≠ a := by
    rintro rfl
    simp at hstate
  rw [record_accept_of_ne hca] at hstate
  refine (h c (by simpa [hca] using hc) hstate).mono (fun p hp => ?_)
    (by rw [record_accept_of_ne hca]) (fun i b _ hb hat => ?_)
  · simpa [accept, hca] using hp
  · have hba : b ≠ a := fun heq => hfree (heq ▸ hb)
    refine ⟨b, accept_connected.mpr (.inl hb), hat.mono (fun hi => ?_)
      (fun t ht => ?_) (conn_accept_of_ne hca)⟩
    · rw [record_accept_of_ne hba]
      exact hi
    · rw [pending_accept_of_ne hba]
      exact ht

theorem customersServed_congr {s s' : System} (h : s.CustomersServed)
    (hserver : s'.server = s.server) (hpending : ∀ b, s'.pending b = s.pending b)
    (hsent : s'.sent = s.sent) (hconn : s'.conn = s.conn) :
    s'.CustomersServed := by
  have hrecord : ∀ b, s'.record b = s.record b := fun b => by
    rw [record, hserver]
  intro c hc hstate
  rw [hrecord c] at hstate
  rw [Connected, hserver] at hc
  refine (h c hc hstate).mono (fun p hp => hsent ▸ hp) (by rw [hrecord c])
    (fun i b _ hb hat => ⟨b, by rw [Connected, hserver]; exact hb, ?_⟩)
  exact hat.mono (by rw [hrecord b]; exact id) (fun t ht => hpending b ▸ ht)
    (by rw [hconn])

theorem customersServed_register {s : System} (hs : s.WellFormed)
    (h : s.CustomersServed) {a : Addr} {p : RegCookPkt}
    (hstate : (s.record a).state = .unknown)
    (hrequest : s.toServer a = [.regCook p]) :
    CustomersServed (s.afterHandler a (regCookHandler s.server a p, [])) := by
  intro c hc hcust
  have hca : c ≠ a := by
    rintro rfl
    rw [record_register_self] at hcust
    cases hcust
  rw [record_register_of_ne hca] at hcust
  refine (h c hc hcust).mono (fun q hq => mem_sent_afterHandler hq)
    (by rw [record_register_of_ne hca]) (fun i b _ hb hat => ⟨b, hb, ?_⟩)
  have hba : b ≠ a := by
    rintro rfl
    obtain ⟨-, t, ht, -⟩ := hat
    rw [pending_of_free (hs.phase b hb) (by rw [hstate]; decide)] at ht
    simp at ht
  refine hat.mono (by rw [record_register_of_ne hba]; exact id)
    (fun t ht => ?_) rfl
  rw [pending_register hrequest]
  exact ht

theorem served_order_self {s : System} (hs : s.Invariant) {a : Addr}
    {p : CustOrderPkt} {heap : Heap} {grants : List Grant} {n : Nat}
    (ho : s.Ordering a p heap grants n) (hcodes : p.codes ≠ []) :
    (s.afterOrder a heap grants n).Served a := by
  by_cases hnone : grants = []
  · -- nothing was given away, so the customer is told that
    have hzero : n = 0 := ho.assigned.mpr hnone
    have hcount : (heap a).numOfOrders ≠ n := by
      rw [ho.count, hzero]
      exact fun hlength => hcodes (List.eq_nil_of_length_eq_zero hlength)
    have hnotify : notifyCustomer heap a n =
        [(a, .custUpdate ⟨orderUnservMessage⟩)] := by
      rw [notifyCustomer, if_neg hcount, hzero, customerMsg_zero]
    refine .inl (.inl (List.mem_append_right _ (mem_writesTo.mpr ?_)))
    simp [hnotify]
  · have hgiven : ∀ i, (heap a).menuItems i = .assigned ↔ given grants i = true := by
      intro i
      rw [ho.record_self]
      have hold := (hs.menus a ho.connected).unknown ho.state i
      cases hg : given grants i
      · have hnot : (orderedClient (s.record a) p).menuItems i ≠ .assigned := by
          unfold orderedClient
          rcases hold with hold | hold <;> by_cases hn : p.names i = true <;>
            simp [hn, hold]
        simpa [grantedCustomer, hg] using hnot
      · simp [grantedCustomer, hg]
    refine .inr ⟨?_, fun i hi => ?_⟩
    · obtain ⟨g, hg⟩ := List.exists_mem_of_ne_nil _ hnone
      obtain ⟨i, hi⟩ := ho.granted.gives g hg
      exact ⟨i, (hgiven i).mpr (given_eq_true.mpr ⟨g, hg, hi⟩)⟩
    · obtain ⟨⟨b, q⟩, hg, hq⟩ := given_eq_true.mp ((hgiven i).mp hi)
      refine ⟨b, (ho.granted_cook hg).2.1, ?_, ⟨a, s.conn a, q⟩, ?_, rfl⟩
      · rw [record_afterOrder, ho.record_granted hg]
        simpa [servedCook] using fun hnot => absurd hq (by simp [hnot])
      · exact (mem_pending_order ho).mpr
          (.inr (mem_grantTickets.mpr ⟨q, hg, rfl⟩))

theorem customersServed_order {s : System} (hs : s.Invariant)
    (h : s.CustomersServed) {a : Addr} {p : CustOrderPkt} {heap : Heap}
    {grants : List Grant} {n : Nat} (ho : s.Ordering a p heap grants n)
    (hcodes : p.codes ≠ []) :
    (s.afterOrder a heap grants n).CustomersServed := by
  intro c hc hcust
  by_cases hca : c = a
  · rw [hca]
    exact served_order_self hs ho hcodes
  · have hmem : c ∉ grants.map Prod.fst := by
      intro hmem
      obtain ⟨⟨b, q⟩, hg, rfl⟩ := List.mem_map.mp hmem
      simp [ho.record_granted hg, servedCook] at hcust
    have hsame : heap c = s.record c := by
      rcases ho.record_others hca hmem with hsame | ⟨hfree, hlooked⟩
      · exact hsame
      · simp [hlooked, hfree] at hcust
    rw [record_afterOrder, hsame] at hcust
    refine (h c hc hcust).mono (fun q hq => mem_sent_afterHandler hq)
      (by rw [record_afterOrder, hsame]) (fun i b _ hb hat => ⟨b, hb, ?_⟩)
    have hbusy := (hat.busy hs hb hc).1
    have hba : b ≠ a := ne_of_state hbusy ho.state (by decide)
    refine hat.mono (fun hi => ?_)
      (fun t ht => (mem_pending_order ho).mpr (.inl ht)) rfl
    rw [record_afterOrder, ho.record_of_not_free hba (by rw [hbusy]; decide)]
    exact hi

theorem served_update_cust {s : System} (hs : s.Invariant) {a : Addr}
    {p : RegCookPkt} {m : CookUpdatePkt} {u : Ticket} (hu : s.Updating a p m u)
    (hc : s.Connected u.cust) (h : s.Served u.cust) :
    (s.afterUpdate a u.cust).Served u.cust := by
  rcases h with hsaid | ⟨-, hcooks⟩
  · exact .inl (hsaid.mono fun _ => mem_sent_afterHandler)
  cases hfound : assignedFound (s.completedCustomer a u.cust) with
  | false =>
      refine .inl (.inr (List.mem_append_right _ (mem_writesTo.mpr ?_)))
      exact complete_mem_completionWrites.mpr ⟨rfl, hfound⟩
  | true =>
      refine .inr ⟨?_, fun i hi => ?_⟩
      · rw [record_afterUpdate_cust hu.other]
        exact assignedFound_eq_true.mp hfound
      · rw [record_afterUpdate_cust hu.other] at hi
        have hleft : (s.record a).menuItems i ≠ .assigned ∧
            (s.record u.cust).menuItems i = .assigned := by
          by_cases hmark : (s.record a).menuItems i = .assigned
          · simp [completedCustomer, completeItems, hmark] at hi
          · exact ⟨hmark, by simpa [completedCustomer, completeItems, hmark] using hi⟩
        obtain ⟨b, hb, hat⟩ := hcooks i hleft.2
        have hba : b ≠ a := fun heq => hleft.1 (heq ▸ hat.1)
        have hbc : b ≠ u.cust := by
          obtain ⟨-, t, ht, hct⟩ := hat
          exact ne_of_state ((hs.wellFormed.phase b hb).of_pending ht).1
            (hs.tickets.cause b hb t ht _ hc hct.symm).2 (by decide)
        refine ⟨b, hb, hat.mono ?_ (fun t ht => ?_) rfl⟩
        · rw [record_afterUpdate_of_ne hba hbc]
          exact id
        · rw [pending_update_of_ne hba]
          exact ht

theorem customersServed_update {s : System} (hs : s.Invariant)
    (h : s.CustomersServed) {a : Addr} {p : RegCookPkt} {m : CookUpdatePkt}
    {u : Ticket} (hu : s.Updating a p m u)
    (hC : ∀ i, (s.record a).menuItems i = .assigned → s.Dispensable u.cust i) :
    (s.afterUpdate a u.cust).CustomersServed := by
  intro c hc hcust
  have hca : c ≠ a := by
    rintro rfl
    simp [record_afterUpdate_self] at hcust
  by_cases hcu : c = u.cust
  · subst hcu
    rw [record_afterUpdate_cust hca] at hcust
    exact served_update_cust hs hu hc (h _ hc hcust)
  rw [record_afterUpdate_of_ne hca hcu] at hcust
  -- the updating cook was not at work for this customer
  have hne : ∀ b i, s.Connected b → s.AtWork b c i → b ≠ a := by
    rintro b i hb ⟨-, t, ht, hct⟩ rfl
    obtain rfl : t = u := by simpa [hu.pending] using ht
    exact hcu (hs.tickets.cause b hb t ht c hc hct.symm).1
  have hstays : ∀ b i, s.Connected b → b ≠ u.cust → s.AtWork b c i →
      (s.afterUpdate a u.cust).AtWork b c i := by
    intro b i hb hbu hat
    have hba := hne b i hb hat
    refine hat.mono ?_ (fun t ht => ?_) rfl
    · rw [record_afterUpdate_of_ne hba hbu]
      exact id
    · rw [pending_update_of_ne hba]
      exact ht
  refine (h c hc hcust).mono (fun _ => mem_sent_afterHandler)
    (by rw [record_afterUpdate_of_ne hca hcu]) (fun i b hi hb hat => ?_)
  by_cases hbu : b = u.cust
  · by_cases hmark : (s.record a).menuItems i = .assigned
    · -- the update reaches a cook's record and takes its mark
      obtain ⟨b', hb', hbb, hat'⟩ :=
        hC i hmark c hc hcu hi (hbu ▸ hat)
      exact ⟨b', hb', hstays b' i hb' hbb hat'⟩
    · refine ⟨b, hb, hat.mono (fun hi' => ?_) (fun t ht => ?_) rfl⟩
      · rw [hbu] at hi' ⊢
        rw [record_afterUpdate_cust hu.other]
        simpa [completedCustomer, completeItems, hmark] using hi'
      · rw [pending_update_of_ne (hne b i hb hat)]
        exact ht
  · exact ⟨b, hb, hstays b i hb hbu hat⟩

theorem customersServed_orphan {s : System} (hs : s.Invariant)
    (h : s.CustomersServed) {a : Addr} {p : RegCookPkt} {m : CookUpdatePkt}
    {u : Ticket} (hu : s.Updating a p m u) (hgone : ¬ s.Connected u.cust) :
    CustomersServed (s.afterHandler a (s.server, [])) := by
  intro c hc hcust
  refine (h c hc hcust).mono (fun _ => mem_sent_afterHandler) rfl
    (fun i b _ hb hat => ⟨b, hb, hat.mono id (fun t ht => ?_) rfl⟩)
  have hba : b ≠ a := by
    rintro rfl
    obtain ⟨-, t', ht', hct⟩ := hat
    obtain rfl : t' = u := by simpa [hu.pending] using ht'
    exact hgone ((hs.tickets.cause b hb t' ht' c hc hct.symm).1 ▸ hc)
  rw [pending_orphan_of_ne hba]
  exact ht

theorem customersServed_disconnect {s : System} (hs : s.WellFormed)
    (h : s.CustomersServed) {a : Addr} (hC : ∀ i, s.Dispensable a i) :
    (s.disconnect a).CustomersServed := by
  have hmem := fun b => disconnect_connected hs (a := a) (b := b)
  intro c hc hcust
  obtain ⟨hca, hc⟩ := (hmem c).mp hc
  have hstays : ∀ b i, b ≠ a → s.AtWork b c i → (s.disconnect a).AtWork b c i := by
    intro b i hba hat
    refine hat.mono id (fun t ht => ?_) rfl
    rw [pending_disconnect_of_ne hba]
    exact ht
  refine (h c hc hcust).mono (fun _ => id) rfl (fun i b hi hb hat => ?_)
  by_cases hba : b = a
  · obtain ⟨b', hb', hbb, hat'⟩ := hC i c hc hca hi (hba ▸ hat)
    exact ⟨b', (hmem b').mpr ⟨hbb, hb'⟩, hstays b' i hbb hat'⟩
  · exact ⟨b, (hmem b).mpr ⟨hba, hb⟩, hstays b i hba hat⟩

theorem customersServed_step {s s' : System} (hs : s.Invariant)
    (h : s.CustomersServed) {e : Event} (hC : s.KeepsCooks e)
    (hstep : s.step e = some s') : s'.CustomersServed := by
  cases transition_of_step hs.wellFormed hstep with
  | accept hfree => exact customersServed_accept h hfree
  | sendOrder hconn hpeer hrange =>
      exact customersServed_congr h rfl (fun _ => pending_introduce rfl) rfl rfl
  | sendReg hconn hpeer =>
      exact customersServed_congr h rfl (fun _ => pending_introduce rfl) rfl rfl
  | @readOrder a m p t rest hconn hpeer hread =>
      exact customersServed_congr h rfl
        (fun _ => pending_readOrder (hs.wellFormed.phase a hconn) hread) rfl rfl
  | readUpdate hconn hread =>
      exact customersServed_congr h rfl (fun _ => pending_readUpdate hread) rfl rfl
  | register hconn hpeer hstate hrequest =>
      exact customersServed_register hs.wellFormed h hstate hrequest
  | order ho =>
      exact customersServed_order hs h ho (hC.1 _ (by simp [ordering, ho.request]))
  | @update a p m u hu hcust =>
      exact customersServed_update hs h hu
        (hC.2 ⟨rfl, m, u, [], hu.request⟩ _ hu.assigned)
  | orphan hu hgone => exact customersServed_orphan hs h hu hgone
  | disconnect hconn => exact customersServed_disconnect hs.wellFormed h hC

theorem nobodyWaits_of_served {s : System} (hs : s.Invariant)
    (h : s.CustomersServed) : s.NobodyWaitsInSilence := by
  intro c q hc hpeer hrequest
  have hstate : (s.record c).state = .customer := by
    have hphase := hs.wellFormed.phase c hc
    unfold InPhase at hphase
    rw [hpeer, hrequest] at hphase
    generalize (s.record c).state = state, (s.record c).assignedClient = assigned,
      s.unreadOrders c = unread at hphase
    cases hphase
    rfl
  rcases h c hc hstate with hsaid | ⟨⟨i, hi⟩, hcooks⟩
  · exact .inl hsaid
  · obtain ⟨b, hb, hat⟩ := hcooks i hi
    obtain ⟨hbusy, hassigned⟩ := hat.busy hs hb hc
    exact .inr ⟨b, hb, hbusy, hassigned, hat.2⟩

/--
In every run whose orders name an item, and whose disconnections and updates
never take the last cook of an item from a customer, nobody waits in silence.
-/
theorem nobody_waits_in_silence {events : List Event} {s : System}
    (hrun : run step initial events = some s)
    (hkept : AllSteps step KeepsCooks initial events) :
    s.NobodyWaitsInSilence := by
  have hstep : ∀ (s : System) e s', s.Invariant ∧ s.CustomersServed →
      s.KeepsCooks e → s.step e = some s' →
      s'.Invariant ∧ s'.CustomersServed := fun s e s' hs hC hnext =>
    ⟨invariant_step hs.1 hnext, customersServed_step hs.1 hs.2 hC hnext⟩
  have hinit : initial.Invariant ∧ initial.CustomersServed :=
    ⟨initial_invariant, by simp [CustomersServed, initial, Connected]⟩
  have hinv := run_invariant hstep hinit hkept hrun
  exact nobodyWaits_of_served hinv.1 hinv.2

/-- Of the two cooks of an order the first answers and leaves. -/
def answeredCookLeftRun : List Event :=
  [.accept 1, .sendReg 1 (.ofItems [1]), .handle 1,
   .accept 2, .sendReg 2 (.ofItems [1, 2]), .handle 2,
   .accept 3, .sendOrder 3 (.ofCodes [1, 2]), .handle 3,
   .read 1 [], .handle 1, .disconnect 1]

theorem answeredCookLeftRun_isSome :
    (run step initial answeredCookLeftRun).isSome := by decide +kernel

theorem nobody_waits_in_silence_answeredCookLeftRun :
    ∃ s, run step initial answeredCookLeftRun = some s ∧ s.NobodyWaitsInSilence :=
  have hrun := (Option.some_get answeredCookLeftRun_isSome).symm
  ⟨_, hrun, nobody_waits_in_silence hrun (by decide +kernel)⟩

def cookLeftRun : List Event :=
  [.accept 1, .sendReg 1 (.ofItems [1]), .handle 1,
   .accept 2, .sendOrder 2 (.ofCodes [1]), .handle 2, .disconnect 1]

theorem cookLeftRun_isSome : (run step initial cookLeftRun).isSome := by
  decide +kernel

def emptyOrderRun : List Event :=
  [.accept 2, .sendOrder 2 (.ofCodes []), .handle 2]

theorem emptyOrderRun_isSome : (run step initial emptyOrderRun).isSome := by
  decide +kernel

theorem not_nobodyWaits {s : System} {c : Addr} {q : CustOrderPkt}
    (hc : s.Connected c) (hpeer : s.peer c = .customer q)
    (hrequest : s.toServer c = []) (hsent : s.sent c = [])
    (hcooks : ∀ b, s.Connected b → (s.record b).state ≠ .cookBusy) :
    ¬ s.NobodyWaitsInSilence := by
  intro h
  rcases h c q hc hpeer hrequest with hsaid | ⟨b, hb, hbusy, -⟩
  · simp [TerminalSent, hsent] at hsaid
  · exact hcooks b hb hbusy

theorem customers_left_in_silence :
    (∃ s, run step initial cookLeftRun = some s ∧ ¬ s.NobodyWaitsInSilence) ∧
      ∃ s, run step initial emptyOrderRun = some s ∧ ¬ s.NobodyWaitsInSilence := by
  constructor
  · refine ⟨_, (Option.some_get cookLeftRun_isSome).symm, ?_⟩
    exact not_nobodyWaits (c := 2) (q := .ofCodes [1]) (by decide +kernel)
      (by decide +kernel) (by decide +kernel) (by decide +kernel)
      (by decide +kernel)
  · refine ⟨_, (Option.some_get emptyOrderRun_isSome).symm, ?_⟩
    exact not_nobodyWaits (c := 2) (q := .ofCodes []) (by decide +kernel)
      (by decide +kernel) (by decide +kernel) (by decide +kernel)
      (by decide +kernel)

end System

end SysprogTeam3.FoodSys
