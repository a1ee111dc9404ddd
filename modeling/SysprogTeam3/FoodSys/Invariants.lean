import SysprogTeam3.FoodSys.Pending

/-!
# Invariants of every run

What the marks in a record can mean for each role, and how the pending orders
of the cooks relate to connections.  These hold in every reachable state,
whatever addresses `calloc` returns.
-/

namespace SysprogTeam3.FoodSys

open SysprogTeam3.Foundation

namespace System

structure MenuOk (s : System) (a : Addr) : Prop where
  unknown : (s.record a).state = .unknown → ∀ i,
    (s.record a).menuItems i = .undefined ∨ (s.record a).menuItems i = .completed
  customer : ∀ p, s.peer a = .customer p → ∀ i,
    (s.record a).menuItems i ≠ .capable ∧
      ((s.record a).menuItems i = .new ∨ (s.record a).menuItems i = .assigned →
        p.names i = true)
  cook : ∀ p, s.peer a = .cook p → ∀ i,
    (s.record a).menuItems i ≠ .new ∧
      ((s.record a).menuItems i = .capable ∨
        (s.record a).menuItems i = .assigned → p.declares i = true)

theorem MenuOk.congr {s s' : System} {a : Addr} (h : s.MenuOk a)
    (hpeer : s'.peer a = s.peer a)
    (hstate : (s'.record a).state = (s.record a).state)
    (hmenu : (s'.record a).menuItems = (s.record a).menuItems) : s'.MenuOk a where
  unknown := by rw [hstate, hmenu]; exact h.unknown
  customer := by rw [hpeer, hmenu]; exact h.customer
  cook := by rw [hpeer, hmenu]; exact h.cook

theorem MenuOk.of_unknown {s s' : System} {a : Addr} (h : s.MenuOk a)
    (hstate : (s.record a).state = .unknown) (hrecord : s'.record a = s.record a) :
    s'.MenuOk a := by
  have hmarks := h.unknown hstate
  refine ⟨fun _ => by rw [hrecord]; exact hmarks, fun p _ i => ?_, fun p _ i => ?_⟩ <;>
    rw [hrecord] <;> obtain hi | hi := hmarks i <;> simp [hi]

theorem MenuOk.complete {s s' : System} {a : Addr} {marks : Menu} (h : s.MenuOk a)
    (hpeer : s'.peer a = s.peer a)
    (hrecord : s'.record a = completeItems marks (s.record a)) : s'.MenuOk a := by
  have hmenu : ∀ i, (s'.record a).menuItems i = .completed ∨
      (s'.record a).menuItems i = (s.record a).menuItems i := by
    intro i
    rw [hrecord]
    by_cases hi : marks i = .assigned <;> simp [completeItems, hi]
  refine ⟨fun hstate i => ?_, fun p hp i => ?_, fun p hp i => ?_⟩
  · obtain hi | hi := hmenu i
    · exact .inr hi
    · rw [hi]
      exact h.unknown (by simpa [hrecord, completeItems] using hstate) i
  · obtain hi | hi := hmenu i
    · simp [hi]
    · rw [hi]
      exact h.customer p (hpeer ▸ hp) i
  · obtain hi | hi := hmenu i
    · simp [hi]
    · rw [hi]
      exact h.cook p (hpeer ▸ hp) i

theorem menuOk_register {s : System} {a : Addr} {p : RegCookPkt} (h : s.MenuOk a)
    (hpeer : s.peer a = .cook p) :
    (s.afterHandler a (regCookHandler s.server a p, [])).MenuOk a := by
  have hrecord := record_register_self (s := s) (a := a) (p := p)
  have hpeer' : (s.afterHandler a (regCookHandler s.server a p, [])).peer a =
      .cook p := hpeer
  refine ⟨fun hstate => ?_, fun q hq => ?_, fun q hq i => ?_⟩
  · simp [hrecord] at hstate
  · simp [hpeer'] at hq
  · obtain rfl : p = q := by simpa [hpeer'] using hq
    cases hi : p.declares i
    · simpa [hrecord, hi] using h.cook p hpeer i
    · simp [hrecord, hi]

theorem names_of_grant {s : System} {a b : Addr} {p : CustOrderPkt}
    {heap : Heap} {grants : List Grant} {n : Nat} (h : s.MenuOk a)
    (ho : s.Ordering a p heap grants n) {q : CookOrderPkt}
    (hg : (b, q) ∈ grants) {i : Item} (hi : q.gives i = true) :
    p.names i = true := by
  have hnew := (ho.granted.taken _ hg i hi).1
  by_contra hnames
  simp only [Function.update_self, orderedClient, hnames] at hnew
  obtain hold | hold := h.unknown ho.state i <;> simp [hold] at hnew

theorem menuOk_order_self {s : System} {a : Addr} {p : CustOrderPkt} {heap : Heap}
    {grants : List Grant} {n : Nat} (h : s.MenuOk a)
    (ho : s.Ordering a p heap grants n) :
    (s.afterOrder a heap grants n).MenuOk a := by
  have hpeer : (s.afterOrder a heap grants n).peer a = .customer p := ho.peer
  refine ⟨fun hstate => ?_, fun q hq i => ?_, fun q hq => ?_⟩
  · simp [ho.record_self, grantedCustomer, orderedClient] at hstate
  · obtain rfl : p = q := by simpa [hpeer] using hq
    simp only [record_afterOrder, ho.record_self, grantedCustomer]
    have hold := h.unknown ho.state i
    cases hnames : p.names i
    · -- an item that is not named is not given away
      have hnot : given grants i = false := by
        by_contra hgiven
        obtain ⟨⟨b, q⟩, hg, hi⟩ := given_eq_true.mp (by simpa using hgiven)
        simp [names_of_grant h ho hg hi] at hnames
      obtain hold | hold := hold <;> simp [hnot, orderedClient, hnames, hold]
    · cases given grants i <;> simp [orderedClient, hnames]
  · simp [hpeer] at hq

theorem declares_of_grant {s : System} {a b : Addr} {p : CustOrderPkt}
    {heap : Heap} {grants : List Grant} {n : Nat}
    (ho : s.Ordering a p heap grants n) (hmenu : s.MenuOk b) {q : CookOrderPkt}
    (hg : (b, q) ∈ grants) {r : RegCookPkt} (hpeer : s.peer b = .cook r)
    {i : Item} (hi : q.gives i = true) : r.declares i = true := by
  have hcap := (ho.granted.taken _ hg i hi).2
  rw [Function.update_of_ne (ho.granted_cook hg).1] at hcap
  exact (hmenu.cook r hpeer i).2 (.inl hcap)

theorem menuOk_order_other {s : System} {a b : Addr} {p : CustOrderPkt}
    {heap : Heap} {grants : List Grant} {n : Nat} (hs : s.WellFormed)
    (h : s.MenuOk b) (ho : s.Ordering a p heap grants n) (hne : b ≠ a) :
    (s.afterOrder a heap grants n).MenuOk b := by
  by_cases hmem : b ∈ grants.map Prod.fst
  · obtain ⟨⟨b', q⟩, hg, rfl⟩ := List.mem_map.mp hmem
    obtain ⟨-, hconn, hfree⟩ := ho.granted_cook hg
    obtain ⟨r, hpeer, -⟩ := (hs.phase _ hconn).of_free hfree
    have hrecord := ho.record_granted hg
    refine ⟨fun hstate => ?_, fun q' hq' => ?_, fun q' hq' i => ?_⟩
    · simp [hrecord, servedCook] at hstate
    · simp [afterOrder, afterHandler, hpeer] at hq'
    · obtain rfl : r = q' := by simpa [afterOrder, afterHandler, hpeer] using hq'
      cases hi : q.gives i
      · simpa [hrecord, servedCook, hi] using h.cook r hpeer i
      · simpa [hrecord, servedCook, hi] using declares_of_grant ho h hg hpeer hi
  · obtain hsame | ⟨-, hlooked⟩ := ho.record_others hne hmem
    · exact h.congr rfl (by simp [hsame]) (by simp [hsame])
    · exact h.congr rfl (by simp [hlooked]) (by simp [hlooked])

theorem menuOk_introduce {s : System} {a b : Addr} (hs : s.WellFormed)
    (h : s.MenuOk b) (hb : s.Connected b) (hpeer : s.peer a = .silent)
    (peer : Peer) (r : Request) : (s.introduce a peer r).MenuOk b := by
  by_cases hba : b = a
  · subst hba
    exact h.of_unknown ((hs.phase b hb).of_silent hpeer).1 rfl
  · exact h.congr (by simp [introduce, hba]) rfl rfl

theorem menuOk_update {s : System} {a b : Addr} {p : RegCookPkt}
    {m : CookUpdatePkt} {t : Ticket} (h : s.MenuOk b) (hu : s.Updating a p m t) :
    (s.afterUpdate a t.cust).MenuOk b := by
  by_cases hba : b = a
  · subst hba
    refine ⟨fun hstate => ?_, fun q hq => ?_, fun q hq i => ?_⟩
    · simp [record_afterUpdate_self] at hstate
    · simp [afterUpdate, afterHandler, hu.peer] at hq
    · rw [record_afterUpdate_self]
      exact h.cook q hq i
  by_cases hbc : b = t.cust
  · subst hbc
    exact h.complete rfl (record_afterUpdate_cust hba)
  · have hrecord := record_afterUpdate_of_ne (s := s) hba hbc
    exact h.congr rfl (by rw [hrecord]) (by rw [hrecord])

theorem menuOk_step {s s' : System} (hs : s.WellFormed)
    (hmenus : ∀ a, s.Connected a → s.MenuOk a) {e : Event}
    (hstep : s.step e = some s') : ∀ a, s'.Connected a → s'.MenuOk a := by
  intro b hb
  cases transition_of_step hs hstep with
  | @accept a hfree =>
      by_cases hba : b = a
      · subst hba
        exact ⟨by simp, by simp [accept], by simp [accept]⟩
      · have hrecord := record_accept_of_ne (s := s) hba
        exact (hmenus b (by simpa [hba] using hb)).congr (by simp [accept, hba])
          (by rw [hrecord]) (by rw [hrecord])
  | sendOrder hconn hpeer hrange =>
      exact menuOk_introduce hs (hmenus b hb) hb hpeer _ _
  | sendReg hconn hpeer => exact menuOk_introduce hs (hmenus b hb) hb hpeer _ _
  | readOrder hconn hpeer hread => exact (hmenus b hb).congr rfl rfl rfl
  | readUpdate hconn hread => exact (hmenus b hb).congr rfl rfl rfl
  | @register a p hconn hpeer hstate hrequest =>
      by_cases hba : b = a
      · subst hba
        exact menuOk_register (hmenus b hb) hpeer
      · have hrecord := record_register_of_ne (s := s) (p := p) hba
        exact (hmenus b hb).congr rfl (by rw [hrecord]) (by rw [hrecord])
  | @order a p heap grants n h =>
      by_cases hba : b = a
      · subst hba
        exact menuOk_order_self (hmenus b hb) h
      · exact menuOk_order_other hs (hmenus b hb) h hba
  | update hu => exact menuOk_update (hmenus b hb) hu
  | orphan h hcust => exact (hmenus b hb).congr rfl rfl rfl
  | disconnect hconn =>
      exact (hmenus b ((disconnect_connected hs).mp hb).2).congr rfl rfl rfl

/-! ## Tickets -/

/-- How the pending orders of the connected cooks relate to connections. -/
structure Tickets (s : System) : Prop where
  connLt : ∀ a, s.Connected a → s.conn a < s.nextConn
  connInj : ∀ a b, s.Connected a → s.Connected b → s.conn a = s.conn b → a = b
  ticketLt : ∀ b, s.Connected b → ∀ t ∈ s.pending b, t.conn < s.nextConn
  /-- The connection that caused an order has had its own order handled. -/
  cause : ∀ b, s.Connected b → ∀ t ∈ s.pending b, ∀ a, s.Connected a →
    s.conn a = t.conn → a = t.cust ∧ (s.record a).state = .customer
  gives : ∀ b, s.Connected b → ∀ t ∈ s.pending b, ∃ i, t.order.gives i = true
  declared : ∀ b, s.Connected b → ∀ t ∈ s.pending b, ∀ p, s.peer b = .cook p →
    ∀ i, t.order.gives i = true → p.declares i = true
  disjoint : ∀ b b', s.Connected b → s.Connected b' → b ≠ b' →
    ∀ t ∈ s.pending b, ∀ t' ∈ s.pending b', t.conn = t'.conn →
    ∀ i, t.order.gives i = true → t'.order.gives i = false

theorem initial_tickets : initial.Tickets := by
  constructor <;> simp [initial, Connected]

theorem Tickets.mono {s s' : System} (h : s.Tickets)
    (hconn : ∀ a, s'.Connected a → s.Connected a)
    (hname : ∀ a, s'.conn a = s.conn a) (hnext : s'.nextConn = s.nextConn)
    (hpending : ∀ b, s'.Connected b → ∀ t ∈ s'.pending b, t ∈ s.pending b)
    (hpeer : ∀ b, s'.Connected b → s'.pending b ≠ [] → s'.peer b = s.peer b)
    (hstate : ∀ a, s'.Connected a → (s.record a).state = .customer →
      (s'.record a).state = .customer) : s'.Tickets where
  connLt := fun a ha => by
    rw [hname, hnext]
    exact h.connLt a (hconn a ha)
  connInj := fun a b ha hb hab => by
    rw [hname, hname] at hab
    exact h.connInj a b (hconn a ha) (hconn b hb) hab
  ticketLt := fun b hb t ht => by
    rw [hnext]
    exact h.ticketLt b (hconn b hb) t (hpending b hb t ht)
  cause := fun b hb t ht a ha hat => by
    rw [hname] at hat
    obtain ⟨hcust, hst⟩ :=
      h.cause b (hconn b hb) t (hpending b hb t ht) a (hconn a ha) hat
    exact ⟨hcust, hstate a ha hst⟩
  gives := fun b hb t ht => h.gives b (hconn b hb) t (hpending b hb t ht)
  declared := fun b hb t ht p hp => by
    rw [hpeer b hb (List.ne_nil_of_mem ht)] at hp
    exact h.declared b (hconn b hb) t (hpending b hb t ht) p hp
  disjoint := fun b b' hb hb' hne t ht t' ht' =>
    h.disjoint b b' (hconn b hb) (hconn b' hb') hne t (hpending b hb t ht) t'
      (hpending b' hb' t' ht')

theorem tickets_accept {s : System} (h : s.Tickets) {a : Addr} :
    (s.accept a).Tickets := by
  have hold : ∀ b, b ≠ a → (s.accept a).Connected b → s.Connected b :=
    fun b hba hb => by simpa [hba] using hb
  have hself : (s.accept a).conn a = s.nextConn := by simp [accept]
  have hother : ∀ b, b ≠ a → (s.accept a).conn b = s.conn b :=
    fun b hba => conn_accept_of_ne hba
  have hne : ∀ b, ∀ t ∈ (s.accept a).pending b, b ≠ a :=
    fun b t ht => (mem_pending_accept.mp ht).1
  have hpending : ∀ b, ∀ t ∈ (s.accept a).pending b, t ∈ s.pending b :=
    fun b t ht => (mem_pending_accept.mp ht).2
  have hlt : ∀ b, (s.accept a).Connected b → ∀ t ∈ (s.accept a).pending b,
      t.conn < s.nextConn := fun b hb t ht =>
    h.ticketLt b (hold b (hne b t ht) hb) t (hpending b t ht)
  refine ⟨fun b hb => ?_, fun b c hb hc hbc => ?_, fun b hb t ht => ?_,
    fun b hb t ht c hc hct => ?_, fun b hb t ht => ?_, fun b hb t ht p hp => ?_,
    fun b b' hb hb' hbb t ht t' ht' => ?_⟩
  · change (s.accept a).conn b < s.nextConn + 1
    by_cases hba : b = a
    · rw [hba, hself]
      exact Nat.lt_succ_self s.nextConn
    · rw [hother b hba]
      exact Nat.lt_succ_of_lt (h.connLt b (hold b hba hb))
  · by_cases hba : b = a <;> by_cases hca : c = a
    · rw [hba, hca]
    · have := h.connLt c (hold c hca hc)
      rw [hba, hself, hother c hca] at hbc
      exact absurd hbc (Nat.ne_of_gt this)
    · have := h.connLt b (hold b hba hb)
      rw [hca, hself, hother b hba] at hbc
      exact absurd hbc (Nat.ne_of_lt this)
    · rw [hother b hba, hother c hca] at hbc
      exact h.connInj b c (hold b hba hb) (hold c hca hc) hbc
  · exact Nat.lt_succ_of_lt (hlt b hb t ht)
  · by_cases hca : c = a
    · have := hlt b hb t ht
      rw [hca, hself] at hct
      exact absurd hct (Nat.ne_of_gt this)
    · rw [hother c hca] at hct
      obtain ⟨hcust, hst⟩ := h.cause b (hold b (hne b t ht) hb) t
        (hpending b t ht) c (hold c hca hc) hct
      exact ⟨hcust, by rw [record_accept_of_ne hca]; exact hst⟩
  · exact h.gives b (hold b (hne b t ht) hb) t (hpending b t ht)
  · refine h.declared b (hold b (hne b t ht) hb) t (hpending b t ht) p ?_
    simpa [accept, hne b t ht] using hp
  · exact h.disjoint b b' (hold b (hne b t ht) hb) (hold b' (hne b' t' ht') hb')
      hbb t (hpending b t ht) t' (hpending b' t' ht')

theorem mem_pending_order_cases {s : System} {a b : Addr} {p : CustOrderPkt}
    {heap : Heap} {grants : List Grant} {n : Nat}
    (ho : s.Ordering a p heap grants n) {t : Ticket}
    (ht : t ∈ (s.afterOrder a heap grants n).pending b) :
    t ∈ s.pending b ∨
      (b, t.order) ∈ grants ∧ t.cust = a ∧ t.conn = s.conn a := by
  obtain ht | ht := (mem_pending_order ho).mp ht
  · exact .inl ht
  · obtain ⟨q, hg, rfl⟩ := mem_grantTickets.mp ht
    exact .inr ⟨hg, rfl, rfl⟩

theorem tickets_order {s : System} (hmenus : ∀ a, s.Connected a → s.MenuOk a)
    (h : s.Tickets) {a : Addr} {p : CustOrderPkt} {heap : Heap}
    {grants : List Grant} {n : Nat} (ho : s.Ordering a p heap grants n) :
    (s.afterOrder a heap grants n).Tickets := by
  have hself : (heap a).state = .customer := by
    simp [ho.record_self, grantedCustomer, orderedClient]
  -- no pending order was caused by the sender before
  have hfresh : ∀ b, s.Connected b → ∀ t ∈ s.pending b, t.conn ≠ s.conn a := by
    intro b hb t ht heq
    have := (h.cause b hb t ht a ho.connected heq.symm).2
    rw [ho.state] at this
    cases this
  refine ⟨h.connLt, h.connInj, fun b hb t ht => ?_, fun b hb t ht c hc hct => ?_,
    fun b hb t ht => ?_, fun b hb t ht r hr i hi => ?_,
    fun b b' hb hb' hbb t ht t' ht' htt i hi => ?_⟩
  · obtain hold | ⟨-, -, hconn⟩ := mem_pending_order_cases ho ht
    · exact h.ticketLt b hb t hold
    · exact hconn ▸ h.connLt a ho.connected
  · obtain hold | ⟨-, hcust, hconn⟩ := mem_pending_order_cases ho ht
    · obtain ⟨hcust, hst⟩ := h.cause b hb t hold c hc hct
      have hca : c ≠ a := fun hca => hfresh b hb t hold (hca ▸ hct).symm
      refine ⟨hcust, ?_⟩
      rw [record_afterOrder, ho.record_of_not_free hca (by rw [hst]; decide)]
      exact hst
    · obtain rfl : c = a := h.connInj c a hc ho.connected (hct.trans hconn)
      exact ⟨hcust.symm, hself⟩
  · obtain hold | ⟨hg, -⟩ := mem_pending_order_cases ho ht
    · exact h.gives b hb t hold
    · exact ho.granted.gives _ hg
  · obtain hold | ⟨hg, -⟩ := mem_pending_order_cases ho ht
    · exact h.declared b hb t hold r hr i hi
    · exact declares_of_grant ho (hmenus b hb) hg hr hi
  · obtain hold | ⟨hg, -, hconn⟩ := mem_pending_order_cases ho ht <;>
      obtain hold' | ⟨hg', -, hconn'⟩ := mem_pending_order_cases ho ht'
    · exact h.disjoint b b' hb hb' hbb t hold t' hold' htt i hi
    · exact absurd (htt.trans hconn') (hfresh b hb t hold)
    · exact absurd (htt.symm.trans hconn) (hfresh b' hb' t' hold')
    · exact ho.granted.disjoint_of_ne hg hg' hbb i hi

theorem tickets_update {s : System} (h : s.Tickets) {a : Addr} {p : RegCookPkt}
    {m : CookUpdatePkt} {t : Ticket} (hu : s.Updating a p m t) :
    (s.afterUpdate a t.cust).Tickets := by
  refine h.mono (fun _ => id) (fun _ => rfl) rfl
    (fun _ _ _ ht => ((mem_pending_update hu).mp ht).2) (fun _ _ _ => rfl)
    (fun b _ hb => ?_)
  have hba : b ≠ a := ne_of_state hb hu.state (by decide)
  by_cases hbc : b = t.cust
  · subst hbc
    rw [record_afterUpdate_cust hba]
    exact hb
  · rw [record_afterUpdate_of_ne hba hbc]
    exact hb

theorem tickets_quiet {s s' : System} (hs : s.WellFormed) (h : s.Tickets)
    {e : Event} (hq : s.Quiet e s') : s'.Tickets := by
  refine h.mono (fun _ => hq.old) (fun _ => by rw [hq.conn]) hq.nextConn
    hq.pending (fun b hb hne => ?_) (fun a ha hstate => ?_)
  · obtain ⟨t, ht⟩ := List.exists_mem_of_ne_nil _ hne
    have hold := hq.pending b hb t ht
    obtain ⟨p, hpeer⟩ := ((hs.phase b (hq.old hb)).of_pending hold).2.2.2.2.2
    exact hq.peer b (by rw [hpeer]; nofun)
  · rw [hq.record a ha (by rw [hstate]; nofun)]
    exact hstate

theorem tickets_step {s s' : System} (hs : s.WellFormed)
    (hmenus : ∀ a, s.Connected a → s.MenuOk a) (h : s.Tickets) {e : Event}
    (hstep : s.step e = some s') : s'.Tickets := by
  cases change_of_step hs hstep with
  | accept hfree => exact tickets_accept h
  | order ho => exact tickets_order hmenus h ho
  | update hu => exact tickets_update h hu
  | quiet hq => exact tickets_quiet hs h hq

/-! ## The invariant -/

structure Invariant (s : System) : Prop where
  wellFormed : s.WellFormed
  menus : ∀ a, s.Connected a → s.MenuOk a
  tickets : s.Tickets

theorem initial_invariant : initial.Invariant :=
  ⟨initial_wellFormed, by simp [initial, Connected], initial_tickets⟩

theorem invariant_step {s s' : System} {e : Event} (h : s.Invariant)
    (hstep : s.step e = some s') : s'.Invariant :=
  ⟨wellFormed_step h.wellFormed hstep, menuOk_step h.wellFormed h.menus hstep,
    tickets_step h.wellFormed h.menus h.tickets hstep⟩

theorem invariant_run {events : List Event} {s : System}
    (hrun : run step initial events = some s) : s.Invariant :=
  run_invariant (C := fun _ _ => True) (fun _ _ _ h _ => invariant_step h)
    initial_invariant (.of_forall (fun _ _ => trivial) _ _) hrun

end System

end SysprogTeam3.FoodSys
