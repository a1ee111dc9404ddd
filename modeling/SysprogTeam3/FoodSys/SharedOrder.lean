import SysprogTeam3.FoodSys.Completion

/-!
# An order shared by several cooks

From a state in which the `ASSIGNED` items of a customer are divided among busy
cooks, the updates of these cooks may be handled in any order and with any other
steps in between: the last of them, and no other, sends the completion message.

There is one exception.  `assigned_client` is an address, and `calloc` may give
the address of a customer that left to one of these cooks.  The update of that
customer's cook then completes items of the cook that sits there now, whose own
update leaves them `ASSIGNED`.
-/

namespace SysprogTeam3.FoodSys

open SysprogTeam3.Foundation

/-- The cooks that have still to answer after an event. -/
def awaited (cooks : List Addr) : Event → List Addr
  | .handle b => cooks.erase b
  | _ => cooks

def unanswered (cooks : List Addr) (events : List Event) : List Addr :=
  events.foldl awaited cooks

/-- The customer stays, and so does each cook until its update is handled. -/
def Uninterrupted (c : Addr) : List Addr → List Event → Prop
  | _, [] => True
  | cooks, e :: events =>
      (e ≠ .disconnect c ∧ ∀ b ∈ cooks, e ≠ .disconnect b) ∧
        Uninterrupted c (awaited cooks e) events

instance Uninterrupted.decidable (c : Addr) :
    ∀ cooks events, Decidable (Uninterrupted c cooks events)
  | _, [] => isTrue trivial
  | cooks, e :: events =>
      have := Uninterrupted.decidable c (awaited cooks e) events
      inferInstanceAs (Decidable (_ ∧ _))

theorem awaited_of_foreign {cooks : List Addr} {e : Event}
    (h : ∀ b ∈ cooks, e ≠ .handle b) : awaited cooks e = cooks := by
  cases e with
  | handle b => exact List.erase_of_not_mem fun hb => h b hb rfl
  | _ => rfl

@[simp] theorem awaited_nil (e : Event) : awaited [] e = [] := by
  cases e <;> rfl

theorem unanswered_nil (events : List Event) : unanswered [] events = [] := by
  induction events with
  | nil => rfl
  | cons e events ih =>
      rw [unanswered, List.foldl_cons, awaited_nil]
      exact ih

theorem uninterrupted_append {c : Addr} {cooks : List Addr}
    {first second : List Event} :
    Uninterrupted c cooks (first ++ second) ↔
      Uninterrupted c cooks first ∧
        Uninterrupted c (unanswered cooks first) second := by
  induction first generalizing cooks with
  | nil => simp [Uninterrupted, unanswered]
  | cons e first ih =>
      rw [List.cons_append, Uninterrupted, Uninterrupted, ih]
      exact and_assoc.symm

theorem exists_last_answer {cooks : List Addr} {events : List Event}
    (hne : cooks ≠ []) (hall : unanswered cooks events = []) :
    ∃ before b after, events = before ++ .handle b :: after ∧
      unanswered cooks before = [b] := by
  induction events generalizing cooks with
  | nil => exact absurd hall hne
  | cons e events ih =>
      by_cases hnext : awaited cooks e = []
      · -- the first event already answers for the only cook left
        cases e with
        | handle b =>
            have hmem : b ∈ cooks := by
              by_contra hb
              rw [awaited, List.erase_of_not_mem hb] at hnext
              exact hne hnext
            have hlength := List.length_erase_of_mem hmem
            rw [awaited] at hnext
            rw [hnext, List.length_nil] at hlength
            have hone : cooks.length = 1 := by
              have hpos := List.length_pos_of_mem hmem
              omega
            obtain ⟨x, rfl⟩ := List.length_eq_one_iff.mp hone
            obtain rfl : b = x := by simpa using hmem
            exact ⟨[], b, events, rfl, rfl⟩
        | _ => exact absurd hnext hne
      · obtain ⟨before, b, after, rfl, hbefore⟩ := ih hnext hall
        exact ⟨e :: before, b, after, rfl, hbefore⟩

namespace System

/--
The `ASSIGNED` items of the customer at `c` are divided among `cooks`, which
have still to answer: each has a part of its own and no other mark, and no other
client has an order of `c` pending.
-/
structure SharedOrder (s : System) (c : Addr) (cooks : List Addr) : Prop where
  wellFormed : s.WellFormed
  customer : s.Connected c ∧ (s.record c).state = .customer
  nodup : cooks.Nodup
  busy : ∀ b ∈ cooks, s.Connected b ∧ (s.record b).state = .cookBusy ∧
    (s.record b).assignedClient = some c
  part : ∀ b ∈ cooks, ∃ i, (s.record b).menuItems i = .assigned
  covers : ∀ i, (s.record c).menuItems i = .assigned ↔
    ∃ b ∈ cooks, (s.record b).menuItems i = .assigned
  disjoint : ∀ b ∈ cooks, ∀ b' ∈ cooks, b ≠ b' → ∀ i,
    (s.record b).menuItems i = .assigned → (s.record b').menuItems i ≠ .assigned
  others : ∀ b, s.Connected b → b ∉ cooks → ∀ t ∈ s.pending b, t.cust ≠ c

def awaitStep (x : List Addr × System) (e : Event) : Option (List Addr × System) :=
  (x.2.step e).map fun s' => (awaited x.1 e, s')

/-- A handled update whose `assigned_client` is one of the cooks has no item
marked that is marked in that cook's record. -/
def SparesCooks (x : List Addr × System) (e : Event) : Prop :=
  ∀ a, x.2.HandlesUpdate e a → ∀ b ∈ x.1,
    (x.2.record a).assignedClient = some b →
    ∀ i, (x.2.record a).menuItems i = .assigned →
      (x.2.record b).menuItems i ≠ .assigned

instance (x : List Addr × System) (e : Event) : Decidable (SparesCooks x e) :=
  inferInstanceAs (Decidable (∀ a, x.2.HandlesUpdate e a → ∀ b ∈ x.1,
    (x.2.record a).assignedClient = some b →
    ∀ i, (x.2.record a).menuItems i = .assigned →
      (x.2.record b).menuItems i ≠ .assigned))

def completions (s : System) (c : Addr) : Nat :=
  (s.sent c).count (.custUpdate ⟨orderCompleteMessage⟩)

theorem sent_step {s s' : System} {e : Event} {c : Addr} (hc : s.Connected c)
    (hstep : s.step e = some s') :
    s'.sent c = s.sent c ++ writesTo (s.writes e) c := by
  cases e with
  | accept a =>
      simp only [step, Option.ite_none_left_eq_some, Option.some.injEq] at hstep
      have hca : c ≠ a := fun heq => hstep.1 (heq ▸ hc)
      rw [← hstep.2]
      simp [accept, hca, writes, writesTo]
  | handle a =>
      simp only [step, Option.ite_none_right_eq_some,
        Option.map_eq_some_iff] at hstep
      obtain ⟨-, result, hresult, rfl⟩ := hstep
      simp [afterHandler, writes, hresult]
  | read a message =>
      simp only [step, Option.ite_none_right_eq_some] at hstep
      obtain ⟨-, hstep⟩ := hstep
      cases hread : s.toClient a with
      | nil => simp [hread] at hstep
      | cons d rest =>
          simp only [hread, Option.some.injEq] at hstep
          rw [← hstep]
          simp [consume, writes, writesTo]
  | sendOrder a p | sendReg a p | disconnect a =>
      simp only [step, Option.ite_none_right_eq_some, Option.some.injEq] at hstep
      rw [← hstep.2]
      simp [introduce, disconnect, writes, writesTo]

theorem completions_step {s s' : System} {e : Event} {c : Addr}
    (hc : s.Connected c) (hstep : s.step e = some s') :
    s'.completions c = s.completions c +
      (writesTo (s.writes e) c).count (.custUpdate ⟨orderCompleteMessage⟩) := by
  rw [completions, sent_step hc hstep, List.count_append]
  rfl

theorem completions_of_not_sends {s s' : System} {e : Event} {c : Addr}
    (hc : s.Connected c) (hstep : s.step e = some s')
    (hsends : ¬ s.SendsComplete e c) : s'.completions c = s.completions c := by
  rw [completions_step hc hstep, List.count_eq_zero_of_not_mem, Nat.add_zero]
  exact fun hmem => hsends (mem_writesTo.mp hmem)

/-! ## Steps of others -/

structure SameMarks (s s' : System) (b : Addr) : Prop where
  state : (s'.record b).state = (s.record b).state
  assignedClient : (s'.record b).assignedClient = (s.record b).assignedClient
  menu : ∀ i, (s'.record b).menuItems i = .assigned ↔
    (s.record b).menuItems i = .assigned

theorem SameMarks.of_record {s s' : System} {b : Addr}
    (h : s'.record b = s.record b) : s.SameMarks s' b :=
  ⟨by rw [h], by rw [h], fun i => by rw [h]⟩

theorem SharedOrder.frame {s s' : System} {c : Addr} {cooks : List Addr}
    (h : s.SharedOrder c cooks) (hs' : s'.WellFormed)
    (hconn : ∀ b, s.Connected b → b = c ∨ b ∈ cooks → s'.Connected b)
    (hrecord : s'.record c = s.record c)
    (hcooks : ∀ b ∈ cooks, s.SameMarks s' b)
    (hothers : ∀ b, s'.Connected b → b ∉ cooks → ∀ t ∈ s'.pending b, t.cust ≠ c) :
    s'.SharedOrder c cooks where
  wellFormed := hs'
  customer := by
    rw [hrecord]
    exact ⟨hconn c h.customer.1 (.inl rfl), h.customer.2⟩
  nodup := h.nodup
  busy := fun b hb => by
    rw [(hcooks b hb).state, (hcooks b hb).assignedClient]
    exact ⟨hconn b (h.busy b hb).1 (.inr hb), (h.busy b hb).2⟩
  part := fun b hb => by
    obtain ⟨i, hi⟩ := h.part b hb
    exact ⟨i, ((hcooks b hb).menu i).mpr hi⟩
  covers := fun i => by
    rw [hrecord, h.covers i]
    exact exists_congr fun b => and_congr_right fun hb =>
      ((hcooks b hb).menu i).symm
  disjoint := fun b hb b' hb' hne i hi hi' =>
    h.disjoint b hb b' hb' hne i (((hcooks b hb).menu i).mp hi)
      (((hcooks b' hb').menu i).mp hi')
  others := hothers

theorem SharedOrder.known {s : System} {c : Addr} {cooks : List Addr}
    (h : s.SharedOrder c cooks) {b : Addr} (hb : b = c ∨ b ∈ cooks) :
    s.Connected b ∧ (s.record b).state ≠ .unknown ∧
      (s.record b).state ≠ .cookFree := by
  rcases hb with rfl | hb
  · rw [h.customer.2]
    exact ⟨h.customer.1, by decide, by decide⟩
  · rw [(h.busy b hb).2.1]
    exact ⟨(h.busy b hb).1, by decide, by decide⟩

theorem SharedOrder.of_accept {s : System} {c a : Addr} {cooks : List Addr}
    (h : s.SharedOrder c cooks) (hs' : (s.accept a).WellFormed)
    (hfree : ¬ s.Connected a) :
    (s.accept a).SharedOrder c cooks ∧ (s.accept a).record c = s.record c := by
  have hrecord : ∀ b, b = c ∨ b ∈ cooks → (s.accept a).record b = s.record b :=
    fun b hb => record_accept_of_ne fun heq => hfree (heq ▸ (h.known hb).1)
  refine ⟨h.frame hs' (fun b hb _ => accept_connected.mpr (.inl hb))
    (hrecord c (.inl rfl)) (fun b hb => .of_record (hrecord b (.inr hb)))
    (fun b hb hnot t ht => ?_), hrecord c (.inl rfl)⟩
  obtain ⟨hba, ht⟩ := mem_pending_accept.mp ht
  exact h.others b (by simpa [hba] using hb) hnot t ht

theorem SharedOrder.of_order {s : System} {c a : Addr} {cooks : List Addr}
    (h : s.SharedOrder c cooks) {p : CustOrderPkt} {heap : Heap}
    {grants : List Grant} {n : Nat} (ho : s.Ordering a p heap grants n)
    (hs' : (s.afterOrder a heap grants n).WellFormed) :
    (s.afterOrder a heap grants n).SharedOrder c cooks ∧
      (s.afterOrder a heap grants n).record c = s.record c := by
  have hne : ∀ b, b = c ∨ b ∈ cooks → b ≠ a := by
    rintro b hb rfl
    exact (h.known hb).2.1 ho.state
  have hrecord : ∀ b, b = c ∨ b ∈ cooks →
      (s.afterOrder a heap grants n).record b = s.record b := fun b hb => by
    rw [record_afterOrder, ho.record_of_not_free (hne b hb) (h.known hb).2.2]
  refine ⟨h.frame hs' (fun b hb _ => hb) (hrecord c (.inl rfl))
    (fun b hb => .of_record (hrecord b (.inr hb))) (fun b hb hnot t ht => ?_),
    hrecord c (.inl rfl)⟩
  rcases mem_pending_order_cases ho ht with hold | ⟨-, hcust, -⟩
  · exact h.others b hb hnot t hold
  · rw [hcust]
    exact (hne c (.inl rfl)).symm

theorem completedCustomer_assigned {s : System} {a c : Addr} {i : Item} :
    (s.completedCustomer a c).menuItems i = .assigned ↔
      (s.record c).menuItems i = .assigned ∧
        (s.record a).menuItems i ≠ .assigned := by
  unfold completedCustomer completeItems
  by_cases hmark : (s.record a).menuItems i = .assigned <;> simp [hmark]

theorem sameMarks_completed {s : System} {a b : Addr} (hba : b ≠ a)
    (hspares : ∀ i, (s.record a).menuItems i = .assigned →
      (s.record b).menuItems i ≠ .assigned) :
    s.SameMarks (s.afterUpdate a b) b := by
  have hrecord := record_afterUpdate_cust (s := s) hba
  refine ⟨by rw [hrecord]; rfl, by rw [hrecord]; rfl, fun i => ?_⟩
  rw [hrecord, completedCustomer_assigned]
  exact ⟨And.left, fun hi => ⟨hi, fun hmark => hspares i hmark hi⟩⟩

theorem SharedOrder.of_update {s : System} {c a : Addr} {cooks : List Addr}
    (h : s.SharedOrder c cooks) {p : RegCookPkt} {m : CookUpdatePkt} {t : Ticket}
    (hu : s.Updating a p m t) (ha : a ∉ cooks)
    (hspares : SparesCooks (cooks, s) (.handle a))
    (hs' : (s.afterUpdate a t.cust).WellFormed) :
    (s.afterUpdate a t.cust).SharedOrder c cooks ∧
      (s.afterUpdate a t.cust).record c = s.record c := by
  have htc : t.cust ≠ c := h.others a hu.connected ha t (by simp [hu.pending])
  have hrecord : (s.afterUpdate a t.cust).record c = s.record c :=
    record_afterUpdate_of_ne (ne_of_state h.customer.2 hu.state (by decide))
      (Ne.symm htc)
  refine ⟨h.frame hs' (fun b hb _ => hb) hrecord (fun b hb => ?_)
    (fun b hb hnot u hm => h.others b hb hnot u ((mem_pending_update hu).mp hm).2),
    hrecord⟩
  have hba : b ≠ a := fun heq => ha (heq ▸ hb)
  by_cases hbt : b = t.cust
  · subst hbt
    exact sameMarks_completed hba
      (hspares a ⟨rfl, m, t, [], hu.request⟩ t.cust hb hu.assigned)
  · exact .of_record (record_afterUpdate_of_ne hba hbt)

theorem SharedOrder.not_sendsComplete {s s' : System} {c : Addr}
    {cooks : List Addr} {e : Event} (h : s.SharedOrder c cooks)
    (hstep : s.step e = some s') (hforeign : ∀ b ∈ cooks, e ≠ .handle b) :
    ¬ s.SendsComplete e c := by
  intro hsends
  obtain ⟨a, p, m, t, rfl, hu, -, hcust, -⟩ :=
    updating_of_sendsComplete h.wellFormed hsends hstep
  have ha : a ∉ cooks := fun ha => hforeign a ha rfl
  exact h.others a hu.connected ha t (by simp [hu.pending]) hcust

theorem SharedOrder.foreign {s s' : System} {c : Addr} {cooks : List Addr}
    {e : Event} (h : s.SharedOrder c cooks) (hstep : s.step e = some s')
    (hforeign : ∀ b ∈ cooks, e ≠ .handle b) (hc : e ≠ .disconnect c)
    (hcooks : ∀ b ∈ cooks, e ≠ .disconnect b)
    (hspares : SparesCooks (cooks, s) e) :
    s'.SharedOrder c cooks ∧ s'.record c = s.record c := by
  have hs' := wellFormed_step h.wellFormed hstep
  cases change_of_step h.wellFormed hstep with
  | accept hfree => exact h.of_accept hs' hfree
  | order ho => exact h.of_order ho hs'
  | update hu => exact h.of_update hu (fun ha => hforeign _ ha rfl) hspares hs'
  | quiet hq =>
      have hstays : ∀ b, b = c ∨ b ∈ cooks → e ≠ .disconnect b := by
        rintro b (rfl | hb)
        · exact hc
        · exact hcooks b hb
      have hconn : ∀ b, s.Connected b → b = c ∨ b ∈ cooks → s'.Connected b :=
        fun b hb hmem => (hq.connected b).mpr ⟨hb, hstays b hmem⟩
      have hrecord : ∀ b, b = c ∨ b ∈ cooks → s'.record b = s.record b :=
        fun b hb => hq.record b (hconn b (h.known hb).1 hb) (h.known hb).2.1
      exact ⟨h.frame hs' hconn (hrecord c (.inl rfl))
        (fun b hb => .of_record (hrecord b (.inr hb))) (fun b hb hnot t ht =>
        h.others b (hq.old hb) hnot t (hq.pending b hb t ht)),
        hrecord c (.inl rfl)⟩

/-! ## Answers -/

theorem SharedOrder.updating {s s' : System} {c a : Addr} {cooks : List Addr}
    (h : s.SharedOrder c cooks) (ha : a ∈ cooks)
    (hstep : s.step (.handle a) = some s') :
    (∃ p m t, s.Updating a p m t) ∧ s' = s.afterUpdate a c ∧
      s.writes (.handle a) = completionWrites c (s.completedCustomer a c) := by
  obtain ⟨-, hbusy, hassigned⟩ := h.busy a ha
  cases transition_of_step h.wellFormed hstep with
  | register hconn hpeer hstate hrequest =>
      exact absurd rfl (ne_of_state hbusy hstate (by decide))
  | order ho => exact absurd rfl (ne_of_state hbusy ho.state (by decide))
  | @update _ p m t hu hcust hwrites =>
      obtain rfl : c = t.cust := by
        simpa [hassigned] using hu.assigned
      exact ⟨⟨p, m, t, hu⟩, rfl, hwrites⟩
  | @orphan _ p m t hu hgone =>
      obtain rfl : c = t.cust := by
        simpa [hassigned] using hu.assigned
      exact absurd h.customer.1 hgone

theorem SharedOrder.answer {s s' : System} {c a : Addr} {cooks : List Addr}
    (h : s.SharedOrder c cooks) (ha : a ∈ cooks)
    (hstep : s.step (.handle a) = some s') :
    s'.SharedOrder c (cooks.erase a) := by
  have hs' := wellFormed_step h.wellFormed hstep
  obtain ⟨⟨p, m, t, hu⟩, rfl, -⟩ := h.updating ha hstep
  have hmem : ∀ b, b ∈ cooks.erase a ↔ b ≠ a ∧ b ∈ cooks := fun b =>
    h.nodup.mem_erase_iff
  have hcust : ∀ b ∈ cooks, b ≠ c := fun b hb =>
    ne_of_state (h.busy b hb).2.1 h.customer.2 (by decide)
  have hrecordC : (s.afterUpdate a c).record c = s.completedCustomer a c :=
    record_afterUpdate_cust (hcust a ha).symm
  have hrecord : ∀ b ∈ cooks.erase a,
      (s.afterUpdate a c).record b = s.record b := fun b hb =>
    record_afterUpdate_of_ne ((hmem b).mp hb).1 (hcust b ((hmem b).mp hb).2)
  refine ⟨hs', ⟨h.customer.1, ?_⟩, h.nodup.erase a, fun b hb => ?_, fun b hb => ?_,
    fun i => ?_, fun b hb b' hb' => ?_, fun b hb hnot u hm => ?_⟩
  · rw [hrecordC]
    exact h.customer.2
  · rw [hrecord b hb]
    exact h.busy b ((hmem b).mp hb).2
  · rw [hrecord b hb]
    exact h.part b ((hmem b).mp hb).2
  · rw [hrecordC, completedCustomer_assigned, h.covers i]
    constructor
    · rintro ⟨⟨b, hb, hi⟩, hnot⟩
      have hba : b ≠ a := by
        rintro rfl
        exact hnot hi
      have hb' := (hmem b).mpr ⟨hba, hb⟩
      exact ⟨b, hb', by rw [hrecord b hb']; exact hi⟩
    · rintro ⟨b, hb, hi⟩
      rw [hrecord b hb] at hi
      obtain ⟨hba, hb⟩ := (hmem b).mp hb
      exact ⟨⟨b, hb, hi⟩, h.disjoint b hb a ha hba i hi⟩
  · rw [hrecord b hb, hrecord b' hb']
    exact h.disjoint b ((hmem b).mp hb).2 b' ((hmem b').mp hb').2
  · obtain ⟨hba, hm⟩ := (mem_pending_update hu).mp hm
    have hnot' : b ∉ cooks := fun hb' => hnot ((hmem b).mpr ⟨hba, hb'⟩)
    exact h.others b hb hnot' u hm

theorem SharedOrder.completions_answer {s s' : System} {c a : Addr}
    {cooks : List Addr} (h : s.SharedOrder c cooks) (ha : a ∈ cooks)
    (hstep : s.step (.handle a) = some s') :
    s'.completions c =
      s.completions c + if cooks.erase a = [] then 1 else 0 := by
  have h' := h.answer ha hstep
  obtain ⟨⟨p, m, t, hu⟩, hs', hwrites⟩ := h.updating ha hstep
  have hca : c ≠ a := ne_of_state h.customer.2 hu.state (by decide)
  have hfound : assignedFound (s.completedCustomer a c) = true ↔
      cooks.erase a ≠ [] := by
    rw [assignedFound_eq_true, ← record_afterUpdate_cust hca, ← hs']
    constructor
    · rintro ⟨i, hi⟩
      obtain ⟨b, hb, -⟩ := (h'.covers i).mp hi
      exact List.ne_nil_of_mem hb
    · intro hne
      obtain ⟨b, hb⟩ := List.exists_mem_of_ne_nil _ hne
      obtain ⟨i, hi⟩ := h'.part b hb
      exact ⟨i, (h'.covers i).mpr ⟨b, hb, hi⟩⟩
  rw [completions_step h.customer.1 hstep, hwrites, completionWrites]
  by_cases hnil : cooks.erase a = []
  · have hnot : ¬ assignedFound (s.completedCustomer a c) = true := fun hany =>
      hfound.mp hany hnil
    simp [hnil, hnot, writesTo]
  · simp [hnil, hfound.mpr hnil, writesTo]

/-! ## Runs -/

/-- What happens to an order of the customer at `c` while the cooks answer until
only `left` of them have still to. -/
structure Answering (s s' : System) (c : Addr) (cooks left : List Addr) : Prop where
  shared : s'.SharedOrder c left
  completions : s'.completions c = s.completions c +
    if cooks ≠ [] ∧ left = [] then 1 else 0
  marked : ∀ i, (s.record c).menuItems i = .assigned ∨
      (s.record c).menuItems i = .completed →
    (s'.record c).menuItems i = .assigned ∨ (s'.record c).menuItems i = .completed
  old : ∀ i, (s'.record c).menuItems i = .assigned →
    (s.record c).menuItems i = .assigned

theorem Answering.completed {s s' : System} {c : Addr} {cooks : List Addr}
    (h : s.Answering s' c cooks []) {i : Item}
    (hi : (s.record c).menuItems i = .assigned ∨
      (s.record c).menuItems i = .completed) :
    (s'.record c).menuItems i = .completed := by
  rcases h.marked i hi with hleft | hdone
  · simpa using (h.shared.covers i).mp hleft
  · exact hdone

theorem SharedOrder.answering_step {s s' : System} {c : Addr} {cooks : List Addr} {e : Event}
    (h : s.SharedOrder c cooks) (hstep : s.step e = some s')
    (hc : e ≠ .disconnect c) (hcooks : ∀ b ∈ cooks, e ≠ .disconnect b)
    (hspares : SparesCooks (cooks, s) e) :
    s.Answering s' c cooks (awaited cooks e) := by
  by_cases hforeign : ∀ b ∈ cooks, e ≠ .handle b
  · obtain ⟨hshared, hrecord⟩ := h.foreign hstep hforeign hc hcooks hspares
    have hcount := completions_of_not_sends h.customer.1 hstep
      (h.not_sendsComplete hstep hforeign)
    rw [awaited_of_foreign hforeign]
    refine ⟨hshared, by simp [hcount], fun i => ?_, fun i => ?_⟩
    · rw [hrecord]
      exact id
    · rw [hrecord]
      exact id
  · simp only [not_forall, not_not] at hforeign
    obtain ⟨a, ha, rfl⟩ := hforeign
    have hcount := h.completions_answer ha hstep
    have hshared := h.answer ha hstep
    obtain ⟨⟨p, m, t, hu⟩, rfl, -⟩ := h.updating ha hstep
    have hca : c ≠ a := ne_of_state h.customer.2 hu.state (by decide)
    refine ⟨hshared, ?_, fun i hi => ?_, fun i hi => ?_⟩
    · rw [hcount]
      simp [awaited, List.ne_nil_of_mem ha]
    · rw [record_afterUpdate_cust hca]
      unfold completedCustomer completeItems
      by_cases hmark : (s.record a).menuItems i = .assigned <;> simp [hmark, hi]
    · rw [record_afterUpdate_cust hca, completedCustomer_assigned] at hi
      exact hi.1

theorem Answering.trans {s middle s' : System} {c : Addr} {cooks : List Addr}
    {e : Event} {left : List Addr}
    (hfirst : s.Answering middle c cooks (awaited cooks e))
    (hrest : middle.Answering s' c (awaited cooks e) left)
    (hleft : awaited cooks e = [] → left = []) : s.Answering s' c cooks left where
  shared := hrest.shared
  completions := by
    rw [hrest.completions, hfirst.completions]
    by_cases hnil : awaited cooks e = []
    · -- nobody is left, so the rest of the run adds nothing
      simp [hnil, hleft hnil]
    · have hne : cooks ≠ [] := by
        rintro rfl
        exact hnil (awaited_nil e)
      simp [hnil, hne]
  marked := fun i hi => hrest.marked i (hfirst.marked i hi)
  old := fun i hi => hfirst.old i (hrest.old i hi)

theorem awaitStep_eq_some {s s' : System} {cooks : List Addr} {e : Event}
    (h : s.step e = some s') :
    awaitStep (cooks, s) e = some (awaited cooks e, s') := by
  simp [awaitStep, h]

theorem SharedOrder.answering_run {s s' : System} {c : Addr} {cooks : List Addr}
    {events : List Event} (h : s.SharedOrder c cooks)
    (hrun : run step s events = some s')
    (hstay : Uninterrupted c cooks events)
    (hspares : AllSteps awaitStep SparesCooks (cooks, s) events) :
    s.Answering s' c cooks (unanswered cooks events) := by
  induction events generalizing s cooks with
  | nil =>
      obtain rfl : s = s' := by simpa using hrun
      exact ⟨h, by simp [unanswered], fun _ => id, fun _ => id⟩
  | cons e events ih =>
      obtain ⟨next, hnext, hrest⟩ := run_cons_eq_some.mp hrun
      obtain ⟨⟨hc, hcooks⟩, hstay⟩ := hstay
      have hfirst := h.answering_step hnext hc hcooks hspares.1
      have hlater := ih hfirst.shared hrest hstay
        (hspares.2 _ (awaitStep_eq_some hnext))
      refine hfirst.trans hlater fun hnil => ?_
      rw [unanswered, List.foldl_cons, hnil]
      exact unanswered_nil events

/-- The update of the last cook, and no other step, sends the completion message;
after it every item that was `ASSIGNED` is `COMPLETED`. -/
def CompletedOnce (s s' : System) (c : Addr) (cooks : List Addr)
    (events : List Event) : Prop :=
  ∃ before last after middle next,
    events = before ++ .handle last :: after ∧
    unanswered cooks before = [last] ∧
    run step s before = some middle ∧
    middle.step (.handle last) = some next ∧
    middle.HandlesUpdate (.handle last) last ∧
    middle.completions c = s.completions c ∧
    next.completions c = s.completions c + 1 ∧
    s'.completions c = s.completions c + 1 ∧
    ∀ i, (s.record c).menuItems i = .assigned →
      (next.record c).menuItems i = .completed ∧
        (s'.record c).menuItems i = .completed

theorem run_awaitStep {s s' : System} {cooks : List Addr} {events : List Event}
    (h : run step s events = some s') :
    run awaitStep (cooks, s) events = some (unanswered cooks events, s') := by
  induction events generalizing s cooks with
  | nil =>
      obtain rfl : s = s' := by simpa using h
      rfl
  | cons e events ih =>
      obtain ⟨next, hnext, hrest⟩ := run_cons_eq_some.mp h
      exact run_cons_eq_some.mpr ⟨_, awaitStep_eq_some hnext, ih hrest⟩

theorem completedOnce_of_spares {s s' : System} {c : Addr} {cooks : List Addr}
    {events : List Event} (h : s.SharedOrder c cooks) (hsome : cooks ≠ [])
    (hrun : run step s events = some s') (hstay : Uninterrupted c cooks events)
    (hall : unanswered cooks events = [])
    (hspares : AllSteps awaitStep SparesCooks (cooks, s) events) :
    s.CompletedOnce s' c cooks events := by
  obtain ⟨before, last, after, rfl, hbefore⟩ := exists_last_answer hsome hall
  obtain ⟨middle, hmiddle, hrest⟩ := run_append_eq_some.mp hrun
  obtain ⟨next, hnext, hafter⟩ := run_cons_eq_some.mp hrest
  obtain ⟨hstay, ⟨hc, hcooks⟩, hstay'⟩ := uninterrupted_append.mp hstay
  obtain ⟨hspares, hspares'⟩ := hspares.of_append
  obtain ⟨hspare, hspares''⟩ := hspares' _ (run_awaitStep hmiddle)
  have hfirst := h.answering_run hmiddle hstay hspares
  rw [hbefore] at hfirst hcooks hstay' hspare hspares''
  have hlast : awaited [last] (.handle last) = [] := by simp [awaited]
  have hanswer := hfirst.shared.answering_step hnext hc hcooks hspare
  have hrest := hspares'' _ (awaitStep_eq_some hnext)
  rw [hlast] at hanswer hstay' hrest
  have hlater := hanswer.shared.answering_run hafter hstay' hrest
  rw [unanswered_nil] at hlater
  obtain ⟨⟨p, m, t, hu⟩, -⟩ := hfirst.shared.updating List.mem_cons_self hnext
  have hmiddleCount : middle.completions c = s.completions c := by
    simpa using hfirst.completions
  have hnextCount : next.completions c = s.completions c + 1 := by
    simpa [hmiddleCount] using hanswer.completions
  refine ⟨before, last, after, middle, next, rfl, hbefore, hmiddle, hnext,
    ⟨rfl, m, t, [], hu.request⟩, hmiddleCount, hnextCount, ?_, fun i hi => ?_⟩
  · simpa [hnextCount] using hlater.completions
  · have hdone := hanswer.completed (hfirst.marked i (.inl hi))
    exact ⟨hdone, hlater.completed (.inr hdone)⟩

/-! ## Marks that are lost -/

/-- Item `i` of the customer at `c` is `ASSIGNED`, but not in the record of any
cook with an order of `c` pending. -/
structure Lost (s : System) (c : Addr) (i : Item) : Prop where
  wellFormed : s.WellFormed
  customer : s.Connected c ∧ (s.record c).state = .customer
  mark : (s.record c).menuItems i = .assigned
  cooks : ∀ b, s.Connected b → ∀ t ∈ s.pending b, t.cust = c →
    (s.record b).menuItems i ≠ .assigned

theorem Lost.of_order {s : System} {c a : Addr} {i : Item} (h : s.Lost c i)
    {p : CustOrderPkt} {heap : Heap} {grants : List Grant} {n : Nat}
    (ho : s.Ordering a p heap grants n)
    (hs' : (s.afterOrder a heap grants n).WellFormed) :
    (s.afterOrder a heap grants n).Lost c i := by
  have hca : c ≠ a := ne_of_state h.customer.2 ho.state (by decide)
  have hrecord : (s.afterOrder a heap grants n).record c = s.record c :=
    ho.record_of_not_free hca (by rw [h.customer.2]; decide)
  refine ⟨hs', ⟨h.customer.1, hrecord ▸ h.customer.2⟩, hrecord ▸ h.mark,
    fun b hb t ht hcust => ?_⟩
  rcases mem_pending_order_cases ho ht with hold | ⟨-, hnew, -⟩
  · -- a cook with an order pending is busy, so this order does not touch it
    have hbusy := ((h.wellFormed.phase b hb).of_pending hold).1
    rw [record_afterOrder, ho.record_of_not_free
      (ne_of_state hbusy ho.state (by decide)) (by rw [hbusy]; decide)]
    exact h.cooks b hb t hold hcust
  · exact absurd (hcust.symm.trans hnew) hca

theorem Lost.of_update {s : System} {c a : Addr} {i : Item} (h : s.Lost c i)
    {p : RegCookPkt} {m : CookUpdatePkt} {t : Ticket} (hu : s.Updating a p m t)
    (hs' : (s.afterUpdate a t.cust).WellFormed) :
    (s.afterUpdate a t.cust).Lost c i := by
  have hca : c ≠ a := ne_of_state h.customer.2 hu.state (by decide)
  have hc : ((s.afterUpdate a t.cust).record c).state = .customer ∧
      ((s.afterUpdate a t.cust).record c).menuItems i = .assigned := by
    by_cases hct : c = t.cust
    · -- the update of a cook of `c` does not have the item marked
      subst hct
      have hnot := h.cooks a hu.connected t (by simp [hu.pending]) rfl
      rw [record_afterUpdate_cust hca, completedCustomer_assigned]
      exact ⟨h.customer.2, h.mark, hnot⟩
    · rw [record_afterUpdate_of_ne hca hct]
      exact ⟨h.customer.2, h.mark⟩
  refine ⟨hs', ⟨h.customer.1, hc.1⟩, hc.2, fun b hb u hm hcust => ?_⟩
  obtain ⟨hba, hold⟩ := (mem_pending_update hu).mp hm
  have hnot := h.cooks b hb u hold hcust
  by_cases hbt : b = t.cust
  · subst hbt
    rw [record_afterUpdate_cust hba]
    exact fun hmark => hnot (completedCustomer_assigned.mp hmark).1
  · rwa [record_afterUpdate_of_ne hba hbt]

theorem Lost.of_step {s s' : System} {c : Addr} {i : Item} (h : s.Lost c i)
    {e : Event} (hstep : s.step e = some s') (hc : e ≠ .disconnect c) :
    s'.Lost c i := by
  have hs' := wellFormed_step h.wellFormed hstep
  cases change_of_step h.wellFormed hstep with
  | order ho => exact h.of_order ho hs'
  | update hu => exact h.of_update hu hs'
  | @accept a hfree =>
      have hca : c ≠ a := fun heq => hfree (heq ▸ h.customer.1)
      have hrecord := record_accept_of_ne (s := s) hca
      refine ⟨hs', ⟨accept_connected.mpr (.inl h.customer.1), ?_⟩, ?_,
        fun b hb t ht => ?_⟩
      · rw [hrecord]
        exact h.customer.2
      · rw [hrecord]
        exact h.mark
      · obtain ⟨hba, ht⟩ := mem_pending_accept.mp ht
        rw [record_accept_of_ne hba]
        exact h.cooks b (by simpa [hba] using hb) t ht
  | quiet hq =>
      have hconn : s'.Connected c := (hq.connected c).mpr ⟨h.customer.1, hc⟩
      have hrecord := hq.record c hconn (by rw [h.customer.2]; decide)
      refine ⟨hs', ⟨hconn, hrecord ▸ h.customer.2⟩, hrecord ▸ h.mark,
        fun b hb t ht => ?_⟩
      have hold := hq.pending b hb t ht
      have hbusy := ((h.wellFormed.phase b (hq.old hb)).of_pending hold).1
      rw [hq.record b hb (by rw [hbusy]; decide)]
      exact h.cooks b (hq.old hb) t hold

theorem Lost.of_run {s s' : System} {c : Addr} {i : Item} {cooks : List Addr}
    {events : List Event} (h : s.Lost c i) (hrun : run step s events = some s')
    (hstay : Uninterrupted c cooks events) : s'.Lost c i := by
  induction events generalizing s cooks with
  | nil =>
      obtain rfl : s = s' := by simpa using hrun
      exact h
  | cons e events ih =>
      obtain ⟨next, hnext, hrest⟩ := run_cons_eq_some.mp hrun
      exact ih (h.of_step hnext hstay.1.1) hrest hstay.2

theorem SharedOrder.lost_of_not_spares {s s' : System} {c : Addr}
    {cooks : List Addr} {e : Event} (h : s.SharedOrder c cooks)
    (hstep : s.step e = some s') (hspares : ¬ SparesCooks (cooks, s) e) :
    ∃ i, (s.record c).menuItems i = .assigned ∧ s'.Lost c i := by
  simp only [SparesCooks, not_forall, not_not] at hspares
  obtain ⟨a, hupdate, b, hb, hassigned, i, hmark, hi⟩ := hspares
  obtain ⟨p, m, t, hu, hs'⟩ := updating_of_handlesUpdate h.wellFormed hupdate hstep
  obtain ⟨hconn, hbusy, -⟩ := h.busy b hb
  have hcust : t.cust = b := by simpa [hu.assigned] using hassigned
  have hwf := wellFormed_step h.wellFormed hstep
  obtain rfl : s' = s.afterUpdate a b := by
    rcases hs' with ⟨-, rfl⟩ | ⟨hgone, -⟩
    · rw [hcust]
    · exact absurd (hcust ▸ hconn) hgone
  have hbc : b ≠ c := ne_of_state hbusy h.customer.2 (by decide)
  have hca : c ≠ a := ne_of_state h.customer.2 hu.state (by decide)
  have hba : b ≠ a := hcust ▸ hu.other
  have hc := (h.covers i).mpr ⟨b, hb, hi⟩
  have hrecord : (s.afterUpdate a b).record c = s.record c :=
    record_afterUpdate_of_ne hca hbc.symm
  refine ⟨i, hc, hwf, ⟨h.customer.1, hrecord ▸ h.customer.2⟩, hrecord ▸ hc,
    fun b' hb' u hm hu' => ?_⟩
  obtain ⟨hb'a, hold⟩ := (mem_pending_update hu).mp hm
  by_cases hb'b : b' = b
  · -- the mark of the cook at the reused address is the one that is lost
    subst hb'b
    rw [record_afterUpdate_cust hb'a]
    exact fun hboth => (completedCustomer_assigned.mp hboth).2 hmark
  · rw [record_afterUpdate_of_ne hb'a hb'b]
    have hmem : b' ∈ cooks := by
      by_contra hnot
      exact h.others b' hb' hnot u hold hu'
    exact h.disjoint b hb b' hmem (Ne.symm hb'b) i hi

theorem SharedOrder.lost_of_run {s s' : System} {c : Addr} {cooks : List Addr}
    {events : List Event} (h : s.SharedOrder c cooks)
    (hrun : run step s events = some s') (hstay : Uninterrupted c cooks events)
    (hspares : ¬ AllSteps awaitStep SparesCooks (cooks, s) events) :
    ∃ i, (s.record c).menuItems i = .assigned ∧
      (s'.record c).menuItems i = .assigned := by
  induction events generalizing s cooks with
  | nil => exact absurd trivial hspares
  | cons e events ih =>
      obtain ⟨next, hnext, hrest⟩ := run_cons_eq_some.mp hrun
      obtain ⟨⟨hc, hcooks⟩, hstay⟩ := hstay
      by_cases hfirst : SparesCooks (cooks, s) e
      · have hanswer := h.answering_step hnext hc hcooks hfirst
        obtain ⟨i, hi, hi'⟩ := ih hanswer.shared hrest hstay fun hlater =>
          hspares ⟨hfirst, fun x hx => by
            rw [awaitStep_eq_some hnext, Option.some.injEq] at hx
            exact hx ▸ hlater⟩
        exact ⟨i, hanswer.old i hi, hi'⟩
      · obtain ⟨i, hi, hlost⟩ := h.lost_of_not_spares hnext hfirst
        exact ⟨i, hi, (hlost.of_run hrest hstay).mark⟩

set_option maxRecDepth 4000

def dividedRun : List Event :=
  [.accept 1, .sendReg 1 (.ofItems [1]), .handle 1,
   .accept 2, .sendReg 2 (.ofItems [1, 2, 3]), .handle 2,
   .accept 3, .sendOrder 3 (.ofCodes [1, 2, 3]), .handle 3]

theorem dividedRun_isSome : (run step initial dividedRun).isSome := by
  decide

def dividedState : System := (run step initial dividedRun).get dividedRun_isSome

theorem dividedState_sharedOrder : dividedState.SharedOrder 3 [1, 2] where
  wellFormed := (invariant_run (Option.some_get dividedRun_isSome).symm).wellFormed
  customer := by decide
  nodup := by decide
  busy := by decide
  part := by decide
  covers := by decide
  disjoint := by decide
  others := by decide

/-- The second cook answers first and cooks for another customer before the
first cook answers. -/
def reassignedRun : List Event :=
  [.read 2 [], .handle 2, .accept 4, .sendOrder 4 (.ofCodes [1]), .handle 4,
   .read 2 [], .handle 2, .read 1 [], .handle 1, .disconnect 2]

theorem reassignedRun_isSome : (run step dividedState reassignedRun).isSome := by
  decide

/-- Cook 1 gets an order of customer 5, who leaves.  A cook is accepted at the
address 5 and gets the order of customer 3. -/
def reusedAddressRun : List Event :=
  [.accept 1, .sendReg 1 (.ofItems [1]), .handle 1,
   .accept 5, .sendOrder 5 (.ofCodes [1]), .handle 5, .disconnect 5,
   .accept 5, .sendReg 5 (.ofItems [1]), .handle 5,
   .accept 3, .sendOrder 3 (.ofCodes [1]), .handle 3]

theorem reusedAddressRun_isSome : (run step initial reusedAddressRun).isSome := by
  decide

def reusedAddressState : System :=
  (run step initial reusedAddressRun).get reusedAddressRun_isSome

theorem reusedAddressState_sharedOrder : reusedAddressState.SharedOrder 3 [5] where
  wellFormed :=
    (invariant_run (Option.some_get reusedAddressRun_isSome).symm).wellFormed
  customer := by decide
  nodup := by decide
  busy := by decide
  part := by decide
  covers := by decide
  disjoint := by decide
  others := by decide

/-- Both cooks answer, the one with the old order first. -/
def crossedAnswersRun : List Event :=
  [.read 1 [], .handle 1, .read 5 [], .handle 5]

theorem crossedAnswersRun_isSome :
    (run step reusedAddressState crossedAnswersRun).isSome := by
  decide

def crossedAnswersState : System :=
  (run step reusedAddressState crossedAnswersRun).get crossedAnswersRun_isSome

end System

end SysprogTeam3.FoodSys
