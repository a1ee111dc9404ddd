import Mathlib.Data.List.Find
import SysprogTeam3.FoodSys.Assignment

/-!
# Independent orders commute

Two orders of new customers that no free cook could serve both leave the same
records and send the same packets in either order.  Only the `assigned_client`
of cooks that stay free shows which of them looked last.
-/

namespace SysprogTeam3.FoodSys

/-- The records agree, but for the `assigned_client` of a free cook. -/
def SameButLooked (r r' : Client) : Prop :=
  r = r' ∨ r.state = .cookFree ∧ r' = { r with assignedClient := r'.assignedClient }

theorem SameButLooked.trans {r r' r'' : Client} (h : SameButLooked r r')
    (h' : SameButLooked r' r'') : SameButLooked r r'' := by
  rcases h with rfl | ⟨hfree, heq⟩
  · exact h'
  · rcases h' with rfl | ⟨-, heq'⟩
    · exact .inr ⟨hfree, heq⟩
    · rw [heq] at heq'
      exact .inr ⟨hfree, heq'⟩

theorem SameButLooked.symm {r r' : Client} (h : SameButLooked r r') :
    SameButLooked r' r := by
  rcases h with rfl | ⟨hfree, heq⟩
  · exact .inl rfl
  · rw [heq]
    exact .inr ⟨hfree, rfl⟩

theorem SameButLooked.state {r r' : Client} (h : SameButLooked r r') :
    r'.state = r.state := by
  rcases h with rfl | ⟨-, heq⟩
  · rfl
  · rw [heq]

theorem SameButLooked.menuItems {r r' : Client} (h : SameButLooked r r') :
    r'.menuItems = r.menuItems := by
  rcases h with rfl | ⟨-, heq⟩
  · rfl
  · rw [heq]

theorem SameButLooked.eq_of_not_free {r r' : Client} (h : SameButLooked r r')
    (hfree : r.state ≠ .cookFree) : r' = r := by
  rcases h with rfl | ⟨hfree', -⟩
  · rfl
  · exact absurd hfree' hfree

theorem SameButLooked.servedCook {r r' : Client} (h : SameButLooked r r')
    (client : Addr) (o : CookOrderPkt) : servedCook client o r' = servedCook client o r := by
  rcases h with rfl | ⟨-, heq⟩
  · rfl
  · rw [heq]
    rfl

/-! ## One order -/

/-- What the order of a sender with no marks does, in terms of the heap before. -/
structure Settled (h h' : Heap) (queue : List Addr) (client : Addr) (p : CustOrderPkt)
    (writes : List Write) : Prop where
  sender : h' client = madeCustomer h client p queue
  served : ∀ b, b ≠ client → gets h client p queue b = true →
    h' b = servedCook client (cookOrderFor h client p queue b) (h b)
  others : ∀ b, b ≠ client → gets h client p queue b = false → SameButLooked (h b) (h' b)
  toSender : writesTo writes client =
    if p.codes.length = madeCount h client p queue then []
    else [.custUpdate ⟨customerMsg (madeCustomer h client p queue)
      (madeCount h client p queue)⟩]
  toOthers : ∀ b, b ≠ client → writesTo writes b =
    if gets h client p queue b then [.cookOrder (cookOrderFor h client p queue b)] else []

theorem settled_passed {h h' : Heap} {queue : List Addr} {client : Addr}
    {p : CustOrderPkt} (hqueue : queue.Nodup) (hcust : (h client).state ≠ .cookFree)
    (hmenu : ∀ i, (h client).menuItems i = .undefined)
    (hheap : h' = (passed h client p (searched h client p queue)).heap) :
    Settled h h' queue client p
      ((passed h client p (searched h client p queue)).writes ++
        notifyCustomer h' client (madeCount h client p (searched h client p queue))) := by
  have hnodup := hqueue.sublist (searched_isPrefix h client p queue).sublist
  have hby := madeBy_searched (p := p) hmenu queue
  have hmade := made_searched (p := p) hmenu queue
  have hgets : ∀ b, gets h client p (searched h client p queue) b =
      gets h client p queue b := fun b => by
    rw [gets, gets, hby]
  have horder : ∀ b, cookOrderFor h client p (searched h client p queue) b =
      cookOrderFor h client p queue b := fun b => by
    rw [cookOrderFor, cookOrderFor, hby]
  have hcount : madeCount h client p (searched h client p queue) =
      madeCount h client p queue := by
    rw [madeCount, madeCount, hmade]
  have hsender : madeCustomer h client p (searched h client p queue) =
      madeCustomer h client p queue := by
    rw [madeCustomer, madeCustomer, hmade]
  have hclient : h' client = madeCustomer h client p queue := by
    rw [hheap, passed_client, hsender]
  refine ⟨hclient, fun b hbc hb => ?_, fun b hbc hb => ?_, ?_, fun b hbc => ?_⟩
  · rw [← hgets] at hb
    rw [hheap, passed_of_gets hbc hb, horder]
  · rw [← hgets] at hb
    rw [hheap]
    rcases passed_of_not_gets hbc hb with hsame | ⟨-, hfree, hlooked⟩
    · exact .inl hsame.symm
    · exact .inr ⟨hfree, by rw [hlooked]⟩
  · have hnot : gets h client p (searched h client p queue) client = false := by
      by_contra hgets
      exact hcust (mem_of_gets (by simpa using hgets)).2
    have hcodes : (madeCustomer h client p queue).numOfOrders = p.codes.length := rfl
    rw [writesTo_append, writesTo_passed hnodup, hnot, hcount, notifyCustomer, hclient,
      hcodes, if_neg Bool.false_ne_true, List.nil_append]
    split <;> simp [writesTo]
  · rw [writesTo_append, writesTo_passed hnodup, hgets, horder]
    have hnotify : writesTo (notifyCustomer h' client
        (madeCount h client p (searched h client p queue))) b = [] := by
      unfold notifyCustomer
      split <;> simp [writesTo, hbc.symm]
    rw [hnotify, List.append_nil]

theorem settled_of_order {sv : Server} {client : Addr} {p : CustOrderPkt}
    (hqueue : sv.clientTailq.Nodup)
    (hstate : (sv.heap client).state = .unknown ∨
      (sv.heap client).state = .customer)
    (hmenu : ∀ i, (sv.heap client).menuItems i = .undefined) (hrange : p.inRange) :
    ∃ heap writes, custOrderHandler sv client p = some ({ sv with heap := heap }, writes) ∧
      Settled sv.heap heap sv.clientTailq client p writes := by
  have hcust : (sv.heap client).state ≠ .cookFree := by
    rcases hstate with hstate | hstate <;> simp [hstate]
  exact ⟨_, _, custOrderHandler_passed hrange hqueue hstate,
    settled_passed hqueue hcust hmenu rfl⟩

/-! ## Two orders -/

def Independent (sv : Server) (p q : CustOrderPkt) : Prop :=
  ∀ b ∈ sv.clientTailq, ∀ i j, p.names i = true → q.names j = true →
    ¬ (canMake sv.heap i b = true ∧ canMake sv.heap j b = true)

def handleBoth (sv : Server) (c : Addr) (p : CustOrderPkt) (d : Addr)
    (q : CustOrderPkt) : Option (Server × List Write) :=
  match custOrderHandler sv c p with
  | none => none
  | some (sv', writes) =>
      (custOrderHandler sv' d q).map fun result => (result.1, writes ++ result.2)

theorem Independent.symm {sv : Server} {p q : CustOrderPkt} (h : Independent sv p q) :
    Independent sv q p :=
  fun b hb i j hi hj hboth => h b hb j i hj hi hboth.symm

section Two

variable {h h' : Heap} {queue : List Addr} {c d : Addr} {p q : CustOrderPkt}
  {writes : List Write}
  (hindep : ∀ b ∈ queue, ∀ i j, p.names i = true → q.names j = true →
    ¬ (canMake h i b = true ∧ canMake h j b = true))
  (hc : (h c).state ≠ .cookFree) (hd : (h d).state ≠ .cookFree) (hcd : c ≠ d)
  (hcMenu : ∀ i, (h c).menuItems i = .undefined)
  (hdMenu : ∀ i, (h d).menuItems i = .undefined)
  (hfirst : Settled h h' queue c p writes)

include hindep hc hcMenu hfirst in
theorem maker_settled {j : Item} (hj : q.names j = true) :
    maker h' queue j = maker h queue j := by
  refine List.find?_congr fun b hb => ?_
  rw [Bool.eq_iff_iff, canMake_eq_true, canMake_eq_true]
  by_cases hbc : b = c
  · subst hbc
    rw [hfirst.sender]
    simp [madeCustomer, orderedClient, hc]
  · cases hgets : gets h c p queue b
    · have hsame := hfirst.others b hbc hgets
      rw [hsame.state, hsame.menuItems]
    · -- a cook of the first order can make nothing of the second
      obtain ⟨i, hi⟩ := gets_eq_true.mp hgets
      obtain ⟨hnamed, hmaker⟩ := (madeBy_unmarked hcMenu).mp hi
      have hnot : ¬ ((h b).state = .cookFree ∧ (h b).menuItems j = .capable) :=
        fun hmake => hindep b hb i j hnamed hj
          ⟨(mem_of_maker hmaker).2, canMake_eq_true.mpr hmake⟩
      rw [hfirst.served b hbc hgets]
      simp [servedCook, hnot]

include hd hcd hfirst in
theorem record_settled : h' d = h d := by
  have hgets : gets h c p queue d = false := by
    by_contra hgets
    exact hd (mem_of_gets (by simpa using hgets)).2
  exact (hfirst.others d hcd.symm hgets).eq_of_not_free hd

include hindep hc hd hcd hcMenu hdMenu hfirst in
theorem madeBy_settled (b : Addr) : madeBy h' d q queue b = madeBy h d q queue b := by
  funext j
  have hrecord := record_settled hd hcd hfirst
  have hdMenu' : ∀ i, (h' d).menuItems i = .undefined := by rwa [hrecord]
  rw [Bool.eq_iff_iff, madeBy_unmarked hdMenu, madeBy_unmarked hdMenu']
  exact and_congr_right fun hj => by
    rw [maker_settled hindep hc hcMenu hfirst hj]

include hindep hc hd hcd hcMenu hdMenu hfirst in
theorem made_settled : made h' d q queue = made h d q queue := by
  have hrecord := record_settled hd hcd hfirst
  have hdMenu' : ∀ i, (h' d).menuItems i = .undefined := by rwa [hrecord]
  funext j
  rw [made, made, offered_unmarked hdMenu, offered_unmarked hdMenu']
  cases hj : q.names j
  · rfl
  · rw [maker_settled hindep hc hcMenu hfirst hj]

include hindep hcMenu hdMenu in
theorem gets_disjoint {b : Addr} (hb : gets h c p queue b = true) :
    gets h d q queue b = false := by
  by_contra hboth
  rw [Bool.not_eq_false] at hboth
  obtain ⟨i, hi⟩ := gets_eq_true.mp hb
  obtain ⟨j, hj⟩ := gets_eq_true.mp hboth
  obtain ⟨hnamed, hmaker⟩ := (madeBy_unmarked hcMenu).mp hi
  obtain ⟨hnamed', hmaker'⟩ := (madeBy_unmarked hdMenu).mp hj
  exact hindep b (mem_of_maker hmaker).1 i j hnamed hnamed'
    ⟨(mem_of_maker hmaker).2, (mem_of_maker hmaker').2⟩

structure SettledBoth (h h' : Heap) (queue : List Addr) (c : Addr) (p : CustOrderPkt)
    (d : Addr) (q : CustOrderPkt) (writes : List Write) : Prop where
  first : h' c = madeCustomer h c p queue
  second : h' d = madeCustomer h d q queue
  servedFirst : ∀ b, gets h c p queue b = true →
    h' b = servedCook c (cookOrderFor h c p queue b) (h b)
  servedSecond : ∀ b, gets h d q queue b = true →
    h' b = servedCook d (cookOrderFor h d q queue b) (h b)
  others : ∀ b, b ≠ c → b ≠ d → gets h c p queue b = false →
    gets h d q queue b = false → SameButLooked (h b) (h' b)
  toFirst : writesTo writes c =
    if p.codes.length = madeCount h c p queue then []
    else [.custUpdate ⟨customerMsg (madeCustomer h c p queue) (madeCount h c p queue)⟩]
  toSecond : writesTo writes d =
    if q.codes.length = madeCount h d q queue then []
    else [.custUpdate ⟨customerMsg (madeCustomer h d q queue) (madeCount h d q queue)⟩]
  toOthers : ∀ b, b ≠ c → b ≠ d → writesTo writes b =
    if gets h c p queue b then [.cookOrder (cookOrderFor h c p queue b)]
    else if gets h d q queue b then [.cookOrder (cookOrderFor h d q queue b)] else []

include hindep hc hd hcd hcMenu hdMenu hfirst in
theorem settledBoth {h'' : Heap} {writes' : List Write}
    (hsecond : Settled h' h'' queue d q writes') :
    SettledBoth h h'' queue c p d q (writes ++ writes') := by
  have hrecord := record_settled hd hcd hfirst
  have hby := madeBy_settled hindep hc hd hcd hcMenu hdMenu hfirst
  have hmade := made_settled hindep hc hd hcd hcMenu hdMenu hfirst
  have hgets : ∀ b, gets h' d q queue b = gets h d q queue b := fun b => by
    rw [gets, gets, hby]
  have horder : ∀ b, cookOrderFor h' d q queue b = cookOrderFor h d q queue b :=
    fun b => by rw [cookOrderFor, cookOrderFor, hby]
  have hcount : madeCount h' d q queue = madeCount h d q queue := by
    rw [madeCount, madeCount, hmade]
  have hsender : madeCustomer h' d q queue = madeCustomer h d q queue := by
    rw [madeCustomer, madeCustomer, hmade, hrecord]
  have hne : ∀ b, gets h c p queue b = true → b ≠ c ∧ b ≠ d := fun b hb =>
    ⟨fun heq => hc (heq ▸ (mem_of_gets hb).2), fun heq => hd (heq ▸ (mem_of_gets hb).2)⟩
  have hne' : ∀ b, gets h d q queue b = true → b ≠ c ∧ b ≠ d := fun b hb =>
    ⟨fun heq => hc (heq ▸ (mem_of_gets hb).2), fun heq => hd (heq ▸ (mem_of_gets hb).2)⟩
  have hfirstNot : gets h c p queue d = false := by
    by_contra hd'
    exact (hne d (by simpa using hd')).2 rfl
  have hsecondNot : gets h d q queue c = false := by
    by_contra hc'
    exact (hne' c (by simpa using hc')).1 rfl
  refine ⟨?_, ?_, fun b hb => ?_, fun b hb => ?_, fun b hbc hbd hb hb' => ?_, ?_, ?_,
    fun b hbc hbd => ?_⟩
  · -- the second order only passes the first sender by
    have hsame := hsecond.others c hcd (by rw [hgets, hsecondNot])
    have hcustomer : (h' c).state ≠ .cookFree := by
      rw [hfirst.sender]
      simp [madeCustomer, orderedClient]
    rw [hsame.eq_of_not_free hcustomer, hfirst.sender]
  · rw [hsecond.sender, hsender]
  · have hserved := hfirst.served b (hne b hb).1 hb
    have hother : gets h' d q queue b = false := by
      rw [hgets, gets_disjoint hindep hcMenu hdMenu hb]
    have hbusy : (h' b).state ≠ .cookFree := by
      rw [hserved]
      simp [servedCook]
    rw [(hsecond.others b (hne b hb).2 hother).eq_of_not_free hbusy, hserved]
  · have hother : gets h c p queue b = false := by
      by_contra hboth
      rw [gets_disjoint hindep hcMenu hdMenu (by simpa using hboth)] at hb
      exact absurd hb (by simp)
    have hsame := hfirst.others b (hne' b hb).1 hother
    rw [hsecond.served b (hne' b hb).2 (by rw [hgets, hb]), horder, hsame.servedCook]
  · exact (hfirst.others b hbc hb).trans (hsecond.others b hbd (by rw [hgets, hb']))
  · rw [writesTo_append, hfirst.toSender, hsecond.toOthers c hcd, hgets, hsecondNot]
    simp
  · rw [writesTo_append, hfirst.toOthers d hcd.symm, hfirstNot, hsecond.toSender, hcount,
      hsender]
    simp
  · rw [writesTo_append, hfirst.toOthers b hbc, hsecond.toOthers b hbd, hgets, horder]
    cases hb : gets h c p queue b
    · simp
    · simp [gets_disjoint hindep hcMenu hdMenu hb]

end Two

theorem SettledBoth.sameButLooked {h h₁ h₂ : Heap} {queue : List Addr} {c d : Addr}
    {p q : CustOrderPkt} {writes₁ writes₂ : List Write}
    (h₁both : SettledBoth h h₁ queue c p d q writes₁)
    (h₂both : SettledBoth h h₂ queue d q c p writes₂) (x : Addr) :
    SameButLooked (h₁ x) (h₂ x) := by
  by_cases hxc : x = c
  · subst hxc
    exact .inl (by rw [h₁both.first, h₂both.second])
  by_cases hxd : x = d
  · subst hxd
    exact .inl (by rw [h₁both.second, h₂both.first])
  cases hgets : gets h c p queue x
  · cases hgets' : gets h d q queue x
    · exact (h₁both.others x hxc hxd hgets hgets').symm.trans
        (h₂both.others x hxd hxc hgets' hgets)
    · exact .inl (by rw [h₁both.servedSecond x hgets', h₂both.servedFirst x hgets'])
  · exact .inl (by rw [h₁both.servedFirst x hgets, h₂both.servedSecond x hgets])

theorem SettledBoth.writesTo {h h₁ h₂ : Heap} {queue : List Addr} {c d : Addr}
    {p q : CustOrderPkt} {writes₁ writes₂ : List Write}
    (hdisjoint : ∀ b, gets h c p queue b = true → gets h d q queue b = false)
    (h₁both : SettledBoth h h₁ queue c p d q writes₁)
    (h₂both : SettledBoth h h₂ queue d q c p writes₂) (x : Addr) :
    writesTo writes₁ x = writesTo writes₂ x := by
  by_cases hxc : x = c
  · subst hxc
    rw [h₁both.toFirst, h₂both.toSecond]
  by_cases hxd : x = d
  · subst hxd
    rw [h₁both.toSecond, h₂both.toFirst]
  rw [h₁both.toOthers x hxc hxd, h₂both.toOthers x hxd hxc]
  cases hgets : gets h c p queue x
  · simp
  · simp [hdisjoint x hgets]

theorem handleBoth_settled {sv : Server} {c d : Addr} {p q : CustOrderPkt}
    (hqueue : sv.clientTailq.Nodup) (hcd : c ≠ d)
    (hc : (sv.heap c).state = .unknown ∨ (sv.heap c).state = .customer)
    (hd : (sv.heap d).state = .unknown ∨ (sv.heap d).state = .customer)
    (hcMenu : ∀ i, (sv.heap c).menuItems i = .undefined)
    (hdMenu : ∀ i, (sv.heap d).menuItems i = .undefined)
    (hp : p.inRange) (hq : q.inRange) (hindep : Independent sv p q) :
    ∃ heap writes,
      handleBoth sv c p d q = some ({ sv with heap := heap }, writes) ∧
        SettledBoth sv.heap heap sv.clientTailq c p d q writes := by
  have hcFree : (sv.heap c).state ≠ .cookFree := by rcases hc with hc | hc <;> simp [hc]
  have hdFree : (sv.heap d).state ≠ .cookFree := by rcases hd with hd | hd <;> simp [hd]
  obtain ⟨h', writes, hrun, hfirst⟩ := settled_of_order hqueue hc hcMenu hp
  have hrecord : h' d = sv.heap d := record_settled hdFree hcd hfirst
  have hd' : (h' d).state = .unknown ∨ (h' d).state = .customer := by rwa [hrecord]
  have hdMenu' : ∀ i, (h' d).menuItems i = .undefined := by rwa [hrecord]
  obtain ⟨h'', writes', hrun', hsecond⟩ :=
    @settled_of_order { sv with heap := h' } d q hqueue hd' hdMenu' hq
  refine ⟨h'', writes ++ writes', ?_,
    settledBoth hindep hcFree hdFree hcd hcMenu hdMenu hfirst hsecond⟩
  simp only [handleBoth, hrun, hrun', Option.map_some]

/--
The orders of two new customers that no free cook could serve both are accepted
in either order, with the same records and the same packets to every client.
-/
theorem independent_orders_commute {sv : Server} {c d : Addr} {p q : CustOrderPkt}
    (hqueue : sv.clientTailq.Nodup) (hcd : c ≠ d)
    (hc : (sv.heap c).state = .unknown ∨ (sv.heap c).state = .customer)
    (hd : (sv.heap d).state = .unknown ∨ (sv.heap d).state = .customer)
    (hcMenu : ∀ i, (sv.heap c).menuItems i = .undefined)
    (hdMenu : ∀ i, (sv.heap d).menuItems i = .undefined)
    (hp : p.inRange) (hq : q.inRange) (hindep : Independent sv p q) :
    ∃ sv₁ writes₁ sv₂ writes₂,
      handleBoth sv c p d q = some (sv₁, writes₁) ∧
      handleBoth sv d q c p = some (sv₂, writes₂) ∧
      sv₁.clientTailq = sv₂.clientTailq ∧
      (∀ x, SameButLooked (sv₁.heap x) (sv₂.heap x)) ∧
      ∀ a, writesTo writes₁ a = writesTo writes₂ a := by
  obtain ⟨h₁, writes₁, hrun₁, h₁both⟩ :=
    handleBoth_settled hqueue hcd hc hd hcMenu hdMenu hp hq hindep
  obtain ⟨h₂, writes₂, hrun₂, h₂both⟩ :=
    handleBoth_settled hqueue hcd.symm hd hc hdMenu hcMenu hq hp hindep.symm
  exact ⟨_, writes₁, _, writes₂, hrun₁, hrun₂, rfl, h₁both.sameButLooked h₂both,
    h₁both.writesTo (fun b hb => gets_disjoint hindep hcMenu hdMenu hb) h₂both⟩

def twoKitchens : Server where
  heap := fun a =>
    { Client.zeroed with
      state := if a = 1 ∨ a = 2 then .cookFree else .unknown
      menuItems := fun i =>
        if a = 1 ∧ i.val = 1 ∨ a = 2 ∧ (i.val = 2 ∨ i.val = 3) then .capable
        else .undefined }
  clientTailq := [1, 4, 2, 5]

set_option maxRecDepth 4000 in
/-- Customer 4 is served by the first cook, customer 5 by the second. -/
theorem independent_orders_commute_twoKitchens :
    ∃ sv₁ writes₁ sv₂ writes₂,
      handleBoth twoKitchens 4 (.ofCodes [1]) 5 (.ofCodes [3, 2]) = some (sv₁, writes₁) ∧
      handleBoth twoKitchens 5 (.ofCodes [3, 2]) 4 (.ofCodes [1]) = some (sv₂, writes₂) ∧
      sv₁.clientTailq = sv₂.clientTailq ∧
      (∀ x, SameButLooked (sv₁.heap x) (sv₂.heap x)) ∧
      ∀ a, writesTo writes₁ a = writesTo writes₂ a :=
  independent_orders_commute (by decide) (by decide) (.inl (by decide)) (.inl (by decide))
    (by decide) (by decide) (by decide) (by decide) (by unfold Independent; decide)

end SysprogTeam3.FoodSys
