import SysprogTeam3.FoodSys.Handlers

/-!
# What one handler call does

One specification for each handler.  The assignment loop of
`cust_order_handler` is summed up by `Granted`, which says which cooks were
given which items and that nothing else in the heap has moved; the callers use
it and never unfold the loop.
-/

namespace SysprogTeam3.FoodSys

/-! ## Decoding an order -/

theorem recordOrders_eq (codes : List UInt8) (c : Client)
    (hrange : ∀ code ∈ codes.takeWhile (· != 0), code.toNat < 32) :
    recordOrders codes c = some
      { c with
        menuItems := fun i =>
          if (codes.takeWhile (· != 0)).any (fun code => code.toNat == i.val)
          then .new else c.menuItems i
        numOfOrders := c.numOfOrders + (codes.takeWhile (· != 0)).length } := by
  induction codes generalizing c with
  | nil => simp [recordOrders]
  | cons code codes ih =>
      by_cases hzero : code = 0
      · simp [recordOrders, hzero]
      · have htake : (code :: codes).takeWhile (· != 0) =
            code :: codes.takeWhile (· != 0) := by
          simp [hzero]
        rw [htake] at hrange ⊢
        have hlt : code.toNat < 32 := hrange code (by simp)
        rw [recordOrders, if_neg hzero, dif_pos hlt,
          ih _ (fun d hd => hrange d (by simp [hd]))]
        congr 2
        · funext i
          by_cases hi : i = ⟨code.toNat, hlt⟩
          · simp [hi]
          · have hne : code.toNat ≠ i.val := fun h => hi (Fin.ext h.symm)
            simp [hi, hne]
        · simp only [List.length_cons]
          omega

def orderedClient (c : Client) (p : CustOrderPkt) : Client :=
  { c with
    state := .customer
    menuItems := fun i => if p.names i then .new else c.menuItems i
    numOfOrders := p.codes.length }

theorem acceptOrder_eq {c : Client} {p : CustOrderPkt} (hrange : p.inRange)
    (hstate : c.state = .unknown ∨ c.state = .customer) :
    acceptOrder c p = some (some (orderedClient c p)) := by
  have hrecord := fun c' => recordOrders_eq p.entries c' hrange
  obtain hstate | hstate := hstate <;>
    simp [acceptOrder, hstate, hrecord, orderedClient, CustOrderPkt.names,
      CustOrderPkt.codes]

theorem acceptOrder_refused {c : Client} (p : CustOrderPkt)
    (hstate : c.state = .cookFree ∨ c.state = .cookBusy) :
    acceptOrder c p = some none := by
  rcases hstate with hstate | hstate <;> simp [acceptOrder, hstate]

theorem UserState.cook_or (state : UserState) :
    (state = .unknown ∨ state = .customer) ∨ (state = .cookFree ∨ state = .cookBusy) := by
  cases state <;> simp

/-! ## The assignment loop -/

abbrev Grant := Addr × CookOrderPkt

def Grant.write (g : Grant) : Write := (g.1, .cookOrder g.2)

def servedCook (client : Addr) (p : CookOrderPkt) (c : Client) : Client :=
  { c with
    state := .cookBusy
    assignedClient := some client
    menuItems := fun i => if p.gives i then .assigned else c.menuItems i }

def given : List Grant → Item → Bool
  | [], _ => false
  | g :: grants, i => g.2.gives i || given grants i

@[simp] theorem given_nil (i : Item) : given [] i = false := rfl

@[simp] theorem given_cons (g : Grant) (grants : List Grant) (i : Item) :
    given (g :: grants) i = (g.2.gives i || given grants i) := rfl

theorem given_eq_true {grants : List Grant} {i : Item} :
    given grants i = true ↔ ∃ g ∈ grants, g.2.gives i = true := by
  induction grants with
  | nil => simp
  | cons g grants ih => simp [ih]

def grantedCustomer (grants : List Grant) (c : Client) : Client :=
  { c with
    menuItems := fun i => if given grants i then .assigned else c.menuItems i }

/--
The loop went over `queue` for the order of `client`, turned the heap `h` into
`h'` and made exactly these grants.
-/
structure Granted (client : Addr) (queue : List Addr) (h h' : Heap)
    (grants : List Grant) : Prop where
  nodup : (grants.map Prod.fst).Nodup
  free : ∀ g ∈ grants, g.1 ∈ queue ∧ (h g.1).state = .cookFree
  served : ∀ g ∈ grants, h' g.1 = servedCook client g.2 (h g.1)
  gives : ∀ g ∈ grants, ∃ i, g.2.gives i = true
  taken : ∀ g ∈ grants, ∀ i, g.2.gives i = true →
    (h client).menuItems i = .new ∧ (h g.1).menuItems i = .capable
  disjoint : grants.Pairwise fun g g' =>
    ∀ i, g.2.gives i = true → g'.2.gives i = false
  customer : h' client = grantedCustomer grants (h client)
  others : ∀ b, b ≠ client → b ∉ grants.map Prod.fst →
    h' b = h b ∨ b ∈ queue ∧ (h b).state = .cookFree ∧
      h' b = { h b with assignedClient := some client }

@[simp] theorem orderPkt_gives (cust cook : Client) (i : Item) :
    (orderPkt cust cook).gives i = taken cust cook i := by
  cases h : taken cust cook i <;>
    simp [CookOrderPkt.gives, orderPkt, h, MenuState.code]

theorem taken_eq_true {cust cook : Client} {i : Item} :
    taken cust cook i = true ↔
      cust.menuItems i = .new ∧ cook.menuItems i = .capable := by
  simp [taken]

theorem countP_taken_eq_zero {cust cook : Client} :
    menuIndices.countP (taken cust cook) = 0 ↔
      ∀ i, taken cust cook i = false := by
  simp [List.countP_eq_zero]

theorem Granted.refl (client : Addr) (queue : List Addr) (h : Heap) :
    Granted client queue h h [] where
  nodup := by simp
  free := by simp
  served := by simp
  gives := by simp
  taken := by simp
  disjoint := by simp
  customer := by simp [grantedCustomer]
  others := fun b _ _ => .inl rfl

theorem Granted.skip {client b : Addr} {queue : List Addr} {h h' : Heap}
    {grants : List Grant} (hg : Granted client queue h h' grants) :
    Granted client (b :: queue) h h' grants where
  nodup := hg.nodup
  free := fun g hmem =>
    ⟨List.mem_cons_of_mem b (hg.free g hmem).1, (hg.free g hmem).2⟩
  served := hg.served
  gives := hg.gives
  taken := hg.taken
  disjoint := hg.disjoint
  customer := hg.customer
  others := fun x hx hfree => by
    obtain hsame | ⟨hmem, hrest⟩ := hg.others x hx hfree
    · exact .inl hsame
    · exact .inr ⟨List.mem_cons_of_mem b hmem, hrest⟩

theorem Granted.not_mem {client b : Addr} {queue : List Addr} {h h' : Heap}
    {grants : List Grant} (hg : Granted client queue h h' grants)
    (hb : b ∉ queue) : b ∉ grants.map Prod.fst := by
  intro hmem
  obtain ⟨g, hg', rfl⟩ := List.mem_map.mp hmem
  exact hb (hg.free g hg').1

theorem Granted.disjoint_of_ne {client : Addr} {queue : List Addr} {h h' : Heap}
    {grants : List Grant} (hg : Granted client queue h h' grants) {b b' : Addr}
    {p p' : CookOrderPkt} (hmem : (b, p) ∈ grants) (hmem' : (b', p') ∈ grants)
    (hne : b ≠ b') : ∀ i, p.gives i = true → p'.gives i = false := by
  have hsymm : Std.Symm fun g g' : Grant =>
      ∀ i, g.2.gives i = true → g'.2.gives i = false := ⟨fun g g' hgg i hi => by
    by_contra hgi
    simp [hgg i (by simpa using hgi)] at hi⟩
  exact hg.disjoint.forall hmem hmem' (fun heq => hne (congrArg Prod.fst heq))

theorem Granted.look {client b : Addr} {queue : List Addr} {h h' : Heap}
    {grants : List Grant} (hne : b ≠ client) (hfree : (h b).state = .cookFree)
    (hb : b ∉ queue)
    (hg : Granted client queue
      (Function.update h b { h b with assignedClient := some client }) h' grants) :
    Granted client (b :: queue) h h' grants := by
  have hother : ∀ x ∈ queue,
      Function.update h b { h b with assignedClient := some client } x = h x := by
    intro x hx
    exact Function.update_of_ne (fun hxb : x = b => hb (hxb ▸ hx)) _ _
  have hclient : Function.update h b
      { h b with assignedClient := some client } client = h client :=
    Function.update_of_ne hne.symm _ _
  refine ⟨hg.nodup, ?_, ?_, hg.gives, ?_, hg.disjoint, ?_, ?_⟩
  · intro g hmem
    obtain ⟨hq, hstate⟩ := hg.free g hmem
    exact ⟨List.mem_cons_of_mem b hq, hother _ hq ▸ hstate⟩
  · intro g hmem
    rw [hg.served g hmem, hother _ (hg.free g hmem).1]
  · intro g hmem i hi
    obtain ⟨hnew, hcap⟩ := hg.taken g hmem i hi
    rw [hclient] at hnew
    rw [hother _ (hg.free g hmem).1] at hcap
    exact ⟨hnew, hcap⟩
  · rw [hg.customer, hclient]
  · intro x hx hnot
    by_cases hxb : x = b
    · subst hxb
      obtain hsame | ⟨hmem, -⟩ := hg.others x hx hnot
      · rw [Function.update_self] at hsame
        exact .inr ⟨by simp, hfree, hsame⟩
      · exact absurd hmem hb
    · obtain hsame | ⟨hmem, hstate, heq⟩ := hg.others x hx hnot
      · exact .inl (by rw [hsame, Function.update_of_ne hxb])
      · rw [Function.update_of_ne hxb] at hstate heq
        exact .inr ⟨List.mem_cons_of_mem b hmem, hstate, heq⟩

def serveHeap (client b : Addr) (p : CookOrderPkt) (h : Heap) : Heap :=
  Function.update
    (Function.update h client (grantedCustomer [(b, p)] (h client)))
    b (servedCook client p (h b))

@[simp] theorem serveHeap_self (client b : Addr) (p : CookOrderPkt) (h : Heap) :
    serveHeap client b p h b = servedCook client p (h b) :=
  Function.update_self _ _ _

theorem serveHeap_client {client b : Addr} (hne : b ≠ client) (p : CookOrderPkt)
    (h : Heap) :
    serveHeap client b p h client = grantedCustomer [(b, p)] (h client) := by
  rw [serveHeap, Function.update_of_ne hne.symm, Function.update_self]

theorem serveHeap_of_ne {client b x : Addr} (hb : x ≠ b) (hc : x ≠ client)
    (p : CookOrderPkt) (h : Heap) : serveHeap client b p h x = h x := by
  rw [serveHeap, Function.update_of_ne hb, Function.update_of_ne hc]

theorem serveHeap_of_free {client b x : Addr} {p : CookOrderPkt} {h : Heap}
    (hcust : (h client).state ≠ .cookFree) (hne : b ≠ client)
    (hx : (serveHeap client b p h x).state = .cookFree) :
    serveHeap client b p h x = h x := by
  have hxb : x ≠ b := by
    rintro rfl
    simp [servedCook] at hx
  have hxc : x ≠ client := by
    rintro rfl
    rw [serveHeap_client hne] at hx
    exact hcust hx
  exact serveHeap_of_ne hxb hxc p h

theorem serveHeap_client_new {client b : Addr} {p : CookOrderPkt} {h : Heap}
    {i : Item} (hne : b ≠ client)
    (hnew : (serveHeap client b p h client).menuItems i = .new) :
    p.gives i = false ∧ (h client).menuItems i = .new := by
  rw [serveHeap_client hne] at hnew
  cases hp : p.gives i
  · exact ⟨rfl, by simpa [grantedCustomer, hp] using hnew⟩
  · simp [grantedCustomer, hp] at hnew

theorem Granted.serve {client b : Addr} {queue : List Addr} {h h' : Heap}
    {p : CookOrderPkt} {grants : List Grant}
    (hcust : (h client).state ≠ .cookFree) (hne : b ≠ client)
    (hfree : (h b).state = .cookFree) (hb : b ∉ queue)
    (hgives : ∃ i, p.gives i = true)
    (htaken : ∀ i, p.gives i = true →
      (h client).menuItems i = .new ∧ (h b).menuItems i = .capable)
    (hg : Granted client queue (serveHeap client b p h) h' grants) :
    Granted client (b :: queue) h h' ((b, p) :: grants) := by
  have hbNot : b ∉ grants.map Prod.fst := hg.not_mem hb
  have hlater : ∀ g ∈ grants, ∀ i, g.2.gives i = true →
      p.gives i = false ∧ (h client).menuItems i = .new := fun g hmem i hi =>
    serveHeap_client_new hne (hg.taken g hmem i hi).1
  have hsame : ∀ g ∈ grants, serveHeap client b p h g.1 = h g.1 :=
    fun g hmem => serveHeap_of_free hcust hne (hg.free g hmem).2
  refine ⟨?_, ?_, ?_, ?_, ?_, ?_, ?_, ?_⟩
  · simpa using ⟨fun p' hp' => hbNot (List.mem_map_of_mem hp'), hg.nodup⟩
  · intro g hmem
    rcases List.mem_cons.mp hmem with rfl | hmem
    · exact ⟨List.mem_cons_self, hfree⟩
    · obtain ⟨hq, hstate⟩ := hg.free g hmem
      rw [hsame g hmem] at hstate
      exact ⟨List.mem_cons_of_mem b hq, hstate⟩
  · intro g hmem
    rcases List.mem_cons.mp hmem with rfl | hmem
    · rcases hg.others b hne hbNot with hkept | ⟨hq, -⟩
      · rw [hkept, serveHeap_self]
      · exact absurd hq hb
    · rw [hg.served g hmem, hsame g hmem]
  · intro g hmem
    rcases List.mem_cons.mp hmem with rfl | hmem
    · exact hgives
    · exact hg.gives g hmem
  · intro g hmem i hi
    rcases List.mem_cons.mp hmem with rfl | hmem
    · exact htaken i hi
    · have hcap := (hg.taken g hmem i hi).2
      rw [hsame g hmem] at hcap
      exact ⟨(hlater g hmem i hi).2, hcap⟩
  · refine List.pairwise_cons.mpr ⟨fun g hmem i hi => ?_, hg.disjoint⟩
    by_contra hgi
    rw [Bool.not_eq_false] at hgi
    rw [(hlater g hmem i hgi).1] at hi
    cases hi
  · rw [hg.customer, serveHeap_client hne]
    simp only [grantedCustomer]
    congr 1
    funext i
    cases hp : p.gives i <;> simp [hp]
  · intro x hxc hnot
    rw [List.map_cons, List.mem_cons, not_or] at hnot
    obtain ⟨hxb, hx⟩ := hnot
    have hx' := serveHeap_of_ne hxb hxc p h
    rcases hg.others x hxc hx with hkept | ⟨hq, hstate, heq⟩
    · exact .inl (hkept.trans hx')
    · rw [hx'] at hstate heq
      exact .inr ⟨List.mem_cons_of_mem b hq, hstate, heq⟩

theorem assignCook_idle {client b : Addr} {st : LoopState}
    (hnone : ∀ i, taken (st.heap client) (st.heap b) i = false) :
    assignCook client b st =
      { st with
        heap := Function.update st.heap b
          { st.heap b with assignedClient := some client } } := by
  have hcount : menuIndices.countP
      (taken (st.heap client) { st.heap b with assignedClient := some client }) =
      0 := countP_taken_eq_zero.mpr hnone
  have hnone' : ∀ i, taken (st.heap client)
      { st.heap b with assignedClient := some client } i = false := hnone
  simp [assignCook, hcount, hnone']

theorem countP_taken_ne_zero {cust cook : Client}
    (hsome : ∃ i, taken cust cook i = true) :
    menuIndices.countP (taken cust cook) ≠ 0 := by
  intro hzero
  obtain ⟨i, hi⟩ := hsome
  rw [countP_taken_eq_zero.mp hzero i] at hi
  cases hi

theorem assignCook_serve {client b : Addr} {st : LoopState}
    (hsome : ∃ i, taken (st.heap client) (st.heap b) i = true) :
    assignCook client b st =
      { heap := serveHeap client b (orderPkt (st.heap client) (st.heap b)) st.heap
        ordersAssigned := st.ordersAssigned +
          menuIndices.countP (taken (st.heap client) (st.heap b))
        writes := st.writes ++
          [Grant.write (b, orderPkt (st.heap client) (st.heap b))] } := by
  have hcount := countP_taken_ne_zero hsome
  have htaken : taken (st.heap client)
      { st.heap b with assignedClient := some client } =
      taken (st.heap client) (st.heap b) := rfl
  have horder : orderPkt (st.heap client)
      { st.heap b with assignedClient := some client } =
      orderPkt (st.heap client) (st.heap b) := rfl
  simp [assignCook, htaken, horder, hcount, grantedCustomer, servedCook,
    Grant.write, serveHeap]

/--
The loop over `queue` went from `st` to `st'` and made these grants.  It
assigned nothing exactly when it made none.
-/
structure Looped (client : Addr) (queue : List Addr) (st st' : LoopState)
    (grants : List Grant) : Prop where
  granted : Granted client queue st.heap st'.heap grants
  writes : st'.writes = st.writes ++ grants.map Grant.write
  le : st.ordersAssigned ≤ st'.ordersAssigned
  none_iff : st'.ordersAssigned = st.ordersAssigned ↔ grants = []

theorem Looped.refl (client : Addr) (queue : List Addr) (st : LoopState) :
    Looped client queue st st [] where
  granted := .refl _ _ _
  writes := (List.append_nil _).symm
  le := le_rfl
  none_iff := by simp

theorem Looped.skip {client b : Addr} {queue : List Addr} {st st' : LoopState}
    {grants : List Grant} (h : Looped client queue st st' grants) :
    Looped client (b :: queue) st st' grants :=
  ⟨h.granted.skip, h.writes, h.le, h.none_iff⟩

theorem Looped.look {client b : Addr} {queue : List Addr} {st st' : LoopState}
    {grants : List Grant} (hne : b ≠ client)
    (hfree : (st.heap b).state = .cookFree) (hb : b ∉ queue)
    (hnone : ∀ i, taken (st.heap client) (st.heap b) i = false)
    (h : Looped client queue (assignCook client b st) st' grants) :
    Looped client (b :: queue) st st' grants := by
  rw [assignCook_idle hnone] at h
  exact ⟨h.granted.look hne hfree hb, h.writes, h.le, h.none_iff⟩

theorem Looped.serve {client b : Addr} {queue : List Addr} {st st' : LoopState}
    {grants : List Grant} (hcust : (st.heap client).state ≠ .cookFree)
    (hne : b ≠ client) (hfree : (st.heap b).state = .cookFree) (hb : b ∉ queue)
    (hsome : ∃ i, taken (st.heap client) (st.heap b) i = true)
    (h : Looped client queue (assignCook client b st) st' grants) :
    Looped client (b :: queue) st st'
      ((b, orderPkt (st.heap client) (st.heap b)) :: grants) := by
  have hcount := countP_taken_ne_zero hsome
  have hgranted := h.granted
  have hwrites := h.writes
  have hle := h.le
  rw [assignCook_serve hsome] at hgranted hwrites hle
  refine ⟨?_, ?_, ?_, ?_⟩
  · exact .serve hcust hne hfree hb (by simpa using hsome)
      (fun i hi => taken_eq_true.mp (by simpa using hi)) hgranted
  · simp [hwrites]
  · exact (Nat.le_add_right _ _).trans hle
  · have hlt : st.ordersAssigned < st'.ordersAssigned := by
      simp only at hle
      omega
    simp [Nat.ne_of_gt hlt]

theorem assignCook_client_state {client b : Addr} {st : LoopState}
    (hne : b ≠ client) :
    ((assignCook client b st).heap client).state = (st.heap client).state := by
  simp only [assignCook]
  split <;> simp [hne.symm]

/-- The assignment loop, for a sender that is not itself a free cook. -/
theorem assignLoop_looped (client : Addr) (queue : List Addr) (st : LoopState)
    (hqueue : queue.Nodup) (hcust : (st.heap client).state ≠ .cookFree) :
    ∃ grants, Looped client queue st (assignLoop client queue st) grants := by
  induction queue generalizing st with
  | nil => exact ⟨[], .refl _ _ _⟩
  | cons b queue ih =>
      obtain ⟨hb, hqueue⟩ := List.nodup_cons.mp hqueue
      rw [assignLoop]
      by_cases hfree : (st.heap b).state = .cookFree
      · have hne : b ≠ client := by
          rintro rfl
          exact hcust hfree
        rw [if_pos hfree]
        extract_lets st'
        have hcust' : (st'.heap client).state ≠ .cookFree := by
          rw [assignCook_client_state hne]
          exact hcust
        obtain ⟨grants, hrest⟩ := ih st' hqueue hcust'
        by_cases hsome : ∃ i, taken (st.heap client) (st.heap b) i = true
        · split
          · exact ⟨_, .serve hcust hne hfree hb hsome (.refl _ _ _)⟩
          · exact ⟨_, .serve hcust hne hfree hb hsome hrest⟩
        · have hnone : ∀ i, taken (st.heap client) (st.heap b) i = false := by
            simpa using hsome
          have hsame : st'.ordersAssigned = st.ordersAssigned := by
            rw [show st' = _ from assignCook_idle hnone]
          rw [if_neg fun hbreak => hbreak.1 hsame]
          exact ⟨grants, .look hne hfree hb hnone hrest⟩
      · rw [if_neg hfree]
        obtain ⟨grants, hrest⟩ := ih st hqueue hcust
        exact ⟨grants, hrest.skip⟩

/-! ## `cust_order_handler` -/

theorem customerMsg_zero (c : Client) : customerMsg c 0 = orderUnservMessage := by
  rw [customerMsg, if_pos rfl]
  decide

theorem customerMsg_ne_complete (c : Client) (ordersAssigned : Nat) :
    customerMsg c ordersAssigned ≠ orderCompleteMessage := by
  unfold customerMsg
  split
  · decide
  · intro h
    have hhead := congrArg (List.take 1) h
    rw [snprintf, List.take_take, List.append_assoc,
      List.take_append_of_le_length (by decide)] at hhead
    exact absurd hhead (by decide)

theorem custOrderHandler_eq {sv : Server} {client : Addr} {p : CustOrderPkt}
    (hrange : p.inRange) (hqueue : sv.clientTailq.Nodup)
    (hstate : (sv.heap client).state = .unknown ∨
      (sv.heap client).state = .customer) :
    ∃ heap grants ordersAssigned,
      custOrderHandler sv client p = some ({ sv with heap := heap },
        grants.map Grant.write ++ notifyCustomer heap client ordersAssigned) ∧
      Granted client sv.clientTailq
        (Function.update sv.heap client (orderedClient (sv.heap client) p))
        heap grants ∧
      (ordersAssigned = 0 ↔ grants = []) ∧
      (heap client).numOfOrders = p.codes.length := by
  obtain ⟨grants, hloop⟩ :=
    assignLoop_looped client sv.clientTailq
      { heap := Function.update sv.heap client (orderedClient (sv.heap client) p)
        ordersAssigned := 0
        writes := [] }
      hqueue (by simp [orderedClient])
  have hgranted := hloop.granted
  refine ⟨_, grants, _, ?_, hgranted, hloop.none_iff, ?_⟩
  · simp only [custOrderHandler, acceptOrder_eq hrange hstate, assignOrders,
      Server.modify]
    rw [hloop.writes]
    simp
  · rw [hgranted.customer]
    simp [grantedCustomer, orderedClient]

/-! ## What the loop keeps -/

theorem assignLoop_invariant {client : Addr} {P : LoopState → Prop}
    (hcook : ∀ clientItem st, P st → P (assignCook client clientItem st))
    (queue : List Addr) {st : LoopState} (hst : P st) : P (assignLoop client queue st) := by
  induction queue generalizing st with
  | nil => exact hst
  | cons clientItem queue ih =>
      rw [assignLoop]
      extract_lets st'
      have hst' : P st' := hcook clientItem st hst
      split
      · split
        · exact hst'
        · exact ih hst'
      · exact ih hst

/-! ## Whom a cook is assigned to -/

theorem recordOrders_assignedClient {codes : List UInt8} {c c' : Client}
    (h : recordOrders codes c = some c') :
    c'.assignedClient = c.assignedClient := by
  induction codes generalizing c with
  | nil =>
      rw [recordOrders, Option.some.injEq] at h
      rw [h]
  | cons code codes ih =>
      rw [recordOrders] at h
      split at h
      · rw [Option.some.injEq] at h
        rw [h]
      · split at h
        · exact (ih h).trans rfl
        · cases h

theorem acceptOrder_assignedClient {c c' : Client} {p : CustOrderPkt}
    (h : acceptOrder c p = some (some c')) :
    c'.assignedClient = c.assignedClient := by
  have hstate : ∀ s : UserState, (if s = .unknown then { c with state := .customer }
      else c).assignedClient = c.assignedClient := by
    intro s
    split <;> rfl
  unfold acceptOrder at h
  extract_lets d at h
  split at h
  · cases h
  · rw [Option.map_eq_some_iff] at h
    obtain ⟨d', hd', heq⟩ := h
    rw [Option.some.injEq] at heq
    rw [← heq, recordOrders_assignedClient hd']
    exact hstate c.state

theorem assignCook_assignedClient (client clientItem : Addr) (st : LoopState)
    (b : Addr) :
    ((assignCook client clientItem st).heap b).assignedClient =
        (st.heap b).assignedClient ∨
      ((assignCook client clientItem st).heap b).assignedClient = some client := by
  by_cases hb : b = clientItem
  · subst hb
    right
    simp only [assignCook]
    split <;> simp
  · left
    by_cases hc : b = client
    · subst hc
      simp only [assignCook]
      split <;> simp [hb]
    · simp only [assignCook]
      split <;> simp [hb, hc]

theorem assignLoop_assignedClient (client : Addr) (queue : List Addr)
    (st : LoopState) (b : Addr) :
    ((assignLoop client queue st).heap b).assignedClient =
        (st.heap b).assignedClient ∨
      ((assignLoop client queue st).heap b).assignedClient = some client := by
  refine assignLoop_invariant (P := fun st' => (st'.heap b).assignedClient =
    (st.heap b).assignedClient ∨ (st'.heap b).assignedClient = some client)
    (fun clientItem st' hold => ?_) queue (.inl rfl)
  rcases assignCook_assignedClient client clientItem st' b with hsame | hclient
  · rw [hsame]
    exact hold
  · exact .inr hclient

theorem custOrderHandler_assignedClient {sv sv' : Server} {client : Addr}
    {p : CustOrderPkt} {writes : List Write}
    (h : custOrderHandler sv client p = some (sv', writes)) :
    sv'.clientTailq = sv.clientTailq ∧ ∀ b,
      (sv'.heap b).assignedClient = (sv.heap b).assignedClient ∨
        (sv'.heap b).assignedClient = some client := by
  unfold custOrderHandler at h
  split at h
  · cases h
  · cases h
    exact ⟨rfl, fun b => .inl rfl⟩
  · rename_i c hc
    simp only [Option.some.injEq, Prod.mk.injEq] at h
    obtain ⟨rfl, -⟩ := h
    refine ⟨rfl, fun b => ?_⟩
    have hloop := assignLoop_assignedClient client
      (sv.modify client fun _ => c).clientTailq
      { heap := (sv.modify client fun _ => c).heap
        ordersAssigned := 0
        writes := [] } b
    have hrecord : ((sv.modify client fun _ => c).heap b).assignedClient =
        (sv.heap b).assignedClient := by
      by_cases hb : b = client
      · subst hb
        rw [Server.modify_heap_self, acceptOrder_assignedClient hc]
      · rw [Server.modify_heap_of_ne hb]
    rw [hrecord] at hloop
    exact hloop

/-! ## `cook_update_handler` -/

theorem assignedFound_eq_true {c : Client} :
    assignedFound c = true ↔ ∃ i, c.menuItems i = .assigned := by
  simp [assignedFound]

def completionWrites (cust : Addr) (c : Client) : List Write :=
  if assignedFound c then [] else [(cust, .custUpdate ⟨orderCompleteMessage⟩)]

theorem cookUpdateHandler_hit {sv : Server} {client cust : Addr}
    (hassigned : (sv.heap client).assignedClient = some cust)
    (hqueue : cust ∈ sv.clientTailq) (hne : client ≠ cust) :
    cookUpdateHandler sv client =
      ({ sv with
          heap := Function.update
            (Function.update sv.heap cust
              (completeItems (sv.heap client).menuItems (sv.heap cust)))
            client { sv.heap client with state := .cookFree } },
        completionWrites cust
          (completeItems (sv.heap client).menuItems (sv.heap cust))) := by
  simp [cookUpdateHandler, customerExists, finishUpdate, hassigned, hqueue,
    Server.modify, hne, completionWrites]

theorem cookUpdateHandler_miss {sv : Server} {client : Addr}
    (hmiss : ∀ cust, (sv.heap client).assignedClient = some cust →
      cust ∉ sv.clientTailq) :
    cookUpdateHandler sv client = (sv, []) := by
  cases hassigned : (sv.heap client).assignedClient with
  | none => simp [cookUpdateHandler, customerExists, hassigned]
  | some cust =>
      simp [cookUpdateHandler, customerExists, hassigned, hmiss cust hassigned]

theorem customerExists_eq_true {sv : Server} {client : Addr} :
    customerExists sv client = true ↔
      ∃ cust, (sv.heap client).assignedClient = some cust ∧
        cust ∈ sv.clientTailq := by
  cases h : (sv.heap client).assignedClient <;> simp [customerExists, h]

theorem finishUpdate_assignedClient (sv : Server) (client b : Addr) :
    (finishUpdate sv client).1.clientTailq = sv.clientTailq ∧
      ((finishUpdate sv client).1.heap b).assignedClient =
        (sv.heap b).assignedClient := by
  unfold finishUpdate
  cases hassigned : (sv.heap client).assignedClient with
  | none => exact ⟨rfl, rfl⟩
  | some cust =>
      refine ⟨rfl, ?_⟩
      by_cases hclient : b = client <;> by_cases hcust : b = cust <;>
        simp_all [Server.modify, completeItems, Function.update_apply]

/-! ## Dispatch -/

theorem dispatch_clientTailq {sv : Server} {client : Addr} {pkt : Pkt}
    {result : Server × List Write} (h : handlerFuncDispatch sv client pkt = some result) :
    result.1.clientTailq = sv.clientTailq := by
  cases pkt with
  | custOrder p => exact (custOrderHandler_assignedClient h).1
  | cookUpdate p =>
      simp only [handlerFuncDispatch, Option.some.injEq] at h
      rw [← h, cookUpdateHandler]
      split
      · exact (finishUpdate_assignedClient sv client client).1
      · rfl
  | regCook | regCustomer | other =>
      simp only [handlerFuncDispatch, Option.some.injEq] at h
      subst h
      rfl

end SysprogTeam3.FoodSys
