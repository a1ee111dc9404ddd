import SysprogTeam3.FoodSys.HandlerSpecs

/-!
# First fit

The assignment loop goes cook by cook, changes the order while it scans and
leaves when two counters agree.  This file gives its result item by item: what
is offered goes to the first free cook in the queue that can make it, among the
cooks that the loop gets to.
-/

namespace SysprogTeam3.FoodSys

attribute [ext] LoopState

def canMake (h : Heap) (i : Item) (b : Addr) : Bool :=
  (h b).state == .cookFree && (h b).menuItems i == .capable

def maker (h : Heap) (cooks : List Addr) (i : Item) : Option Addr :=
  cooks.find? (canMake h i)

theorem canMake_eq_true {h : Heap} {i : Item} {b : Addr} :
    canMake h i b = true ↔
      (h b).state = .cookFree ∧ (h b).menuItems i = .capable := by
  simp [canMake]

theorem maker_append (h : Heap) (first second : List Addr) (i : Item) :
    maker h (first ++ second) i = (maker h first i).or (maker h second i) :=
  List.find?_append

theorem maker_singleton (h : Heap) (b : Addr) (i : Item) :
    maker h [b] i = if canMake h i b then some b else none := by
  cases hb : canMake h i b <;> simp [maker, hb]

theorem mem_of_maker {h : Heap} {cooks : List Addr} {i : Item} {b : Addr}
    (hb : maker h cooks i = some b) : b ∈ cooks ∧ canMake h i b = true :=
  ⟨List.mem_of_find?_eq_some hb, List.find?_some hb⟩

theorem maker_isSome {h : Heap} {cooks : List Addr} {i : Item} :
    (maker h cooks i).isSome = true ↔ ∃ b ∈ cooks, canMake h i b = true :=
  List.find?_isSome

theorem maker_of_prefix {h : Heap} {first cooks : List Addr} {i : Item} {b : Addr}
    (hstart : first <+: cooks) (hb : maker h first i = some b) :
    maker h cooks i = some b := by
  obtain ⟨rest, rfl⟩ := hstart
  rw [maker_append, hb]
  rfl

theorem maker_append_of_ne {h : Heap} {done : List Addr} {b x : Addr} {i : Item}
    (hxb : x ≠ b) : maker h (done ++ [b]) i = some x ↔ maker h done i = some x := by
  rw [maker_append, maker_singleton]
  cases maker h done i with
  | some y => simp
  | none =>
      by_cases hb : canMake h i b = true <;> simp [hb, hxb.symm]

theorem maker_append_self {h : Heap} {done : List Addr} {b : Addr} {i : Item}
    (hb : b ∉ done) : maker h (done ++ [b]) i = some b ↔
      maker h done i = none ∧ canMake h i b = true := by
  rw [maker_append, maker_singleton]
  cases hdone : maker h done i with
  | some y =>
      have hyb : y ≠ b := fun heq => hb (heq ▸ (mem_of_maker hdone).1)
      simp [hyb]
  | none => by_cases hmake : canMake h i b = true <;> simp [hmake]

/-! ## The items of an order -/

section Order

variable (h : Heap) (client : Addr) (p : CustOrderPkt)

/-- The items that are `NEW` in the sender's record when the loop starts. -/
def offered (i : Item) : Bool := p.names i || (h client).menuItems i == .new

def made (cooks : List Addr) (i : Item) : Bool :=
  offered h client p i && (maker h cooks i).isSome

def madeBy (cooks : List Addr) (b : Addr) (i : Item) : Bool :=
  offered h client p i && maker h cooks i == some b

def madeCount (cooks : List Addr) : Nat :=
  menuIndices.countP (made h client p cooks)

def gets (cooks : List Addr) (b : Addr) : Bool :=
  menuIndices.any (madeBy h client p cooks b)

def cookOrderFor (cooks : List Addr) (b : Addr) : CookOrderPkt :=
  ⟨fun i => if madeBy h client p cooks b i then MenuState.assigned.code else 0⟩

/-- The sender's record when its items were given to these cooks. -/
def madeCustomer (cooks : List Addr) : Client :=
  { orderedClient (h client) p with
    menuItems := fun i =>
      if made h client p cooks i then .assigned
      else (orderedClient (h client) p).menuItems i }

def madeCook (cooks : List Addr) (b : Addr) : Client :=
  if gets h client p cooks b then
    servedCook client (cookOrderFor h client p cooks b) (h b)
  else { h b with assignedClient := some client }

def passed (cooks : List Addr) : LoopState where
  heap := fun x =>
    if x = client then madeCustomer h client p cooks
    else if x ∈ cooks ∧ (h x).state = .cookFree then madeCook h client p cooks x
    else h x
  ordersAssigned := madeCount h client p cooks
  writes := (cooks.filter (gets h client p cooks)).map fun b =>
    (b, .cookOrder (cookOrderFor h client p cooks b))

/-- The cooks that the loop gets to: it leaves at a cook that was given something
when the items given away are as many as the codes. -/
def searchedFrom (done : List Addr) : List Addr → List Addr
  | [] => done
  | b :: rest =>
      if madeCount h client p (done ++ [b]) ≠ madeCount h client p done ∧
          p.codes.length = madeCount h client p (done ++ [b]) then done ++ [b]
      else searchedFrom (done ++ [b]) rest

def searched (queue : List Addr) : List Addr := searchedFrom h client p [] queue

end Order

variable {h : Heap} {client : Addr} {p : CustOrderPkt}

theorem offered_eq_true {i : Item} : offered h client p i = true ↔
    p.names i = true ∨ (h client).menuItems i = .new := by
  simp [offered]

theorem made_eq_true {cooks : List Addr} {i : Item} :
    made h client p cooks i = true ↔
      offered h client p i = true ∧ ∃ b ∈ cooks, canMake h i b = true := by
  rw [made, Bool.and_eq_true, maker_isSome]

theorem madeBy_eq_true {cooks : List Addr} {b : Addr} {i : Item} :
    madeBy h client p cooks b i = true ↔
      offered h client p i = true ∧ maker h cooks i = some b := by
  simp [madeBy]

theorem made_of_madeBy {cooks : List Addr} {b : Addr} {i : Item}
    (hb : madeBy h client p cooks b i = true) : made h client p cooks i = true := by
  obtain ⟨hoffered, hmaker⟩ := madeBy_eq_true.mp hb
  exact made_eq_true.mpr ⟨hoffered, b, mem_of_maker hmaker⟩

theorem gets_eq_true {cooks : List Addr} {b : Addr} :
    gets h client p cooks b = true ↔ ∃ i, madeBy h client p cooks b i = true := by
  simp [gets]

@[simp] theorem cookOrderFor_gives (cooks : List Addr) (b : Addr) (i : Item) :
    (cookOrderFor h client p cooks b).gives i = madeBy h client p cooks b i := by
  cases hb : madeBy h client p cooks b i <;>
    simp [CookOrderPkt.gives, cookOrderFor, hb, MenuState.code]

theorem orderedClient_new {i : Item} :
    (orderedClient (h client) p).menuItems i = .new ↔ offered h client p i = true := by
  rw [offered_eq_true]
  by_cases hn : p.names i = true <;> simp [orderedClient, hn]

theorem madeCustomer_new {cooks : List Addr} {i : Item} :
    (madeCustomer h client p cooks).menuItems i = .new ↔
      offered h client p i = true ∧ maker h cooks i = none := by
  have hnew : (madeCustomer h client p cooks).menuItems i = .new ↔
      made h client p cooks i = false ∧ offered h client p i = true := by
    rw [← orderedClient_new]
    cases hm : made h client p cooks i <;> simp [madeCustomer, hm]
  rw [hnew, made]
  cases offered h client p i <;> cases maker h cooks i <;> simp

theorem countP_eq_zero_of {q : Item → Bool} (hnone : ∀ i, q i = false) :
    menuIndices.countP q = 0 := by
  simp [List.countP_eq_zero, hnone]

/-! ## One cook -/

theorem madeBy_append_of_ne {done : List Addr} {b x : Addr} (hxb : x ≠ b) :
    madeBy h client p (done ++ [b]) x = madeBy h client p done x := by
  funext i
  rw [Bool.eq_iff_iff, madeBy_eq_true, madeBy_eq_true, maker_append_of_ne hxb]

theorem gets_append_of_ne {done : List Addr} {b x : Addr} (hxb : x ≠ b) :
    gets h client p (done ++ [b]) x = gets h client p done x := by
  rw [gets, gets, madeBy_append_of_ne hxb]

theorem madeCook_append_of_ne {done : List Addr} {b x : Addr} (hxb : x ≠ b) :
    madeCook h client p (done ++ [b]) x = madeCook h client p done x := by
  rw [madeCook, madeCook, gets_append_of_ne hxb, cookOrderFor, cookOrderFor,
    madeBy_append_of_ne hxb]

theorem made_append {done : List Addr} {b : Addr} {i : Item} (hb : b ∉ done) :
    made h client p (done ++ [b]) i =
      (made h client p done i || madeBy h client p (done ++ [b]) b i) := by
  rw [Bool.eq_iff_iff, Bool.or_eq_true, madeBy_eq_true, maker_append_self hb, made,
    made, maker_append, maker_singleton]
  cases maker h done i <;> by_cases hmake : canMake h i b = true <;> simp [hmake]

theorem countP_or {α : Type} {xs : List α} {q r : α → Bool}
    (hdisjoint : ∀ x, q x = true → r x = false) :
    xs.countP (fun x => q x || r x) = xs.countP q + xs.countP r := by
  induction xs with
  | nil => rfl
  | cons x xs ih =>
      rw [List.countP_cons, List.countP_cons, List.countP_cons, ih]
      cases hq : q x
      · simp [Nat.add_assoc]
      · simp only [Bool.true_or, hdisjoint x hq, if_true, Bool.false_eq_true, if_false]
        omega

variable (h client p) in
theorem madeCount_append {done : List Addr} {b : Addr} (hb : b ∉ done) :
    madeCount h client p (done ++ [b]) = madeCount h client p done +
      menuIndices.countP (madeBy h client p (done ++ [b]) b) := by
  have hmade : made h client p (done ++ [b]) = fun i =>
      made h client p done i || madeBy h client p (done ++ [b]) b i :=
    funext fun i => made_append hb
  rw [madeCount, hmade, countP_or, madeCount]
  intro i hi
  by_contra hby
  rw [Bool.not_eq_false, madeBy_eq_true, maker_append_self hb] at hby
  rw [made, hby.2.1] at hi
  simp at hi

theorem passed_nil : passed h client p [] =
    { heap := Function.update h client (orderedClient (h client) p)
      ordersAssigned := 0
      writes := [] } := by
  have hmade : ∀ i, made h client p [] i = false := fun i => by simp [made, maker]
  have hheap : (passed h client p []).heap =
      Function.update h client (orderedClient (h client) p) := by
    funext x
    by_cases hx : x = client
    · subst hx
      simp [passed, madeCustomer, hmade]
    · simp [passed, hx]
  have hcount : madeCount h client p [] = 0 := countP_eq_zero_of hmade
  rw [← hheap, ← hcount]
  rfl

theorem passed_client (cooks : List Addr) :
    (passed h client p cooks).heap client = madeCustomer h client p cooks :=
  if_pos rfl

theorem passed_of_not_mem {cooks : List Addr} {x : Addr} (hx : x ≠ client)
    (hmem : x ∉ cooks) : (passed h client p cooks).heap x = h x := by
  simp [passed, hx, hmem]

theorem passed_of_mem {cooks : List Addr} {x : Addr} (hx : x ≠ client)
    (hmem : x ∈ cooks) (hfree : (h x).state = .cookFree) :
    (passed h client p cooks).heap x = madeCook h client p cooks x := by
  simp [passed, hx, hmem, hfree]

theorem passed_of_not_free {cooks : List Addr} {x : Addr} (hx : x ≠ client)
    (hfree : (h x).state ≠ .cookFree) : (passed h client p cooks).heap x = h x := by
  simp [passed, hx, hfree]

variable (p) in
theorem taken_passed {done : List Addr} {b : Addr} (hbc : b ≠ client)
    (hb : b ∉ done) (hfree : (h b).state = .cookFree) :
    taken ((passed h client p done).heap client) ((passed h client p done).heap b) =
      madeBy h client p (done ++ [b]) b := by
  funext i
  rw [Bool.eq_iff_iff, taken_eq_true, passed_client, passed_of_not_mem hbc hb,
    madeCustomer_new, madeBy_eq_true, maker_append_self hb, canMake_eq_true]
  simp [hfree, and_assoc]

theorem orderPkt_passed {done : List Addr} {b : Addr} (hbc : b ≠ client)
    (hb : b ∉ done) (hfree : (h b).state = .cookFree) :
    orderPkt ((passed h client p done).heap client)
        ((passed h client p done).heap b) =
      cookOrderFor h client p (done ++ [b]) b := by
  rw [orderPkt, cookOrderFor, taken_passed p hbc hb hfree]

theorem madeCustomer_append {done : List Addr} {b : Addr} (hb : b ∉ done) :
    madeCustomer h client p (done ++ [b]) =
      { madeCustomer h client p done with
        menuItems := fun i =>
          if madeBy h client p (done ++ [b]) b i then .assigned
          else (madeCustomer h client p done).menuItems i } := by
  simp only [madeCustomer]
  congr 1
  funext i
  rw [made_append hb]
  cases made h client p done i <;> cases madeBy h client p (done ++ [b]) b i <;> rfl

theorem filter_gets_append {done : List Addr} {b : Addr} (hb : b ∉ done) :
    (done ++ [b]).filter (gets h client p (done ++ [b])) =
      done.filter (gets h client p done) ++
        if gets h client p (done ++ [b]) b then [b] else [] := by
  have hold : done.filter (gets h client p (done ++ [b])) =
      done.filter (gets h client p done) := by
    refine List.filter_congr fun x hx => ?_
    have hxb : x ≠ b := fun heq => hb (heq ▸ hx)
    rw [gets_append_of_ne hxb]
  rw [List.filter_append, hold]
  cases hgets : gets h client p (done ++ [b]) b <;> simp [hgets]

variable (h client p) in
theorem passed_writes_append {done : List Addr} {b : Addr} (hb : b ∉ done) :
    (passed h client p (done ++ [b])).writes = (passed h client p done).writes ++
      if gets h client p (done ++ [b]) b then
        [(b, .cookOrder (cookOrderFor h client p (done ++ [b]) b))] else [] := by
  have hold : ∀ x ∈ done.filter (gets h client p done),
      cookOrderFor h client p (done ++ [b]) x = cookOrderFor h client p done x := by
    intro x hx
    have hxb : x ≠ b := fun heq => hb (heq ▸ (List.mem_filter.mp hx).1)
    rw [cookOrderFor, cookOrderFor, madeBy_append_of_ne hxb]
  simp only [passed]
  rw [filter_gets_append hb, List.map_append]
  congr 1
  · exact List.map_congr_left fun x hx => by rw [hold x hx]
  · split <;> rfl

theorem passed_append_of_ne {done : List Addr} {b x : Addr} (hxb : x ≠ b)
    (hxc : x ≠ client) :
    (passed h client p (done ++ [b])).heap x = (passed h client p done).heap x := by
  by_cases hfree : (h x).state = .cookFree
  · by_cases hmem : x ∈ done
    · rw [passed_of_mem hxc (List.mem_append_left _ hmem) hfree,
        passed_of_mem hxc hmem hfree, madeCook_append_of_ne hxb]
    · rw [passed_of_not_mem hxc (by simp [hmem, hxb]), passed_of_not_mem hxc hmem]
  · rw [passed_of_not_free hxc hfree, passed_of_not_free hxc hfree]

variable (p) in
theorem passed_heap_append (done : List Addr) {b : Addr} (hbc : b ≠ client)
    (hfree : (h b).state = .cookFree) :
    (passed h client p (done ++ [b])).heap =
      Function.update
        (Function.update (passed h client p done).heap client
          (madeCustomer h client p (done ++ [b])))
        b (madeCook h client p (done ++ [b]) b) := by
  funext x
  by_cases hxb : x = b
  · subst hxb
    rw [Function.update_self, passed_of_mem hbc (by simp) hfree]
  rw [Function.update_of_ne hxb]
  by_cases hxc : x = client
  · subst hxc
    rw [Function.update_self, passed_client]
  rw [Function.update_of_ne hxc, passed_append_of_ne hxb hxc]

theorem assignCook_passed {done : List Addr} {b : Addr} (hbc : b ≠ client)
    (hb : b ∉ done) (hfree : (h b).state = .cookFree) :
    assignCook client b (passed h client p done) = passed h client p (done ++ [b]) := by
  have htaken := taken_passed p hbc hb hfree
  have hold : (passed h client p done).heap b = h b := passed_of_not_mem hbc hb
  have hcount := madeCount_append h client p hb
  have hwrites := passed_writes_append h client p hb
  have hheap := passed_heap_append p done hbc hfree
  rw [madeCustomer_append hb, ← passed_client, madeCook] at hheap
  by_cases hgets : gets h client p (done ++ [b]) b = true
  · rw [assignCook_serve (by rw [htaken]; exact gets_eq_true.mp hgets),
      orderPkt_passed hbc hb hfree, htaken]
    rw [hgets, if_pos rfl] at hheap hwrites
    simp only [serveHeap, grantedCustomer, given_cons, given_nil, Bool.or_false,
      cookOrderFor_gives, hold]
    exact LoopState.ext hheap.symm hcount.symm hwrites.symm
  · have hnone : ∀ i, madeBy h client p (done ++ [b]) b i = false := by
      simpa [gets_eq_true] using hgets
    rw [Bool.not_eq_true] at hgets
    rw [assignCook_idle (by rw [htaken]; exact hnone), hold]
    rw [hgets] at hheap hwrites
    simp only [hnone, Bool.false_eq_true, if_false, List.append_nil,
      Function.update_eq_self] at hheap hwrites
    rw [countP_eq_zero_of hnone, Nat.add_zero] at hcount
    exact LoopState.ext hheap.symm hcount.symm hwrites.symm

variable (h client p) in
theorem passed_append_of_not_free {done : List Addr} {b : Addr} (hb : b ∉ done)
    (hfree : (h b).state ≠ .cookFree) :
    passed h client p (done ++ [b]) = passed h client p done := by
  have hnone : ∀ i, madeBy h client p (done ++ [b]) b i = false := by
    intro i
    by_contra hby
    rw [Bool.not_eq_false, madeBy_eq_true, maker_append_self hb,
      canMake_eq_true] at hby
    exact hfree hby.2.2.1
  have hgets : gets h client p (done ++ [b]) b = false := by simp [gets, hnone]
  have hcount := madeCount_append h client p hb
  have hwrites := passed_writes_append h client p hb
  rw [countP_eq_zero_of hnone, Nat.add_zero] at hcount
  rw [hgets] at hwrites
  simp only [Bool.false_eq_true, if_false, List.append_nil] at hwrites
  refine LoopState.ext (funext fun x => ?_) hcount hwrites
  by_cases hxc : x = client
  · subst hxc
    rw [passed_client, passed_client, madeCustomer_append hb]
    simp [hnone]
  by_cases hxb : x = b
  · subst hxb
    rw [passed_of_not_free hxc hfree, passed_of_not_free hxc hfree]
  · exact passed_append_of_ne hxb hxc

/-! ## The loop -/

theorem passed_not_free {done : List Addr} {b : Addr}
    (hfree : (h b).state ≠ .cookFree) :
    ((passed h client p done).heap b).state ≠ .cookFree := by
  by_cases hbc : b = client
  · subst hbc
    rw [passed_client]
    simp [madeCustomer, orderedClient]
  · rw [passed_of_not_free hbc hfree]
    exact hfree

variable (p) in
theorem assignLoop_passed {done rest : List Addr} (hnodup : (done ++ rest).Nodup)
    (hcust : (h client).state ≠ .cookFree) :
    assignLoop client rest (passed h client p done) =
      passed h client p (searchedFrom h client p done rest) := by
  induction rest generalizing done with
  | nil => rfl
  | cons b rest ih =>
      have hnodup' : ((done ++ [b]) ++ rest).Nodup := by simpa using hnodup
      have hb : b ∉ done := fun hmem =>
        (List.nodup_append.mp hnodup).2.2 b hmem b List.mem_cons_self rfl
      rw [assignLoop, searchedFrom]
      by_cases hfree : (h b).state = .cookFree
      · have hbc : b ≠ client := by
          rintro rfl
          exact hcust hfree
        rw [passed_of_not_mem hbc hb, if_pos hfree, assignCook_passed hbc hb hfree]
        extract_lets st'
        have hleave : (st'.ordersAssigned ≠ (passed h client p done).ordersAssigned ∧
              (st'.heap client).numOfOrders = st'.ordersAssigned) ↔
            (madeCount h client p (done ++ [b]) ≠ madeCount h client p done ∧
              p.codes.length = madeCount h client p (done ++ [b])) := by
          rw [show st' = passed h client p (done ++ [b]) from rfl, passed_client]
          exact Iff.rfl
        by_cases hstop : madeCount h client p (done ++ [b]) ≠ madeCount h client p done ∧
            p.codes.length = madeCount h client p (done ++ [b])
        · rw [if_pos (hleave.mpr hstop), if_pos hstop]
        · rw [if_neg fun hl => hstop (hleave.mp hl), if_neg hstop]
          exact ih hnodup'
      · have hsame := passed_append_of_not_free h client p hb hfree
        have hcount : madeCount h client p (done ++ [b]) = madeCount h client p done :=
          congrArg LoopState.ordersAssigned hsame
        rw [if_neg (passed_not_free hfree), if_neg fun hstop => hstop.1 hcount, ← hsame]
        exact ih hnodup'

/-- The locked part of the handler is first fit over the cooks that it gets to. -/
theorem assignOrders_eq {sv : Server} (hqueue : sv.clientTailq.Nodup)
    (hcust : (sv.heap client).state ≠ .cookFree) :
    assignOrders (sv.modify client fun _ => orderedClient (sv.heap client) p) client =
      passed sv.heap client p (searched sv.heap client p sv.clientTailq) := by
  have hnodup : ([] ++ sv.clientTailq).Nodup := hqueue
  have hloop := assignLoop_passed p hnodup hcust
  rw [passed_nil] at hloop
  exact hloop

theorem custOrderHandler_passed {sv : Server} (hrange : p.inRange)
    (hqueue : sv.clientTailq.Nodup)
    (hstate : (sv.heap client).state = .unknown ∨
      (sv.heap client).state = .customer) :
    custOrderHandler sv client p =
      let st := passed sv.heap client p (searched sv.heap client p sv.clientTailq)
      some ({ sv with heap := st.heap },
        st.writes ++ notifyCustomer st.heap client st.ordersAssigned) := by
  have hcust : (sv.heap client).state ≠ .cookFree := by
    rcases hstate with hstate | hstate <;> simp [hstate]
  simp only [custOrderHandler, acceptOrder_eq hrange hstate, assignOrders_eq hqueue hcust]

end SysprogTeam3.FoodSys
