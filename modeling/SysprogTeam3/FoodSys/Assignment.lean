import Mathlib.Data.List.Nodup
import SysprogTeam3.FoodSys.FirstFit
import SysprogTeam3.FoodSys.System

/-!
# The order of a new customer

For a sender with no marks the loop leaves only when everything is given away,
so that every ordered item goes to the first free cook in the whole queue that
can make it.
-/

namespace SysprogTeam3.FoodSys

def ServerPkt.order? : ServerPkt → Option CookOrderPkt
  | .cookOrder o => some o
  | .custUpdate _ => none

def ordersTo (writes : List Write) (a : Addr) : List CookOrderPkt :=
  (writesTo writes a).filterMap ServerPkt.order?

section Order

variable {h : Heap} {client : Addr} {p : CustOrderPkt}

/-! ## Where the loop leaves -/

variable (h client p) in
theorem searchedFrom_isPrefix (done rest : List Addr) :
    done <+: searchedFrom h client p done rest ∧
      searchedFrom h client p done rest <+: done ++ rest := by
  induction rest generalizing done with
  | nil => simp [searchedFrom]
  | cons b rest ih =>
      obtain ⟨hfirst, hsecond⟩ := ih (done ++ [b])
      have hdone : done <+: done ++ [b] := List.prefix_append done [b]
      rw [searchedFrom]
      split
      · exact ⟨hdone, by simp [List.prefix_append_right_inj]⟩
      · exact ⟨hdone.trans hfirst, by simpa using hsecond⟩

variable (h client p) in
theorem searchedFrom_cases (done rest : List Addr) :
    searchedFrom h client p done rest = done ++ rest ∨
      p.codes.length = madeCount h client p (searchedFrom h client p done rest) := by
  induction rest generalizing done with
  | nil => simp [searchedFrom]
  | cons b rest ih =>
      rw [searchedFrom]
      split
      case isTrue hstop => exact .inr hstop.2
      case isFalse hstop => simpa using ih (done ++ [b])

variable (h client p) in
theorem searched_isPrefix (queue : List Addr) : searched h client p queue <+: queue := by
  simpa [searched] using (searchedFrom_isPrefix h client p [] queue).2

variable (h client p) in
theorem searched_cases (queue : List Addr) :
    searched h client p queue = queue ∨
      p.codes.length = madeCount h client p (searched h client p queue) := by
  simpa [searched] using searchedFrom_cases h client p [] queue

/-! ## Counting items -/

theorem names_eq_true {i : Item} :
    p.names i = true ↔ ∃ code ∈ p.codes, code.toNat = i.val := by
  simp [CustOrderPkt.names]

theorem countP_names_le (p : CustOrderPkt) :
    menuIndices.countP p.names ≤ p.codes.length := by
  have hnodup : ((menuIndices.filter p.names).map Fin.val).Nodup :=
    ((List.nodup_finRange 32).filter _).map Fin.val_injective
  have hsubset : (menuIndices.filter p.names).map Fin.val ⊆ p.codes.map UInt8.toNat := by
    intro n hn
    obtain ⟨i, hi, rfl⟩ := List.mem_map.mp hn
    obtain ⟨code, hcode, hval⟩ := names_eq_true.mp (List.mem_filter.mp hi).2
    exact hval ▸ List.mem_map_of_mem hcode
  have hle := (List.subperm_of_subset hnodup hsubset).length_le
  simpa [List.countP_eq_length_filter] using hle

theorem eq_of_countP_le {q r : Item → Bool} (hsub : ∀ i, q i = true → r i = true)
    (hle : menuIndices.countP r ≤ menuIndices.countP q) : q = r := by
  have hfilter : menuIndices.filter q = menuIndices.filter r := by
    refine (List.monotone_filter_right menuIndices hsub).eq_of_length_le ?_
    simpa [List.countP_eq_length_filter] using hle
  funext i
  rw [Bool.eq_iff_iff]
  have hmem := congrArg (i ∈ ·) hfilter
  simpa using hmem

/-! ## A sender with no marks -/

section Unmarked

variable (hmenu : ∀ i, (h client).menuItems i = .undefined)
include hmenu

theorem offered_unmarked : offered h client p = p.names := by
  funext i
  simp [offered, hmenu i]

theorem maker_searched {queue : List Addr} {i : Item} (hi : p.names i = true) :
    maker h (searched h client p queue) i = maker h queue i := by
  rcases searched_cases h client p queue with hall | hcount
  · rw [hall]
  · have hmade : made h client p (searched h client p queue) = p.names := by
      refine eq_of_countP_le (fun j hj => ?_) ?_
      · rw [← offered_unmarked hmenu]
        exact (made_eq_true.mp hj).1
      · exact (countP_names_le p).trans hcount.le
    have hsome : (maker h (searched h client p queue) i).isSome = true := by
      rw [← hmade, made, Bool.and_eq_true] at hi
      exact hi.2
    obtain ⟨b, hb⟩ := Option.isSome_iff_exists.mp hsome
    rw [hb, maker_of_prefix (searched_isPrefix h client p queue) hb]

theorem madeBy_searched (queue : List Addr) (b : Addr) :
    madeBy h client p (searched h client p queue) b = madeBy h client p queue b := by
  funext i
  rw [Bool.eq_iff_iff, madeBy_eq_true, madeBy_eq_true, offered_unmarked hmenu]
  exact and_congr_right fun hi => by rw [maker_searched hmenu hi]

theorem made_searched (queue : List Addr) :
    made h client p (searched h client p queue) = made h client p queue := by
  funext i
  rw [made, made, offered_unmarked hmenu]
  cases hi : p.names i
  · rfl
  · rw [maker_searched hmenu hi]

theorem madeBy_unmarked {queue : List Addr} {b : Addr} {i : Item} :
    madeBy h client p queue b i = true ↔
      p.names i = true ∧ maker h queue i = some b := by
  rw [madeBy_eq_true, offered_unmarked hmenu]

end Unmarked

/-! ## The orders sent -/

theorem writesTo_orders (f : Addr → CookOrderPkt) {cooks : List Addr}
    (hnodup : cooks.Nodup) (b : Addr) :
    writesTo (cooks.map fun x => (x, .cookOrder (f x))) b =
      if b ∈ cooks then [.cookOrder (f b)] else [] := by
  induction cooks with
  | nil => rfl
  | cons x cooks ih =>
      obtain ⟨hx, hnodup⟩ := List.nodup_cons.mp hnodup
      have hrest := ih hnodup
      simp only [writesTo, List.map_cons, List.filterMap_cons] at hrest ⊢
      by_cases hxb : x = b
      · subst hxb
        simpa [hx] using hrest
      · simpa [hxb, Ne.symm hxb] using hrest

theorem mem_of_gets {cooks : List Addr} {b : Addr}
    (hb : gets h client p cooks b = true) : b ∈ cooks ∧ (h b).state = .cookFree := by
  obtain ⟨i, hi⟩ := gets_eq_true.mp hb
  obtain ⟨hmem, hmake⟩ := mem_of_maker (madeBy_eq_true.mp hi).2
  exact ⟨hmem, (canMake_eq_true.mp hmake).1⟩

theorem writesTo_passed {cooks : List Addr} (hnodup : cooks.Nodup) (b : Addr) :
    writesTo (passed h client p cooks).writes b =
      if gets h client p cooks b then [.cookOrder (cookOrderFor h client p cooks b)]
      else [] := by
  rw [passed, writesTo_orders _ (hnodup.filter _)]
  by_cases hb : gets h client p cooks b = true
  · simp [hb, (mem_of_gets hb).1]
  · simp [hb]

variable (h client p) in
theorem ordersTo_handled {cooks : List Addr} (hnodup : cooks.Nodup) (n : Nat)
    (b : Addr) :
    ordersTo ((passed h client p cooks).writes ++
        notifyCustomer (passed h client p cooks).heap client n) b =
      if gets h client p cooks b then [cookOrderFor h client p cooks b] else [] := by
  rw [ordersTo, writesTo_append, writesTo_passed hnodup, List.filterMap_append]
  have hnotify : (writesTo (notifyCustomer (passed h client p cooks).heap client n)
      b).filterMap ServerPkt.order? = [] := by
    unfold notifyCustomer writesTo
    split
    · rfl
    · by_cases hbc : client = b <;> simp [hbc, ServerPkt.order?]
  rw [hnotify, List.append_nil]
  split <;> rfl

theorem passed_of_gets {cooks : List Addr} {b : Addr} (hbc : b ≠ client)
    (hb : gets h client p cooks b = true) :
    (passed h client p cooks).heap b =
      servedCook client (cookOrderFor h client p cooks b) (h b) := by
  obtain ⟨hmem, hfree⟩ := mem_of_gets hb
  rw [passed_of_mem hbc hmem hfree, madeCook, if_pos hb]

theorem passed_of_not_gets {cooks : List Addr} {b : Addr} (hbc : b ≠ client)
    (hb : gets h client p cooks b = false) :
    (passed h client p cooks).heap b = h b ∨
      b ∈ cooks ∧ (h b).state = .cookFree ∧
        (passed h client p cooks).heap b = { h b with assignedClient := some client } := by
  by_cases hfree : (h b).state = .cookFree
  · by_cases hmem : b ∈ cooks
    · right
      rw [passed_of_mem hbc hmem hfree, madeCook, hb]
      exact ⟨hmem, hfree, if_neg Bool.false_ne_true⟩
    · exact .inl (passed_of_not_mem hbc hmem)
  · exact .inl (passed_of_not_free hbc hfree)

end Order

/-! ## First fit -/

/-- The client at `b` is the first free cook in the queue that can make the
ordered item. -/
def ItemGoesTo (sv : Server) (p : CustOrderPkt) (i : Item) (b : Addr) : Prop :=
  p.names i = true ∧ maker sv.heap sv.clientTailq i = some b

/--
The handler gave every ordered item to the first free cook in the queue that can
make it, sent each of these cooks one order that lists exactly its items, and
changed nothing else but the `assigned_client` of free cooks.
-/
structure FirstFit (sv sv' : Server) (client : Addr) (p : CustOrderPkt)
    (writes : List Write) : Prop where
  queue : sv'.clientTailq = sv.clientTailq
  assigned : ∀ i, p.names i = true →
    ((sv'.heap client).menuItems i = .assigned ↔
      ∃ b ∈ sv.clientTailq, canMake sv.heap i b = true)
  left : ∀ i, p.names i = true →
    (¬ ∃ b ∈ sv.clientTailq, canMake sv.heap i b = true) →
      (sv'.heap client).menuItems i = .new
  first : ∀ i b, ItemGoesTo sv p i b →
    (sv'.heap b).menuItems i = .assigned ∧ ∃ o ∈ ordersTo writes b, o.gives i = true
  once : ∀ b, (ordersTo writes b).length ≤ 1
  listed : ∀ b, ∀ o ∈ ordersTo writes b, ∀ i, o.gives i = true ↔ ItemGoesTo sv p i b
  busy : ∀ b, b ≠ client → (sv.heap b).state = .cookFree →
    ((sv'.heap b).state = .cookBusy ∧ (sv'.heap b).assignedClient = some client ↔
      ∃ i, ItemGoesTo sv p i b)
  marks : ∀ b, b ≠ client → ∀ i, ¬ ItemGoesTo sv p i b →
    (sv'.heap b).menuItems i = (sv.heap b).menuItems i
  others : ∀ b, b ≠ client → (∀ i, ¬ ItemGoesTo sv p i b) →
    (sv'.heap b).state = (sv.heap b).state ∧
      (sv'.heap b).menuItems = (sv.heap b).menuItems
  notFree : ∀ b, b ≠ client → (sv.heap b).state ≠ .cookFree →
    sv'.heap b = sv.heap b

section Proof

variable {sv : Server} {client : Addr} {p : CustOrderPkt} {cooks : List Addr}
  (hby : ∀ i b, madeBy sv.heap client p cooks b i = true ↔ ItemGoesTo sv p i b)
include hby

theorem gets_iff_goesTo (b : Addr) :
    gets sv.heap client p cooks b = true ↔ ∃ i, ItemGoesTo sv p i b :=
  gets_eq_true.trans (exists_congr fun i => hby i b)

theorem made_iff_goesTo (i : Item) :
    made sv.heap client p cooks i = true ↔ ∃ b, ItemGoesTo sv p i b := by
  constructor
  · intro hi
    rw [made, Bool.and_eq_true] at hi
    obtain ⟨b, hb⟩ := Option.isSome_iff_exists.mp hi.2
    exact ⟨b, (hby i b).mp (madeBy_eq_true.mpr ⟨hi.1, hb⟩)⟩
  · rintro ⟨b, hb⟩
    exact made_of_madeBy ((hby i b).mpr hb)

theorem madeCustomer_of_named (i : Item) (hi : p.names i = true) :
    (madeCustomer sv.heap client p cooks).menuItems i =
      if ∃ b ∈ sv.clientTailq, canMake sv.heap i b = true then .assigned else .new := by
  have hmade : made sv.heap client p cooks i = true ↔
      ∃ b ∈ sv.clientTailq, canMake sv.heap i b = true := by
    rw [made_iff_goesTo hby, ← maker_isSome, Option.isSome_iff_exists]
    exact exists_congr fun b => and_iff_right hi
  by_cases hsome : ∃ b ∈ sv.clientTailq, canMake sv.heap i b = true
  · rw [if_pos hsome]
    simp [madeCustomer, hmade.mpr hsome]
  · rw [if_neg hsome]
    have hnone := mt hmade.mp hsome
    simp [madeCustomer, hnone, orderedClient, hi]

theorem firstFit_passed {sv' : Server} (htailq : sv'.clientTailq = sv.clientTailq)
    (hheap : sv'.heap = (passed sv.heap client p cooks).heap) (hcooks : cooks.Nodup)
    (hcust : (sv.heap client).state ≠ .cookFree) (n : Nat) :
    FirstFit sv sv' client p ((passed sv.heap client p cooks).writes ++
      notifyCustomer (passed sv.heap client p cooks).heap client n) := by
  have hgets := gets_iff_goesTo hby
  have horders := ordersTo_handled sv.heap client p hcooks n
  have hne : ∀ b, gets sv.heap client p cooks b = true → b ≠ client := by
    rintro b hb rfl
    exact hcust (mem_of_gets hb).2
  refine ⟨htailq, fun i hi => ?_, fun i hi hnone => ?_, fun i b hgoes => ?_, fun b => ?_,
    fun b o ho i => ?_, fun b hbc hfree => ?_, fun b hbc i hnot => ?_,
    fun b hbc hnot => ?_, fun b hbc hfree => ?_⟩
  · rw [hheap, passed_client, madeCustomer_of_named hby i hi]
    by_cases hsome : ∃ b ∈ sv.clientTailq, canMake sv.heap i b = true <;> simp [hsome]
  · rw [hheap, passed_client, madeCustomer_of_named hby i hi, if_neg hnone]
  · have hb := (hgets b).mpr ⟨i, hgoes⟩
    have hmade := (hby i b).mpr hgoes
    rw [horders, if_pos hb, hheap, passed_of_gets (hne b hb) hb]
    simp [servedCook, hmade]
  · rw [horders]
    split <;> simp
  · rw [horders] at ho
    split at ho
    · rw [List.mem_singleton.mp ho, cookOrderFor_gives, hby]
    · simp at ho
  · rw [← hgets, hheap]
    cases hb : gets sv.heap client p cooks b
    · rcases passed_of_not_gets hbc hb with hsame | ⟨-, -, hlooked⟩
      · simp [hsame, hfree]
      · simp [hlooked, hfree]
    · simp [passed_of_gets hbc hb, servedCook]
  · have hmade : madeBy sv.heap client p cooks b i = false := by
      rw [← Bool.not_eq_true, hby]
      exact hnot
    rw [hheap]
    cases hb : gets sv.heap client p cooks b
    · rcases passed_of_not_gets hbc hb with hsame | ⟨-, -, hlooked⟩
      · simp [hsame]
      · simp [hlooked]
    · simp [passed_of_gets hbc hb, servedCook, hmade]
  · have hb : gets sv.heap client p cooks b = false := by
      rw [← Bool.not_eq_true, hgets]
      exact not_exists.mpr hnot
    rw [hheap]
    rcases passed_of_not_gets hbc hb with hsame | ⟨-, -, hlooked⟩
    · simp [hsame]
    · simp [hlooked]
  · rw [hheap, passed_of_not_free hbc hfree]

end Proof

/--
An order from a sender with no marks is accepted, and every item of it goes to
the first free cook in the queue that can make it.
-/
theorem orders_first_fit {sv : Server} {client : Addr} {p : CustOrderPkt}
    (hqueue : sv.clientTailq.Nodup)
    (hstate : (sv.heap client).state = .unknown ∨
      (sv.heap client).state = .customer)
    (hmenu : ∀ i, (sv.heap client).menuItems i = .undefined) (hrange : p.inRange) :
    ∃ sv' writes, custOrderHandler sv client p = some (sv', writes) ∧
      FirstFit sv sv' client p writes := by
  have hcust : (sv.heap client).state ≠ .cookFree := by
    rcases hstate with hstate | hstate <;> simp [hstate]
  have hby : ∀ i b,
      madeBy sv.heap client p (searched sv.heap client p sv.clientTailq) b i = true ↔
        ItemGoesTo sv p i b := fun i b => by
    rw [madeBy_searched hmenu, madeBy_unmarked hmenu, ItemGoesTo]
  refine ⟨_, _, custOrderHandler_passed hrange hqueue hstate, ?_⟩
  apply firstFit_passed hby
  · rfl
  · rfl
  · exact hqueue.sublist (searched_isPrefix _ _ _ _).sublist
  · exact hcust

/-- Two cooks that share an item, a cook that is busy, and two new customers. -/
def kitchen : Server where
  heap := fun a =>
    { Client.zeroed with
      state := if a = 1 ∨ a = 2 then .cookFree else if a = 3 then .cookBusy else .unknown
      menuItems := fun i =>
        if a = 1 ∧ i.val = 1 ∨ (a = 2 ∨ a = 3) ∧ i.val ≤ 2 then .capable else .undefined }
  clientTailq := [3, 1, 4, 2, 5]

theorem orders_first_fit_kitchen :
    ∃ sv' writes, custOrderHandler kitchen 4 (.ofCodes [2, 1, 3, 2]) = some (sv', writes) ∧
      FirstFit kitchen sv' 4 (.ofCodes [2, 1, 3, 2]) writes :=
  orders_first_fit (by decide) (.inl (by decide)) (by decide) (by decide +kernel)

end SysprogTeam3.FoodSys
