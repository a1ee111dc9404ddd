import SysprogTeam3.FoodSys.OrderResult

/-!
# What the customer is told

The handler compares the number of codes in the packet with the number of items
that it gave away.  Codes may repeat, and an item of an earlier order that is
still `NEW` is given away too, so the two numbers need not count the same things.
This file says exactly when the message is the right one.
-/

namespace SysprogTeam3.FoodSys.OpenServer

open SysprogTeam3.Foundation

def unserviceablePrefix : Text := "Orders unserviceable currently ".toList

/-- The customer at `a` is told exactly which named items were not given away. -/
structure ToldMissed (a : Addr) (p : CustOrderPkt) (writes : List Write) : Prop where
  none : (a, .custUpdate ⟨orderUnservMessage⟩) ∈ writes ↔
    ∀ i, p.names i = true → ¬ GivenItem writes i
  some : (∃ rest, (a, .custUpdate ⟨unserviceablePrefix ++ rest⟩) ∈ writes) ↔
    (∃ i, p.names i = true ∧ GivenItem writes i) ∧
      ∃ i, p.names i = true ∧ ¬ GivenItem writes i
  all : (∀ w ∈ writes, w.1 ≠ a) ↔ ∀ i, p.names i = true → GivenItem writes i

/--
The two numbers agree with the items.  When the free cooks in some first part of
the queue can make as many of the items to give away as there are codes, they can
make every named one; when there is no such part, the free cooks can make nothing
that is to give away, or some named items but not all.
-/
structure CountersAgree (s : OpenServer) (a : Addr) (p : CustOrderPkt) : Prop where
  enough : ∀ first, first <+: s.server.clientTailq →
    madeCount s.server.heap a p first = p.codes.length →
      ∀ i, p.names i = true → ∃ b ∈ first, canMake s.server.heap i b = true
  short : (∀ first, first <+: s.server.clientTailq →
      madeCount s.server.heap a p first ≠ p.codes.length) →
    madeCount s.server.heap a p s.server.clientTailq = 0 ∨
      (∃ i, p.names i = true ∧
        ∃ b ∈ s.server.clientTailq, canMake s.server.heap i b = true) ∧
      ∃ i, p.names i = true ∧
        ¬ ∃ b ∈ s.server.clientTailq, canMake s.server.heap i b = true

variable {s : OpenServer} {a : Addr} {p : CustOrderPkt}

theorem exists_named (hrange : p.inRange) (hcodes : p.codes ≠ []) :
    ∃ i, p.names i = true := by
  obtain ⟨code, hcode⟩ := List.exists_mem_of_ne_nil _ hcodes
  exact ⟨⟨code.toNat, hrange code hcode⟩, names_eq_true.mpr ⟨code, hcode, rfl⟩⟩

theorem made_of_named {h : Heap} {cooks : List Addr} {i : Item} (hi : p.names i = true) :
    made h a p cooks i = true ↔ ∃ b ∈ cooks, canMake h i b = true := by
  rw [made_eq_true, offered_eq_true]
  simp [hi]

theorem made_eq_false_of_count {h : Heap} {cooks : List Addr}
    (hcount : madeCount h a p cooks = 0) (i : Item) : ¬ made h a p cooks i = true :=
  List.countP_eq_zero.mp hcount i (mem_menuIndices i)

/-! ## The message -/

theorem unserviceablePrefix_length : unserviceablePrefix.length = 31 := by decide

theorem snprintf_unserviceable (rest : Text) :
    snprintf 64 (unserviceablePrefix ++ rest) = unserviceablePrefix ++ rest.take 32 := by
  have hlength := unserviceablePrefix_length
  rw [snprintf, List.take_append, hlength, List.take_of_length_le (by omega)]

theorem customerMsg_of_ne_zero (c : Client) {n : Nat} (hn : n ≠ 0) :
    customerMsg c n = unserviceablePrefix ++
      (missedOrders c ++ ", rest of the orders will be serviced".toList).take 32 := by
  have hmsg : customerMsg c n = snprintf 64 (unserviceablePrefix ++ missedOrders c ++
      ", rest of the orders will be serviced".toList) := if_neg hn
  rewrite [hmsg, List.append_assoc]
  exact snprintf_unserviceable _

theorem unserviceable_ne_unserv (rest : Text) :
    unserviceablePrefix ++ rest ≠ orderUnservMessage := by
  intro heq
  have hhead := congrArg (List.take 1) heq
  rw [List.take_append_of_le_length (by decide)] at hhead
  exact absurd hhead (by decide)

section Messages

variable {n : Nat} (hcount : madeCount s.server.heap a p (s.cooksSearched a p) = n)
include hcount

theorem unserv_sent :
    (a, .custUpdate ⟨orderUnservMessage⟩) ∈ (s.orderResult a p).2 ↔
      p.codes.length ≠ n ∧ n = 0 := by
  rw [mem_orderResult_custUpdate, hcount]
  refine and_congr_right fun _ => ⟨fun h => ?_, fun hn => ?_⟩
  · by_contra hn
    rw [customerMsg_of_ne_zero _ hn] at h
    exact unserviceable_ne_unserv _ (CustUpdatePkt.mk.inj h.2).symm
  · rw [hn, customerMsg_zero]
    exact ⟨rfl, rfl⟩

theorem unserviceable_sent :
    (∃ rest, (a, .custUpdate ⟨unserviceablePrefix ++ rest⟩) ∈ (s.orderResult a p).2) ↔
      p.codes.length ≠ n ∧ n ≠ 0 := by
  simp only [mem_orderResult_custUpdate, hcount]
  constructor
  · rintro ⟨rest, hne, -, hrest⟩
    refine ⟨hne, fun hn => ?_⟩
    rw [hn, customerMsg_zero] at hrest
    exact unserviceable_ne_unserv rest (CustUpdatePkt.mk.inj hrest)
  · rintro ⟨hne, hn⟩
    exact ⟨_, hne, trivial, by rw [customerMsg_of_ne_zero _ hn]⟩

theorem nothing_sent (hfree : (s.record a).state ≠ .cookFree) :
    (∀ w ∈ (s.orderResult a p).2, w.1 ≠ a) ↔ p.codes.length = n := by
  constructor
  · intro hnone
    by_contra hne
    exact hnone _ (mem_orderResult_custUpdate.mpr ⟨by rwa [hcount], rfl, rfl⟩) rfl
  · rintro heq ⟨b, pkt⟩ hw rfl
    cases pkt with
    | cookOrder o =>
        obtain ⟨hgets, -⟩ := mem_orderResult_cookOrder.mp hw
        exact hfree (mem_of_gets hgets).2
    | custUpdate u =>
        obtain ⟨hne, -⟩ := mem_orderResult_custUpdate.mp hw
        exact hne (heq.trans hcount.symm)

end Messages

/-! ## The two numbers -/

theorem countersAgree_iff (hcodes : p.codes ≠ []) :
    s.CountersAgree a p ↔
      (p.codes.length = madeCount s.server.heap a p (s.cooksSearched a p) →
        ∀ i, p.names i = true →
          made s.server.heap a p (s.cooksSearched a p) i = true) ∧
      (p.codes.length ≠ madeCount s.server.heap a p (s.cooksSearched a p) →
        madeCount s.server.heap a p (s.cooksSearched a p) = 0 ∨
          (∃ i, p.names i = true ∧
            made s.server.heap a p (s.cooksSearched a p) i = true) ∧
          ∃ i, p.names i = true ∧
            ¬ made s.server.heap a p (s.cooksSearched a p) i = true) := by
  have hstart := searched_isPrefix s.server.heap a p s.server.clientTailq
  have hfirst : ∀ first, first <+: s.server.clientTailq →
      madeCount s.server.heap a p first = p.codes.length → s.cooksSearched a p <+: first :=
    fun first => searched_prefix_of_count hcodes
  by_cases hcount : p.codes.length = madeCount s.server.heap a p (s.cooksSearched a p)
  · constructor
    · intro hagree
      refine ⟨fun _ i hi => (made_of_named hi).mpr ?_, fun hne => absurd hcount hne⟩
      exact hagree.enough _ hstart hcount.symm i hi
    · rintro ⟨hall, -⟩
      refine ⟨fun first hqueue hn i hi => ?_, fun hnone => absurd hcount.symm (hnone _ hstart)⟩
      obtain ⟨b, hb, hmake⟩ := (made_of_named hi).mp (hall hcount i hi)
      exact ⟨b, (hfirst first hqueue hn).subset hb, hmake⟩
  · have hqueue : s.cooksSearched a p = s.server.clientTailq :=
      (searched_cases s.server.heap a p s.server.clientTailq).resolve_right hcount
    have hnone : ∀ first, first <+: s.server.clientTailq →
        madeCount s.server.heap a p first ≠ p.codes.length := by
      intro first hlong hn
      have hshort := hfirst first hlong hn
      rw [hqueue] at hshort
      obtain rfl := hlong.eq_of_length_le hshort.length_le
      exact hcount (by rw [hqueue, hn])
    rw [hqueue] at hcount ⊢
    constructor
    · intro hagree
      refine ⟨fun heq => absurd heq hcount, fun _ => (hagree.short hnone).imp_right ?_⟩
      rintro ⟨⟨i, hi, hmake⟩, j, hj, hnot⟩
      exact ⟨⟨i, hi, (made_of_named hi).mpr hmake⟩, j, hj, mt (made_of_named hj).mp hnot⟩
    · rintro ⟨-, hshort⟩
      refine ⟨fun first hlong hn => absurd hn (hnone first hlong), fun _ => ?_⟩
      refine (hshort hcount).imp_right ?_
      rintro ⟨⟨i, hi, hmake⟩, j, hj, hnot⟩
      exact ⟨⟨i, hi, (made_of_named hi).mp hmake⟩, j, hj, mt (made_of_named hj).mpr hnot⟩

theorem toldMissed_iff {n : Nat}
    (hcount : madeCount s.server.heap a p (s.cooksSearched a p) = n)
    (hfree : (s.record a).state ≠ .cookFree) :
    ToldMissed a p (s.orderResult a p).2 ↔
      (p.codes.length ≠ n ∧ n = 0 ↔ ∀ i, p.names i = true →
        ¬ made s.server.heap a p (s.cooksSearched a p) i = true) ∧
      (p.codes.length ≠ n ∧ n ≠ 0 ↔
        (∃ i, p.names i = true ∧ made s.server.heap a p (s.cooksSearched a p) i = true) ∧
          ∃ i, p.names i = true ∧
            ¬ made s.server.heap a p (s.cooksSearched a p) i = true) ∧
      (p.codes.length = n ↔ ∀ i, p.names i = true →
        made s.server.heap a p (s.cooksSearched a p) i = true) := by
  have hgiven : ∀ i, GivenItem (s.orderResult a p).2 i ↔
      made s.server.heap a p (s.cooksSearched a p) i = true := fun i => givenItem_iff_made
  constructor
  · rintro ⟨hnone, hsome, hall⟩
    rw [unserv_sent hcount] at hnone
    rw [unserviceable_sent hcount] at hsome
    rw [nothing_sent hcount hfree] at hall
    simp only [hgiven] at hnone hsome hall
    exact ⟨hnone, hsome, hall⟩
  · rintro ⟨hnone, hsome, hall⟩
    constructor
    · rw [unserv_sent hcount]
      simp only [hgiven]
      exact hnone
    · rw [unserviceable_sent hcount]
      simp only [hgiven]
      exact hsome
    · rw [nothing_sent hcount hfree]
      simp only [hgiven]
      exact hall

/--
In every reachable state, a customer whose order is accepted is told exactly
which items were not given away if and only if the two numbers agree.
-/
theorem told_missed_iff {events : List Arrival} {s : OpenServer}
    (hrun : run step initial events = some s) {a : Addr}
    (hstate : (s.record a).state = .unknown ∨ (s.record a).state = .customer)
    {p : CustOrderPkt} (hrange : p.inRange) (hcodes : p.codes ≠ []) :
    ∃ result, custOrderHandler s.server a p = some result ∧
      (ToldMissed a p result.2 ↔ s.CountersAgree a p) := by
  have hfree : (s.record a).state ≠ .cookFree := by
    rcases hstate with hstate | hstate <;> simp [hstate]
  refine ⟨s.orderResult a p,
    custOrderHandler_passed hrange (valid_of_run hrun).nodup hstate, ?_⟩
  rw [toldMissed_iff rfl hfree, countersAgree_iff hcodes]
  obtain ⟨i, hi⟩ := exists_named hrange hcodes
  by_cases hcount : p.codes.length = madeCount s.server.heap a p (s.cooksSearched a p)
  · -- nothing is sent
    constructor
    · rintro ⟨-, -, hall⟩
      exact ⟨fun _ => hall.mp hcount, fun hne => absurd hcount hne⟩
    · rintro ⟨hall, -⟩
      have hall := hall hcount
      exact ⟨⟨fun h => absurd hcount h.1, fun hnone => absurd (hall i hi) (hnone i hi)⟩,
        ⟨fun h => absurd hcount h.1, fun ⟨_, j, hj, hnot⟩ => absurd (hall j hj) hnot⟩,
        fun _ => hall, fun _ => hcount⟩
  by_cases hzero : madeCount s.server.heap a p (s.cooksSearched a p) = 0
  · -- the first message is sent, and nothing was given away
    have hnot := made_eq_false_of_count hzero
    refine iff_of_true ⟨⟨fun _ j _ => hnot j, fun _ => ⟨hcount, hzero⟩⟩, ⟨fun h => ?_, ?_⟩,
      fun heq => absurd heq hcount, fun hall => absurd (hall i hi) (hnot i)⟩
      ⟨fun heq => absurd heq hcount, fun _ => .inl hzero⟩
    · exact absurd hzero h.2
    · rintro ⟨⟨j, -, hj⟩, -⟩
      exact absurd hj (hnot j)
  · -- the second message is sent
    constructor
    · rintro ⟨-, hsome, -⟩
      exact ⟨fun heq => absurd heq hcount, fun _ => .inr (hsome.mp ⟨hcount, hzero⟩)⟩
    · rintro ⟨-, hshort⟩
      have hboth := (hshort hcount).resolve_left hzero
      have ⟨⟨j, hj, hmade⟩, k, hk, hnot⟩ := hboth
      exact ⟨⟨fun h => absurd h.2 hzero, fun hnone => absurd hmade (hnone j hj)⟩,
        ⟨fun _ => hboth, fun _ => ⟨hcount, hzero⟩⟩,
        fun heq => absurd heq hcount, fun hall => absurd (hall k hk) hnot⟩

def oneCookRun : List Arrival :=
  [.accept 1, .accept 2, .packet 1 (.regCook (.ofItems [1]))]

theorem oneCookRun_isSome : (run step initial oneCookRun).isSome := by
  decide +kernel

def oneCookState : OpenServer := (run step initial oneCookRun).get oneCookRun_isSome

theorem told_missed_iff_oneCookState :
    ∃ result, custOrderHandler oneCookState.server 2 (.ofCodes [1, 2]) = some result ∧
      (ToldMissed 2 (.ofCodes [1, 2]) result.2 ↔
        oneCookState.CountersAgree 2 (.ofCodes [1, 2])) :=
  told_missed_iff (Option.some_get oneCookRun_isSome).symm (.inl (by decide +kernel))
    (by decide +kernel) (by decide)

theorem repeatedOrder_isSome :
    (custOrderHandler oneCookState.server 2 (.ofCodes [1, 1])).isSome := by
  decide +kernel

/-- Item 1 is ordered twice and given away, but one code is missing in the count. -/
theorem repeated_code_not_toldMissed :
    run step initial oneCookRun = some oneCookState ∧
      ∃ result, custOrderHandler oneCookState.server 2 (.ofCodes [1, 1]) = some result ∧
        ¬ ToldMissed 2 (.ofCodes [1, 1]) result.2 := by
  refine ⟨(Option.some_get oneCookRun_isSome).symm, _,
    (Option.some_get repeatedOrder_isSome).symm, fun htold => ?_⟩
  have hnamed : ∀ i, (CustOrderPkt.ofCodes [1, 1]).names i = true → i = 1 := by decide
  have hgiven : GivenItem ((custOrderHandler oneCookState.server 2
      (.ofCodes [1, 1])).get repeatedOrder_isSome).2 1 := by
    decide +kernel
  have hnothing := htold.all.mpr fun i hi => hnamed i hi ▸ hgiven
  exact absurd hnothing (by decide +kernel)

/-! ## Plain orders -/

theorem countP_names_of_nodup (hrange : p.inRange) (hnodup : p.codes.Nodup) :
    menuIndices.countP p.names = p.codes.length := by
  refine (countP_names_le p).antisymm ?_
  have hcodes : (p.codes.map UInt8.toNat).Nodup :=
    hnodup.map fun _ _ => UInt8.toNat_inj.mp
  have hsubset : p.codes.map UInt8.toNat ⊆ (menuIndices.filter p.names).map Fin.val := by
    intro n hn
    obtain ⟨code, hcode, rfl⟩ := List.mem_map.mp hn
    have hnames : p.names ⟨code.toNat, hrange code hcode⟩ = true :=
      names_eq_true.mpr ⟨code, hcode, rfl⟩
    exact List.mem_map.mpr ⟨_, List.mem_filter.mpr ⟨mem_menuIndices _, hnames⟩, rfl⟩
  have hle := (List.subperm_of_subset hcodes hsubset).length_le
  simpa [List.countP_eq_length_filter] using hle

/-- The numbers agree when no code repeats and no unnamed item is still `NEW`. -/
theorem countersAgree_of_plain (hrange : p.inRange) (hnodup : p.codes.Nodup)
    (hstale : ∀ i, (s.record a).menuItems i = .new → p.names i = true) :
    s.CountersAgree a p := by
  have hcodes := countP_names_of_nodup hrange hnodup
  have hsub : ∀ cooks i, made s.server.heap a p cooks i = true → p.names i = true :=
    fun cooks i hi => (offered_eq_true.mp (made_eq_true.mp hi).1).elim id (hstale i)
  have hall : ∀ cooks, p.codes.length ≤ madeCount s.server.heap a p cooks →
      made s.server.heap a p cooks = p.names := fun cooks hle =>
    eq_of_countP_le (hsub cooks) (hcodes.trans_le hle)
  refine ⟨fun first _ hcount i hi => ?_, fun hnone => ?_⟩
  · rw [← made_of_named hi (a := a), hall first hcount.ge, hi]
  by_cases hzero : madeCount s.server.heap a p s.server.clientTailq = 0
  · exact .inl hzero
  right
  constructor
  · obtain ⟨i, -, hi⟩ := List.countP_pos_iff.mp (Nat.pos_of_ne_zero hzero)
    have hnamed := hsub _ i hi
    exact ⟨i, hnamed, (made_of_named hnamed).mp hi⟩
  · by_contra hevery
    push Not at hevery
    refine hnone _ (List.prefix_refl _) ?_
    have hmade : made s.server.heap a p s.server.clientTailq = p.names := by
      funext i
      rw [Bool.eq_iff_iff]
      exact ⟨hsub _ i, fun hi => (made_of_named hi).mpr (hevery i hi)⟩
    rw [madeCount, hmade, hcodes]

end SysprogTeam3.FoodSys.OpenServer
