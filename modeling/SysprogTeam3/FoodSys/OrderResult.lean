import SysprogTeam3.FoodSys.OpenServer

/-!
# What an order sends

Where the assignment loop leaves, in terms of the queue and the marks before the
order, and which packets the handler writes.
-/

namespace SysprogTeam3.FoodSys

section Order

variable {h : Heap} {client : Addr} {p : CustOrderPkt}

/-! ## Where the loop leaves -/

variable (h client p) in
theorem madeCount_mono {first cooks : List Addr} (hstart : first <+: cooks) :
    madeCount h client p first ≤ madeCount h client p cooks := by
  refine List.countP_mono_left fun i _ hi => ?_
  obtain ⟨hoffered, b, hb, hmake⟩ := made_eq_true.mp hi
  exact made_eq_true.mpr ⟨hoffered, b, hstart.subset hb, hmake⟩

@[simp] theorem madeCount_nil : madeCount h client p [] = 0 :=
  countP_eq_zero_of fun i => by simp [made, maker]

variable (h client p) in
def LeavesBefore (cooks : List Addr) : Prop :=
  p.codes ≠ [] ∧ ∃ first, first <+: cooks ∧ madeCount h client p first = p.codes.length

variable (h client p) in
def Unreached (queue : List Addr) (i : Item) : Prop :=
  ∀ done b, done ++ [b] <+: queue → canMake h i b = true → LeavesBefore h client p done

theorem searchedFrom_prefix_of_count {done rest first : List Addr}
    (hdone : done <+: first) (hfirst : first <+: done ++ rest)
    (hnot : madeCount h client p done ≠ p.codes.length)
    (hcount : madeCount h client p first = p.codes.length) :
    searchedFrom h client p done rest <+: first := by
  induction rest generalizing done with
  | nil =>
      rw [List.append_nil] at hfirst
      obtain rfl : done = first := hdone.eq_of_length_le hfirst.length_le
      exact absurd hcount hnot
  | cons b rest ih =>
      have hnext : done ++ [b] <+: first := by
        obtain ⟨more, rfl⟩ := hdone
        cases more with
        | nil =>
            rw [List.append_nil] at hcount
            exact absurd hcount hnot
        | cons x more =>
            rw [List.prefix_append_right_inj, List.cons_prefix_cons] at hfirst
            simp [hfirst.1, List.prefix_append_right_inj]
      rw [searchedFrom]
      split
      · exact hnext
      case isFalse hstop =>
          refine ih hnext (by simpa using hfirst) fun hnow => hstop ⟨?_, hnow.symm⟩
          rw [hnow]
          exact hnot.symm

/-- The loop gets no further than to the first cooks that can make as many items
as there are codes. -/
theorem searched_prefix_of_count {queue first : List Addr} (hcodes : p.codes ≠ [])
    (hfirst : first <+: queue) (hcount : madeCount h client p first = p.codes.length) :
    searched h client p queue <+: first := by
  refine searchedFrom_prefix_of_count List.nil_prefix hfirst ?_ hcount
  rw [madeCount_nil]
  exact fun hzero => hcodes (List.length_eq_zero_iff.mp hzero.symm)

theorem searchedFrom_left {done rest : List Addr}
    (hleft : searchedFrom h client p done rest ≠ done ++ rest) : p.codes ≠ [] := by
  induction rest generalizing done with
  | nil => simp [searchedFrom] at hleft
  | cons b rest ih =>
      rw [searchedFrom] at hleft
      split at hleft
      case isTrue hstop =>
          intro hnil
          have hmono := madeCount_mono h client p (List.prefix_append done [b])
          rw [hnil, List.length_nil] at hstop
          omega
      case isFalse hstop =>
          have hrest : searchedFrom h client p (done ++ [b]) rest ≠ (done ++ [b]) ++ rest := by
            simpa using hleft
          exact ih hrest

theorem prefix_searched {queue done : List Addr} {b : Addr}
    (hqueue : done ++ [b] <+: queue) :
    done ++ [b] <+: searched h client p queue ↔ ¬ LeavesBefore h client p done := by
  have hstart := searched_isPrefix h client p queue
  constructor
  · rintro hreached ⟨hcodes, first, hfirst, hcount⟩
    have hdone : first <+: queue := hfirst.trans ((List.prefix_append done [b]).trans hqueue)
    have hlength := (hreached.trans (searched_prefix_of_count hcodes hdone hcount)).length_le
    have hshort := hfirst.length_le
    simp at hlength
    omega
  · intro hnot
    by_cases hall : searched h client p queue = queue
    · rwa [hall]
    · have hcount := (searched_cases h client p queue).resolve_left hall
      rcases List.prefix_or_prefix_of_prefix hqueue hstart with hreached | hshort
      · exact hreached
      · rcases List.prefix_concat_iff.mp hshort with heq | hshort
        · rw [heq]
        · exact absurd ⟨searchedFrom_left hall, _, hshort, hcount.symm⟩ hnot

theorem maker_searched_eq_none {queue : List Addr} {i : Item} :
    maker h (searched h client p queue) i = none ↔ Unreached h client p queue i := by
  rw [maker, List.find?_eq_none]
  constructor
  · intro hnone done b hqueue hmake
    by_contra hnot
    exact hnone b (((prefix_searched hqueue).mpr hnot).subset (by simp)) hmake
  · intro hunreached b hb hmake
    obtain ⟨done, rest, heq⟩ := List.append_of_mem hb
    have hreached : done ++ [b] <+: searched h client p queue := ⟨rest, by simp [heq]⟩
    have hqueue := hreached.trans (searched_isPrefix h client p queue)
    exact (prefix_searched hqueue).mp hreached (hunreached done b hqueue hmake)

end Order

/-! ## The packets -/

namespace OpenServer

def GivenItem (writes : List Write) (i : Item) : Prop :=
  ∃ b o, (b, .cookOrder o) ∈ writes ∧ o.gives i = true

instance (writes : List Write) (i : Item) : Decidable (GivenItem writes i) :=
  decidable_of_iff (∃ w ∈ writes, ∃ o ∈ w.2.order?, o.gives i = true) (by
    constructor
    · rintro ⟨⟨b, pkt⟩, hw, o, ho, hgives⟩
      cases pkt with
      | cookOrder o' =>
          obtain rfl : o' = o := Option.some.inj ho
          exact ⟨b, o', hw, hgives⟩
      | custUpdate u => simp [ServerPkt.order?] at ho
    · rintro ⟨b, o, hw, hgives⟩
      exact ⟨_, hw, o, rfl, hgives⟩)

variable {s : OpenServer} {a : Addr} {p : CustOrderPkt}

abbrev cooksSearched (s : OpenServer) (a : Addr) (p : CustOrderPkt) : List Addr :=
  searched s.server.heap a p s.server.clientTailq

theorem mem_orderResult_cookOrder {b : Addr} {o : CookOrderPkt} :
    (b, .cookOrder o) ∈ (s.orderResult a p).2 ↔
      gets s.server.heap a p (s.cooksSearched a p) b = true ∧
        o = cookOrderFor s.server.heap a p (s.cooksSearched a p) b := by
  have hnotify : ∀ heap n, (b, ServerPkt.cookOrder o) ∉ notifyCustomer heap a n := by
    intro heap n
    unfold notifyCustomer
    split <;> simp
  simp only [orderResult, List.mem_append, hnotify, or_false, passed, List.mem_map,
    List.mem_filter, Prod.mk.injEq, ServerPkt.cookOrder.injEq]
  constructor
  · rintro ⟨x, ⟨-, hgets⟩, rfl, rfl⟩
    exact ⟨hgets, rfl⟩
  · rintro ⟨hgets, rfl⟩
    exact ⟨b, ⟨(mem_of_gets hgets).1, hgets⟩, rfl, rfl⟩

theorem givenItem_iff_made {i : Item} :
    GivenItem (s.orderResult a p).2 i ↔
      made s.server.heap a p (s.cooksSearched a p) i = true := by
  constructor
  · rintro ⟨b, o, ho, hgives⟩
    obtain ⟨-, rfl⟩ := mem_orderResult_cookOrder.mp ho
    rw [cookOrderFor_gives] at hgives
    exact made_of_madeBy hgives
  · intro hmade
    rw [made, Bool.and_eq_true] at hmade
    obtain ⟨b, hb⟩ := Option.isSome_iff_exists.mp hmade.2
    have hby := madeBy_eq_true.mpr ⟨hmade.1, hb⟩
    exact ⟨b, _, mem_orderResult_cookOrder.mpr ⟨gets_eq_true.mpr ⟨i, hby⟩, rfl⟩,
      by rw [cookOrderFor_gives, hby]⟩

theorem mem_orderResult_custUpdate {b : Addr} {u : CustUpdatePkt} :
    (b, .custUpdate u) ∈ (s.orderResult a p).2 ↔
      p.codes.length ≠ madeCount s.server.heap a p (s.cooksSearched a p) ∧
        b = a ∧ u = ⟨customerMsg (madeCustomer s.server.heap a p (s.cooksSearched a p))
          (madeCount s.server.heap a p (s.cooksSearched a p))⟩ := by
  have horders : (b, ServerPkt.custUpdate u) ∉
      (passed s.server.heap a p (s.cooksSearched a p)).writes := by
    simp [passed]
  have hcodes : (madeCustomer s.server.heap a p (s.cooksSearched a p)).numOfOrders =
      p.codes.length := rfl
  rw [orderResult, List.mem_append, or_iff_right horders, notifyCustomer, passed_client,
    hcodes]
  change _ ∈ (if p.codes.length = madeCount s.server.heap a p (s.cooksSearched a p)
    then [] else _) ↔ _
  split <;> rename_i hcount <;> simp [hcount, passed]

end OpenServer

end SysprogTeam3.FoodSys
