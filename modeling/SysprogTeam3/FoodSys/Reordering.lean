import SysprogTeam3.FoodSys.OrderResult

/-!
# Orders of a customer that ordered before

`cust_order_handler` counts the codes of each packet anew but keeps the marks in
`menu_items`.  What an earlier order left `NEW` is given away with the next one,
and an item that a cook still prepares becomes `NEW` when it is ordered again.
This file says exactly when an order is handled on its own.
-/

namespace SysprogTeam3.FoodSys.OpenServer

open SysprogTeam3.Foundation

/-- A busy cook has not answered an order of this connection that lists the item. -/
def Preparing (s : OpenServer) (a : Addr) (i : Item) : Prop :=
  ∃ b, s.Connected b ∧ (s.record b).state = .cookBusy ∧
    ∃ t ∈ s.outstanding b, t.cust = a ∧ t.conn = s.conn a ∧ t.order.gives i = true

instance (s : OpenServer) (a : Addr) (i : Item) : Decidable (s.Preparing a i) :=
  inferInstanceAs (Decidable (∃ b, b ∈ s.server.clientTailq ∧ _))

structure OnItsOwn (s : OpenServer) (a : Addr) (p : CustOrderPkt)
    (result : Server × List Write) : Prop where
  /-- Only items named in the packet are ordered from the cooks. -/
  named : ∀ i, GivenItem result.2 i → p.names i = true
  /-- An item in preparation is not put back to `NEW`. -/
  kept : ∀ i, s.Preparing a i → (result.1.heap a).menuItems i = .new →
    (s.record a).menuItems i = .new
  /-- An item in preparation is not given to another cook. -/
  once : ∀ i, s.Preparing a i → ¬ GivenItem result.2 i

/--
No cook that the loop gets to can make an item that is left from an earlier order,
or one that is named and in preparation; and the latter is `NEW` already.
-/
structure NothingLeft (s : OpenServer) (a : Addr) (p : CustOrderPkt) : Prop where
  stale : ∀ i, p.names i = false → (s.record a).menuItems i = .new →
    Unreached s.server.heap a p s.server.clientTailq i
  prepared : ∀ i, p.names i = true → s.Preparing a i →
    (s.record a).menuItems i = .new ∧ Unreached s.server.heap a p s.server.clientTailq i

variable {s : OpenServer} {a : Addr} {p : CustOrderPkt}

theorem onItsOwn_orderResult_iff :
    s.OnItsOwn a p (s.orderResult a p) ↔ s.NothingLeft a p := by
  have hgiven : ∀ i, GivenItem (s.orderResult a p).2 i ↔
      offered s.server.heap a p i = true ∧
        ¬ Unreached s.server.heap a p s.server.clientTailq i := by
    intro i
    rw [givenItem_iff_made, made, Bool.and_eq_true, ← maker_searched_eq_none, ← ne_eq,
      Option.isSome_iff_ne_none]
  have hnew : ∀ i, ((s.orderResult a p).1.heap a).menuItems i = .new ↔
      offered s.server.heap a p i = true ∧
        Unreached s.server.heap a p s.server.clientTailq i := by
    intro i
    rw [orderResult_self, madeCustomer_new, maker_searched_eq_none]
  have hoffered : ∀ i, offered s.server.heap a p i = true ↔
      p.names i = true ∨ (s.record a).menuItems i = .new := fun i => offered_eq_true
  constructor
  · rintro ⟨hnamed, hkept, honce⟩
    refine ⟨fun i hi hold => ?_, fun i hi hprep => ?_⟩
    · by_contra hreached
      rw [hnamed i ((hgiven i).mpr ⟨(hoffered i).mpr (.inr hold), hreached⟩)] at hi
      exact absurd hi (by simp)
    · have hunreached : Unreached s.server.heap a p s.server.clientTailq i := by
        by_contra hreached
        exact honce i hprep ((hgiven i).mpr ⟨(hoffered i).mpr (.inl hi), hreached⟩)
      exact ⟨hkept i hprep ((hnew i).mpr ⟨(hoffered i).mpr (.inl hi), hunreached⟩),
        hunreached⟩
  · rintro ⟨hstale, hprepared⟩
    have hnamed : ∀ i, GivenItem (s.orderResult a p).2 i → p.names i = true := by
      intro i hi
      obtain ⟨hi, hreached⟩ := (hgiven i).mp hi
      by_contra hnot
      have hold := ((hoffered i).mp hi).resolve_left hnot
      exact hreached (hstale i (by simpa using hnot) hold)
    refine ⟨hnamed, fun i hprep hi => ?_, fun i hprep hi => ?_⟩
    · rcases (hoffered i).mp ((hnew i).mp hi).1 with hi | hold
      · exact (hprepared i hi hprep).1
      · exact hold
    · exact ((hgiven i).mp hi).2 (hprepared i (hnamed i hi) hprep).2

/--
In every reachable state, an order of a customer is handled on its own if and
only if nothing is left of the earlier ones that it could touch.
-/
theorem on_its_own_iff {events : List Arrival} {s : OpenServer}
    (hrun : run step initial events = some s) {a : Addr}
    (hstate : (s.record a).state = .customer) {p : CustOrderPkt} (hrange : p.inRange) :
    ∃ result, custOrderHandler s.server a p = some result ∧
      (s.OnItsOwn a p result ↔ s.NothingLeft a p) :=
  ⟨s.orderResult a p, custOrderHandler_passed hrange (valid_of_run hrun).nodup (.inr hstate),
    onItsOwn_orderResult_iff⟩

/-- Customer 2 ordered items 1 and 2.  Cook 1 prepares item 1; cook 3, which can
make items 2 and 3, came too late. -/
def leftoverRun : List Arrival :=
  [.accept 1, .accept 2, .packet 1 (.regCook (.ofItems [1])),
    .packet 2 (.custOrder (.ofCodes [1, 2])), .accept 3,
    .packet 3 (.regCook (.ofItems [2, 3]))]

theorem leftoverRun_isSome : (run step initial leftoverRun).isSome := by
  decide +kernel

def leftoverState : OpenServer := (run step initial leftoverRun).get leftoverRun_isSome

theorem on_its_own_iff_leftoverState :
    ∃ result, custOrderHandler leftoverState.server 2 (.ofCodes [2]) = some result ∧
      (leftoverState.OnItsOwn 2 (.ofCodes [2]) result ↔
        leftoverState.NothingLeft 2 (.ofCodes [2])) :=
  on_its_own_iff (Option.some_get leftoverRun_isSome).symm (by decide +kernel)
    (by decide +kernel)

theorem leftoverOrder_isSome (code : UInt8) (hcode : code = 3 ∨ code = 1) :
    (custOrderHandler leftoverState.server 2 (.ofCodes [code])).isSome := by
  rcases hcode with rfl | rfl <;> decide +kernel

/-- An order of item 3 makes cook 3 prepare item 2 too, and an order of item 1
puts back the item that cook 1 prepares. -/
theorem leftovers_not_onItsOwn :
    run step initial leftoverRun = some leftoverState ∧
      ∀ code : UInt8, code = 3 ∨ code = 1 →
        ∃ result, custOrderHandler leftoverState.server 2 (.ofCodes [code]) = some result ∧
          ¬ leftoverState.OnItsOwn 2 (.ofCodes [code]) result := by
  refine ⟨(Option.some_get leftoverRun_isSome).symm, fun code hcode =>
    ⟨_, (Option.some_get (leftoverOrder_isSome code hcode)).symm, fun hown => ?_⟩⟩
  rcases hcode with rfl | rfl
  · exact absurd (hown.named 2 (by decide +kernel)) (by decide)
  · exact absurd (hown.kept 1 (by decide +kernel) (by decide +kernel)) (by decide +kernel)

end SysprogTeam3.FoodSys.OpenServer
