import SysprogTeam3.FoodSys.OpenServer

/-!
# Updates that answer no order

`cook_update_handler` knows of an order only through `assigned_client`, which
the assignment loop also sets on cooks that it only looks at and which nothing
clears.  This file says exactly when an update that answers no order leaves the
server as it was.
-/

namespace SysprogTeam3.FoodSys.OpenServer

open SysprogTeam3.Foundation

/--
An update of the client at `a` finds nothing to do: it has no customer that is
still there, or it is free already, its items are completed for that customer and
another item of the customer is not.
-/
def UpdateInert (s : OpenServer) (a : Addr) : Prop :=
  ∀ cust, (s.record a).assignedClient = some cust → s.Connected cust →
    (s.record a).state = .cookFree ∧
      (∃ i, (s.record cust).menuItems i = .assigned) ∧
      ∀ i, (s.record a).menuItems i = .assigned → (s.record cust).menuItems i = .completed

variable {s : OpenServer} {a cust : Addr}

theorem completionWrites_eq_nil {c : Client} :
    completionWrites cust c = [] ↔ ∃ i, c.menuItems i = .assigned := by
  rw [completionWrites, ← assignedFound_eq_true]
  cases assignedFound c <;> simp

theorem completedCustomer_eq_self :
    s.completedCustomer a cust = s.record cust ↔
      ∀ i, (s.record a).menuItems i = .assigned →
        (s.record cust).menuItems i = .completed := by
  constructor
  · intro hsame i hi
    have hmenu := congrFun (congrArg Client.menuItems hsame) i
    rw [← hmenu]
    simp [completedCustomer, completeItems, hi]
  · intro hdone
    have hmenu : (s.completedCustomer a cust).menuItems = (s.record cust).menuItems := by
      funext i
      simp only [completedCustomer, completeItems]
      split
      · rename_i hi
        exact (hdone i hi).symm
      · rfl
    exact congrArg (fun menu => { s.record cust with menuItems := menu }) hmenu

theorem updateResult_inert (hne : a ≠ cust) :
    s.updateResult a cust = (s.server, []) ↔
      (s.record a).state = .cookFree ∧
        (∃ i, (s.record cust).menuItems i = .assigned) ∧
        ∀ i, (s.record a).menuItems i = .assigned →
          (s.record cust).menuItems i = .completed := by
  constructor
  · intro hinert
    have hheap : ∀ b, (s.updateResult a cust).1.heap b = s.record b := fun b => by
      rw [hinert]
    have hwrites : completionWrites cust (s.completedCustomer a cust) = [] :=
      congrArg Prod.snd hinert
    have hfree := congrArg Client.state (hheap a)
    have hsame := hheap cust
    rw [updateResult_self] at hfree
    rw [updateResult_cust hne] at hsame
    rw [hsame, completionWrites_eq_nil] at hwrites
    exact ⟨hfree.symm, hwrites, completedCustomer_eq_self.mp hsame⟩
  · rintro ⟨hfree, hassigned, hdone⟩
    have hsame := completedCustomer_eq_self.mpr hdone
    have hself : { s.record a with state := .cookFree } = s.record a := by rw [← hfree]
    rw [updateResult, hsame, completionWrites_eq_nil.mpr hassigned, hself]
    simp

/--
In every reachable state and whatever orders the client has to answer, its
`COOK_UPDATE` changes nothing and sends nothing exactly when it finds nothing to do.
-/
theorem update_inert_iff {events : List Arrival} {s : OpenServer}
    (hrun : run step initial events = some s) {a : Addr} (ha : s.Connected a)
    (m : CookUpdatePkt) :
    handlerFuncDispatch s.server a (.cookUpdate m) = some (s.server, []) ↔
      s.UpdateInert a := by
  obtain ⟨result, hresult, hhandled⟩ :=
    dispatch_handled (valid_of_run hrun) ha (show Pkt.inRange (.cookUpdate m) from trivial)
  rw [hresult, Option.some.injEq]
  cases hhandled with
  | missed _ hmiss =>
      exact ⟨fun _ cust hassigned hcust => absurd hcust (hmiss cust hassigned), fun _ => rfl⟩
  | updated _ cust hassigned hcust hne =>
      rw [updateResult_inert hne]
      constructor
      · intro h cust' hassigned' _
        obtain rfl : cust = cust' := Option.some.inj (hassigned.symm.trans hassigned')
        exact h
      · exact fun h => h cust hassigned hcust

/-- Cook 1 can make item 1; customer 2 orders items that it cannot make. -/
def lookedAtRun : List Arrival :=
  [.accept 1, .accept 2, .packet 1 (.regCook (.ofItems [1])),
    .packet 2 (.custOrder (.ofCodes [2, 3]))]

theorem lookedAtRun_isSome : (run step initial lookedAtRun).isSome := by
  decide +kernel

def lookedAtState : OpenServer := (run step initial lookedAtRun).get lookedAtRun_isSome

/-- Customer 2 orders what cook 1 can make, and the cook answers. -/
def answeredRun : List Arrival :=
  [.accept 1, .accept 2, .packet 1 (.regCook (.ofItems [1])),
    .packet 2 (.custOrder (.ofCodes [1])), .packet 1 (.cookUpdate ⟨[]⟩)]

theorem answeredRun_isSome : (run step initial answeredRun).isSome := by
  decide +kernel

def answeredState : OpenServer := (run step initial answeredRun).get answeredRun_isSome

theorem update_inert_iff_lookedAtState :
    handlerFuncDispatch lookedAtState.server 2 (.cookUpdate ⟨[]⟩) =
        some (lookedAtState.server, []) ↔
      lookedAtState.UpdateInert 2 :=
  update_inert_iff (Option.some_get lookedAtRun_isSome).symm (by decide +kernel) ⟨[]⟩

/-- The customer is told that its order is complete by a cook that was only
looked at, and a second time by an update that is repeated. -/
theorem unsolicited_updates_complete :
    run step initial lookedAtRun = some lookedAtState ∧
      run step initial answeredRun = some answeredState ∧
      ∀ s ∈ [lookedAtState, answeredState], s.Connected 1 ∧ s.outstanding 1 = [] ∧
        (cookUpdateHandler s.server 1).2 = [(2, .custUpdate ⟨orderCompleteMessage⟩)] := by
  refine ⟨(Option.some_get lookedAtRun_isSome).symm,
    (Option.some_get answeredRun_isSome).symm, ?_⟩
  simp only [List.mem_cons, List.not_mem_nil, or_false, forall_eq_or_imp, forall_eq]
  decide +kernel

end SysprogTeam3.FoodSys.OpenServer
