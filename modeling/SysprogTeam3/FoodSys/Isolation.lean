import SysprogTeam3.FoodSys.OpenServer

/-!
# Connections that never registered as a cook

Whatever the other clients send, such a connection can only reach its own
record and free cooks.  In particular a `COOK_UPDATE` from it finds nobody,
although the handler does not ask who sent it.
-/

namespace SysprogTeam3.FoodSys.OpenServer

open SysprogTeam3.Foundation

/-- A packet of the client at `a` reached its own record and free cooks only. -/
structure Isolated (s : OpenServer) (a : Addr) (result : Server × List Write) : Prop where
  queue : result.1.clientTailq = s.server.clientTailq
  records : ∀ b, result.1.heap b ≠ s.record b →
    b = a ∨ s.Connected b ∧ (s.record b).state = .cookFree
  writes : ∀ w ∈ result.2, w.1 = a ∨ s.Connected w.1 ∧ (s.record w.1).state = .cookFree

variable {s : OpenServer} {a : Addr}

theorem Isolated.refl (s : OpenServer) (a : Addr) : s.Isolated a (s.server, []) where
  queue := rfl
  records _ hb := absurd rfl hb
  writes := by simp

theorem isolated_orderResult (hs : s.Valid) (p : CustOrderPkt) :
    s.Isolated a (s.orderResult a p) where
  queue := rfl
  records b hb := by
    by_cases hba : b = a
    · exact .inl hba
    · obtain ⟨hconn, hfree, -⟩ := (orderResult_of_ne hs hba p).resolve_left hb
      exact .inr ⟨hconn, hfree⟩
  writes _ hw := mem_orderResult_writes hw

theorem Handled.isolated (hs : s.Valid)
    (hassigned : (s.record a).assignedClient = none) {pkt : Pkt}
    {result : Server × List Write} (h : s.Handled a pkt result)
    (hreg : ∀ p, pkt ≠ .regCook p) : s.Isolated a result := by
  cases h with
  | registered p => exact absurd rfl (hreg p)
  | ordered p => exact isolated_orderResult hs p
  | updated m cust hcust =>
      rw [hassigned] at hcust
      exact absurd hcust (by simp)
  | customer | refused | missed | other => exact .refl s a

theorem idle_of_unregistered (hs : s.Valid) (ha : s.Connected a)
    (hnever : ∀ p, .regCook p ∉ s.received a) :
    (s.record a).state = .unknown ∨ (s.record a).state = .customer := by
  refine (UserState.cook_or _).resolve_right fun hcook => ?_
  obtain ⟨p, hp⟩ := (hs.record a ha).registered hcook
  exact hnever p hp

/--
In every reachable state a connection that has not registered as a cook is no
cook, has no assigned client, and any packet of it but a `REG_COOK` reaches its
own record and free cooks only.
-/
theorem unregistered_isolated {events : List Arrival} {s : OpenServer}
    (hrun : run step initial events = some s) {a : Addr} (ha : s.Connected a)
    (hnever : ∀ p, .regCook p ∉ s.received a) :
    ((s.record a).state = .unknown ∨ (s.record a).state = .customer) ∧
      (s.record a).assignedClient = none ∧
      ∀ pkt : Pkt, pkt.inRange → (∀ p, pkt ≠ .regCook p) →
        ∃ result, handlerFuncDispatch s.server a pkt = some result ∧
          s.Isolated a result := by
  have hs := valid_of_run hrun
  have hidle := idle_of_unregistered hs ha hnever
  have hassigned := (hs.record a ha).idle hidle
  refine ⟨hidle, hassigned, fun pkt hrange hreg => ?_⟩
  obtain ⟨result, hresult, hhandled⟩ := dispatch_handled hs ha hrange
  exact ⟨result, hresult, hhandled.isolated hs hassigned hreg⟩

def busyCookRun : List Arrival :=
  [.accept 1, .accept 2, .packet 1 (.regCook (.ofItems [1])),
    .packet 2 (.custOrder (.ofCodes [1])), .accept 3, .packet 3 (.custOrder (.ofCodes [1]))]

theorem busyCookRun_isSome : (run step initial busyCookRun).isSome := by
  decide +kernel

def busyCookState : OpenServer := (run step initial busyCookRun).get busyCookRun_isSome

theorem unregistered_isolated_busyCookState :
    ((busyCookState.record 3).state = .unknown ∨ (busyCookState.record 3).state = .customer) ∧
      (busyCookState.record 3).assignedClient = none ∧
      ∀ pkt : Pkt, pkt.inRange → (∀ p, pkt ≠ .regCook p) →
        ∃ result, handlerFuncDispatch busyCookState.server 3 pkt = some result ∧
          busyCookState.Isolated 3 result :=
  have hreceived : busyCookState.received 3 = [.custOrder (.ofCodes [1])] := by
    decide +kernel
  unregistered_isolated (s := busyCookState) (Option.some_get busyCookRun_isSome).symm
    (by decide +kernel) (by simp [hreceived])

end SysprogTeam3.FoodSys.OpenServer
