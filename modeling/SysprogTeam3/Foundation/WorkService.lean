import SysprogTeam3.Foundation.Runs
import SysprogTeam3.Foundation.Threads

/-!
# Workers that serve a queue

The purpose of a thread pool: works are queued in the order in which they are
added, an idle worker takes the oldest one, calls it and finishes it.  Over a
whole run no work is lost, none is done twice, and they are taken in order.
-/

namespace SysprogTeam3.Foundation

open scoped List

inductive Hand (ω : Type) where
  | empty
  | holding (work : ω)
  | running (work : ω)
  deriving DecidableEq

structure WorkService (ω : Type) where
  queue : List ω
  hands : List (Hand ω)

inductive WorkAction (ω : Type) where
  | add (work : ω)
  | take (worker : Nat) (work : ω)
  | call (worker : Nat) (work : ω)
  | finish (worker : Nat) (work : ω)

variable {ω : Type}

namespace Hand

def held : Hand ω → Option ω
  | .holding work => some work
  | _ => none

def called : Hand ω → Option ω
  | .running work => some work
  | _ => none

end Hand

namespace WorkAction

def added : WorkAction ω → Option ω
  | .add work => some work
  | _ => none

def taken : WorkAction ω → Option ω
  | .take _ work => some work
  | _ => none

def called : WorkAction ω → Option ω
  | .call _ work => some work
  | _ => none

def finished : WorkAction ω → Option ω
  | .finish _ work => some work
  | _ => none

end WorkAction

namespace WorkService

def initial (workers : Nat) : WorkService ω := ⟨[], List.replicate workers .empty⟩

variable [DecidableEq ω]

def step (t : WorkService ω) : WorkAction ω → Option (WorkService ω)
  | .add work => some { t with queue := t.queue ++ [work] }
  | .take worker work =>
      if t.queue.head? = some work ∧ t.hands[worker]? = some .empty then
        some ⟨t.queue.tail, t.hands.set worker (.holding work)⟩
      else none
  | .call worker work =>
      if t.hands[worker]? = some (.holding work) then
        some { t with hands := t.hands.set worker (.running work) }
      else none
  | .finish worker work =>
      if t.hands[worker]? = some (.running work) then
        some { t with hands := t.hands.set worker .empty }
      else none

variable {t t' : WorkService ω} {actions : List (WorkAction ω)}

/-! ## Bookkeeping of a run -/

theorem filterMap_cons_eq {α β : Type} (f : α → Option β) (a : α) (items : List α) :
    (a :: items).filterMap f = (f a).toList ++ items.filterMap f := by
  cases hf : f a <;> simp [hf]

theorem filterMap_append_perm {moved arrived : WorkAction ω → Option ω}
    {place : WorkService ω → List ω}
    (hstep : ∀ t action t', step t action = some t' →
      (moved action).toList ++ place t' ~ place t ++ (arrived action).toList)
    (hrun : run step t actions = some t') :
    actions.filterMap moved ++ place t' ~ place t ++ actions.filterMap arrived := by
  induction actions generalizing t with
  | nil =>
      simp only [run_nil, Option.some.injEq] at hrun
      simp [hrun]
  | cons action actions ih =>
      obtain ⟨next, hnext, hrest⟩ := run_cons_eq_some.mp hrun
      rw [filterMap_cons_eq, filterMap_cons_eq]
      calc (moved action).toList ++ actions.filterMap moved ++ place t'
        _ ~ (moved action).toList ++ (place next ++ actions.filterMap arrived) := by
            rw [List.append_assoc]
            exact (ih hrest).append_left _
        _ ~ place t ++ (arrived action).toList ++ actions.filterMap arrived := by
            rw [← List.append_assoc]
            exact (hstep t action next hnext).append_right _
        _ ~ place t ++ ((arrived action).toList ++ actions.filterMap arrived) := by
            rw [List.append_assoc]

theorem queue_step {action : WorkAction ω} (hstep : t.step action = some t') :
    action.taken.toList ++ t'.queue = t.queue ++ action.added.toList := by
  cases action with
  | add work =>
      simp only [step, Option.some.injEq] at hstep
      subst hstep
      rfl
  | take worker work =>
      simp only [step, Option.ite_none_right_eq_some, Option.some.injEq] at hstep
      obtain ⟨⟨hhead, -⟩, rfl⟩ := hstep
      obtain ⟨rest, hqueue⟩ := List.head?_eq_some_iff.mp hhead
      simp [WorkAction.taken, WorkAction.added, hqueue]
  | call worker work | finish worker work =>
      simp only [step, Option.ite_none_right_eq_some, Option.some.injEq] at hstep
      obtain ⟨-, rfl⟩ := hstep
      simp [WorkAction.taken, WorkAction.added]

theorem taken_append_queue (hrun : run step t actions = some t') :
    actions.filterMap WorkAction.taken ++ t'.queue =
      t.queue ++ actions.filterMap WorkAction.added := by
  induction actions generalizing t with
  | nil =>
      simp only [run_nil, Option.some.injEq] at hrun
      simp [hrun]
  | cons action actions ih =>
      obtain ⟨next, hnext, hrest⟩ := run_cons_eq_some.mp hrun
      rw [filterMap_cons_eq, filterMap_cons_eq, List.append_assoc, ih hrest,
        ← List.append_assoc, queue_step hnext, List.append_assoc]

theorem hands_step {action : WorkAction ω} (hstep : t.step action = some t') :
    action.called.toList ++ t'.hands.filterMap Hand.held ~
        t.hands.filterMap Hand.held ++ action.taken.toList ∧
      action.finished.toList ++ t'.hands.filterMap Hand.called ~
        t.hands.filterMap Hand.called ++ action.called.toList := by
  cases action with
  | add work =>
      simp only [step, Option.some.injEq] at hstep
      subst hstep
      simp [WorkAction.called, WorkAction.taken, WorkAction.finished]
  | take worker work =>
      simp only [step, Option.ite_none_right_eq_some, Option.some.injEq] at hstep
      obtain ⟨⟨-, hhand⟩, rfl⟩ := hstep
      have hheld := filterMap_set_perm hhand (.holding work) Hand.held
      have hcalled := filterMap_set_of_eq (f := Hand.called) hhand (q := .holding work) rfl
      simp only [Hand.held, Option.toList_none, List.append_nil] at hheld
      exact ⟨hheld, by simp [WorkAction.finished, WorkAction.called, hcalled]⟩
  | call worker work =>
      simp only [step, Option.ite_none_right_eq_some, Option.some.injEq] at hstep
      obtain ⟨hhand, rfl⟩ := hstep
      have hheld := filterMap_set_perm hhand (.running work) Hand.held
      have hcalled := filterMap_set_perm hhand (.running work) Hand.called
      simp only [Hand.held, Hand.called, Option.toList_none, List.append_nil] at hheld hcalled
      refine ⟨?_, hcalled⟩
      exact List.perm_append_comm.trans (hheld.trans (by simp [WorkAction.taken]))
  | finish worker work =>
      simp only [step, Option.ite_none_right_eq_some, Option.some.injEq] at hstep
      obtain ⟨hhand, rfl⟩ := hstep
      have hheld := filterMap_set_of_eq (f := Hand.held) hhand (q := .empty) rfl
      have hcalled := filterMap_set_perm hhand .empty Hand.called
      simp only [Hand.called, Option.toList_none, List.append_nil] at hcalled
      refine ⟨by simp [WorkAction.called, WorkAction.taken, hheld], ?_⟩
      exact List.perm_append_comm.trans (hcalled.trans (by simp [WorkAction.called]))

theorem running_step {action : WorkAction ω} (hstep : t.step action = some t') {m : Nat}
    {work : ω} (hm : t.hands[m]? = some (.running work)) :
    t'.hands[m]? = some (.running work) ∨ action = .finish m work := by
  -- a worker that gets a work, or calls one, does not run one
  have hset : ∀ n hand next, t.hands[n]? = some hand → hand ≠ .running work →
      (t.hands.set n next)[m]? = some (.running work) := by
    intro n hand next hn hother
    have hne : n ≠ m := by
      rintro rfl
      exact hother (Option.some.inj (hn.symm.trans hm))
    rw [List.getElem?_set_ne hne]
    exact hm
  cases action with
  | add other =>
      simp only [step, Option.some.injEq] at hstep
      subst hstep
      exact .inl hm
  | take n other =>
      simp only [step, Option.ite_none_right_eq_some, Option.some.injEq] at hstep
      obtain ⟨⟨-, hn⟩, rfl⟩ := hstep
      exact .inl (hset n _ _ hn (by simp))
  | call n other =>
      simp only [step, Option.ite_none_right_eq_some, Option.some.injEq] at hstep
      obtain ⟨hn, rfl⟩ := hstep
      exact .inl (hset n _ _ hn (by simp))
  | finish n other =>
      simp only [step, Option.ite_none_right_eq_some, Option.some.injEq] at hstep
      obtain ⟨hn, rfl⟩ := hstep
      by_cases hother : Hand.running other = Hand.running work
      · by_cases hnm : n = m
        · exact .inr (by rw [hnm, Hand.running.inj hother])
        · exact .inl (by rwa [List.getElem?_set_ne hnm])
      · exact .inl (hset n _ _ hn hother)

theorem called_append_held (hrun : run step t actions = some t') :
    actions.filterMap WorkAction.called ++ t'.hands.filterMap Hand.held ~
      t.hands.filterMap Hand.held ++ actions.filterMap WorkAction.taken :=
  filterMap_append_perm (fun _ _ _ hstep => (hands_step hstep).1) hrun

theorem finished_append_running (hrun : run step t actions = some t') :
    actions.filterMap WorkAction.finished ++ t'.hands.filterMap Hand.called ~
      t.hands.filterMap Hand.called ++ actions.filterMap WorkAction.called :=
  filterMap_append_perm (fun _ _ _ hstep => (hands_step hstep).2) hrun

end WorkService

end SysprogTeam3.Foundation
