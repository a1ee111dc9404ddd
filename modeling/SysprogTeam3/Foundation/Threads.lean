import Mathlib.Data.List.Perm.Basic
import SysprogTeam3.Foundation.Weights

/-!
# Threads and condition variables

A group of threads is the list of their places in the code.  A thread takes a
step by moving from its place to another one.  `pthread_cond_signal` unblocks
one of the threads that are asleep, if there is one, and
`pthread_cond_broadcast` all of them.
-/

namespace SysprogTeam3.Foundation

open scoped List

variable {φ β : Type}

/-! ## One thread moves -/

section Moves

variable {threads : List φ} {n : Nat} {p : φ}

theorem mem_of_place (h : threads[n]? = some p) : p ∈ threads :=
  List.mem_of_getElem? h

theorem mem_set_of_place (h : threads[n]? = some p) (q : φ) : q ∈ threads.set n q :=
  List.mem_set (List.getElem?_eq_some_iff.mp h).1 q

theorem mem_set_of_ne (h : threads[n]? = some p) {r : φ} (hr : r ∈ threads) (hne : r ≠ p)
    (q : φ) : r ∈ threads.set n q := by
  obtain ⟨m, hm⟩ := List.mem_iff_getElem?.mp hr
  refine List.mem_iff_getElem?.mpr ⟨m, ?_⟩
  rw [List.getElem?_set_ne]
  · exact hm
  · rintro rfl
    exact hne (Option.some.inj (hm.symm.trans h))

theorem forall_mem_set {P : φ → Prop} (h : ∀ r ∈ threads, P r) {q : φ} (hq : P q) (n : Nat) :
    ∀ r ∈ threads.set n q, P r := by
  intro r hr
  rcases List.mem_or_eq_of_mem_set hr with hold | rfl
  · exact h r hold
  · exact hq

theorem exists_split_of_place (h : threads[n]? = some p) :
    ∃ before after, threads = before ++ p :: after ∧
      ∀ q, threads.set n q = before ++ q :: after := by
  obtain ⟨hn, hp⟩ := List.getElem?_eq_some_iff.mp h
  refine ⟨threads.take n, threads.drop (n + 1), ?_, fun q => ?_⟩
  · rw [← hp, List.getElem_cons_drop, List.take_append_drop]
  · rw [List.set_eq_take_append_cons_drop, if_pos hn]

theorem perm_cons_eraseIdx (h : threads[n]? = some p) : threads ~ p :: threads.eraseIdx n := by
  obtain ⟨hn, rfl⟩ := List.getElem?_eq_some_iff.mp h
  exact (List.getElem_cons_eraseIdx_perm hn).symm

theorem countP_set_add (h : threads[n]? = some p) (q : φ) (f : φ → Bool) :
    (threads.set n q).countP f + (if f p then 1 else 0) =
      threads.countP f + (if f q then 1 else 0) := by
  obtain ⟨before, after, hold, hnew⟩ := exists_split_of_place h
  rw [hnew, hold]
  simp only [List.countP_append, List.countP_cons]
  omega

theorem countP_set_of_eq (h : threads[n]? = some p) {q : φ} {f : φ → Bool} (hf : f q = f p) :
    (threads.set n q).countP f = threads.countP f := by
  have hcount := countP_set_add h q f
  rw [hf] at hcount
  omega

theorem filterMap_set_of_eq (h : threads[n]? = some p) {q : φ} {f : φ → Option β}
    (hf : f q = f p) : (threads.set n q).filterMap f = threads.filterMap f := by
  obtain ⟨before, after, hold, hnew⟩ := exists_split_of_place h
  rw [hnew, hold]
  simp only [List.filterMap_append, List.filterMap_cons, hf]

theorem filterMap_set_perm (h : threads[n]? = some p) (q : φ) (f : φ → Option β) :
    (threads.set n q).filterMap f ++ (f p).toList ~
      threads.filterMap f ++ (f q).toList := by
  obtain ⟨before, after, hold, hnew⟩ := exists_split_of_place h
  rw [hnew, hold]
  simp only [List.filterMap_append, List.filterMap_cons]
  cases f p with
  | none =>
      cases f q with
      | none => simp
      | some b =>
          simp only [Option.toList_none, Option.toList_some, List.append_nil, List.append_assoc]
          exact (List.perm_append_singleton _ _).symm.append_left _
  | some a =>
      cases f q with
      | none =>
          simp only [Option.toList_none, Option.toList_some, List.append_nil, List.append_assoc]
          exact (List.perm_append_singleton _ _).append_left _
      | some b =>
          simp only [Option.toList_some, List.append_assoc, List.cons_append]
          refine List.Perm.append_left _ ?_
          calc b :: (List.filterMap f after ++ [a])
            _ ~ b :: a :: List.filterMap f after := (List.perm_append_singleton _ _).cons b
            _ ~ a :: b :: List.filterMap f after := List.Perm.swap a b _
            _ ~ a :: (List.filterMap f after ++ [b]) :=
                ((List.perm_append_singleton _ _).symm).cons a

end Moves

theorem total_set_add {threads : List φ} {n : Nat} {p : φ} (h : threads[n]? = some p) (q : φ)
    (weight : φ → Nat) :
    total weight (threads.set n q) + weight p = total weight threads + weight q := by
  obtain ⟨before, after, hold, hnew⟩ := exists_split_of_place h
  rw [hnew, hold]
  simp only [total_append, total]
  omega

/-! ## Condition variables -/

section Conditions

variable [DecidableEq φ]

/-- `pthread_cond_signal`: the thread that is chosen must be asleep, unless no
thread is. -/
def signal (asleep awake : φ) (woken : Nat) (threads : List φ) : Option (List φ) :=
  if asleep ∈ threads then
    if threads[woken]? = some asleep then some (threads.set woken awake) else none
  else some threads

def broadcast (asleep awake : φ) (threads : List φ) : List φ :=
  threads.map fun p => if p = asleep then awake else p

variable {asleep awake : φ} {threads threads' : List φ} {woken : Nat}

theorem signal_eq_some :
    signal asleep awake woken threads = some threads' ↔
      (asleep ∉ threads ∧ threads' = threads) ∨
        (threads[woken]? = some asleep ∧ threads' = threads.set woken awake) := by
  unfold signal
  by_cases hasleep : asleep ∈ threads
  · by_cases hwoken : threads[woken]? = some asleep <;> simp [hasleep, hwoken, eq_comm]
  · have hwoken : threads[woken]? ≠ some asleep := fun h => hasleep (mem_of_place h)
    simp [hasleep, hwoken, eq_comm]

theorem exists_signal (asleep awake : φ) (threads : List φ) :
    ∃ woken threads', signal asleep awake woken threads = some threads' := by
  by_cases hasleep : asleep ∈ threads
  · obtain ⟨woken, hwoken⟩ := List.mem_iff_getElem?.mp hasleep
    exact ⟨woken, _, signal_eq_some.mpr (.inr ⟨hwoken, rfl⟩)⟩
  · exact ⟨0, _, signal_eq_some.mpr (.inl ⟨hasleep, rfl⟩)⟩

theorem signal_place {n : Nat} {p : φ} (h : signal asleep awake woken threads = some threads')
    (hp : threads[n]? = some p) (hawake : p ≠ asleep) : threads'[n]? = some p := by
  rcases signal_eq_some.mp h with ⟨-, rfl⟩ | ⟨hwoken, rfl⟩
  · exact hp
  · rw [List.getElem?_set_ne]
    · exact hp
    · rintro rfl
      exact hawake (Option.some.inj (hp.symm.trans hwoken))

theorem mem_signal {p : φ} (h : signal asleep awake woken threads = some threads')
    (hp : p ∈ threads') : p = awake ∨ p ∈ threads := by
  rcases signal_eq_some.mp h with ⟨-, rfl⟩ | ⟨-, rfl⟩
  · exact .inr hp
  · exact (List.mem_or_eq_of_mem_set hp).symm

theorem length_signal (h : signal asleep awake woken threads = some threads') :
    threads'.length = threads.length := by
  rcases signal_eq_some.mp h with ⟨-, rfl⟩ | ⟨-, rfl⟩
  · rfl
  · exact List.length_set

theorem forall_mem_signal {P : φ → Prop}
    (h : signal asleep awake woken threads = some threads') (hold : ∀ r ∈ threads, P r)
    (hawake : P awake) : ∀ r ∈ threads', P r := by
  intro r hr
  rcases mem_signal h hr with rfl | hmem
  · exact hawake
  · exact hold r hmem

theorem awake_of_signal (h : signal asleep awake woken threads = some threads')
    (hasleep : asleep ∈ threads) : awake ∈ threads' := by
  rcases signal_eq_some.mp h with ⟨hnone, -⟩ | ⟨hwoken, rfl⟩
  · exact absurd hasleep hnone
  · exact mem_set_of_place hwoken awake

theorem countP_signal {f : φ → Bool} (h : signal asleep awake woken threads = some threads')
    (hf : f awake = f asleep) : threads'.countP f = threads.countP f := by
  rcases signal_eq_some.mp h with ⟨-, rfl⟩ | ⟨hwoken, rfl⟩
  · rfl
  · exact countP_set_of_eq hwoken hf

theorem filterMap_signal {f : φ → Option β}
    (h : signal asleep awake woken threads = some threads') (hf : f awake = f asleep) :
    threads'.filterMap f = threads.filterMap f := by
  rcases signal_eq_some.mp h with ⟨-, rfl⟩ | ⟨hwoken, rfl⟩
  · rfl
  · exact filterMap_set_of_eq hwoken hf

theorem total_signal_le (weight : φ → Nat)
    (h : signal asleep awake woken threads = some threads') :
    total weight threads' ≤ total weight threads + weight awake := by
  rcases signal_eq_some.mp h with ⟨-, rfl⟩ | ⟨hwoken, rfl⟩
  · exact Nat.le_add_right _ _
  · have htotal := total_set_add hwoken awake weight
    omega

theorem total_signal {weight : φ → Nat}
    (h : signal asleep awake woken threads = some threads') (hf : weight awake = weight asleep) :
    total weight threads' = total weight threads := by
  rcases signal_eq_some.mp h with ⟨-, rfl⟩ | ⟨hwoken, rfl⟩
  · rfl
  · have htotal := total_set_add hwoken awake weight
    omega

theorem total_broadcast {weight : φ → Nat} (hf : weight awake = weight asleep) :
    total weight (broadcast asleep awake threads) = total weight threads := by
  induction threads with
  | nil => rfl
  | cons p threads ih =>
      have hhead : weight (if p = asleep then awake else p) = weight p := by
        by_cases hp : p = asleep
        · rw [if_pos hp, hf, hp]
        · rw [if_neg hp]
      rw [broadcast, List.map_cons, total, total, hhead]
      exact congrArg _ ih

theorem not_mem_broadcast (h : awake ≠ asleep) : asleep ∉ broadcast asleep awake threads := by
  simp only [broadcast, List.mem_map, not_exists, not_and]
  intro p _
  by_cases hp : p = asleep
  · simp [hp, h]
  · simp [hp]

theorem countP_broadcast {f : φ → Bool} (h : f awake = f asleep) :
    (broadcast asleep awake threads).countP f = threads.countP f := by
  rw [broadcast, List.countP_map]
  refine List.countP_congr fun p _ => ?_
  by_cases hp : p = asleep
  · simp [hp, h]
  · simp [hp]

theorem map_broadcast {f : φ → β} (h : f awake = f asleep) :
    (broadcast asleep awake threads).map f = threads.map f := by
  rw [broadcast, List.map_map]
  refine List.map_congr_left fun p _ => ?_
  by_cases hp : p = asleep
  · simp [hp, h]
  · simp [hp]

theorem filterMap_broadcast {f : φ → Option β} (h : f awake = f asleep) :
    (broadcast asleep awake threads).filterMap f = threads.filterMap f := by
  rw [broadcast, List.filterMap_map]
  refine List.filterMap_congr fun p _ => ?_
  by_cases hp : p = asleep
  · simp [hp, h]
  · simp [hp]

end Conditions

end SysprogTeam3.Foundation
