import Mathlib.Data.List.Nodup
import Mathlib.Data.List.Perm.Subperm
import Mathlib.Logic.Function.Basic

/-!
# Linked lists in a heap

A linked list is a pointer to its first item and, in every item, a pointer to the
next one.  A heap is given here by its links alone: `next a` is the pointer in the
item at `a`, and `none` is NULL.  Insertion changes the links of two items; a loop
over the list follows the links until a test holds.
-/

namespace SysprogTeam3.Foundation

variable {α : Type} {next : α → Option α}

/-- Following the links from `p` visits exactly these items and arrives at `q`. -/
def Segment (next : α → Option α) : Option α → List α → Option α → Prop
  | p, [], q => p = q
  | p, a :: items, q => p = some a ∧ Segment next (next a) items q

abbrev Chain (next : α → Option α) (p : Option α) (items : List α) : Prop :=
  Segment next p items none

@[simp] theorem segment_nil {p q : Option α} : Segment next p [] q ↔ p = q := Iff.rfl

@[simp] theorem segment_cons {p q : Option α} {a : α} {items : List α} :
    Segment next p (a :: items) q ↔ p = some a ∧ Segment next (next a) items q := Iff.rfl

theorem segment_split {p q : Option α} {first rest : List α} {a : α} :
    Segment next p (first ++ a :: rest) q ↔
      Segment next p first (some a) ∧ Segment next (next a) rest q := by
  induction first generalizing p with
  | nil => simp
  | cons b first ih => simp [ih, and_assoc]

theorem Segment.congr {next' : α → Option α} {p q : Option α} {items : List α}
    (hsame : ∀ a ∈ items, next' a = next a) (h : Segment next p items q) :
    Segment next' p items q := by
  induction items generalizing p with
  | nil => exact h
  | cons a items ih =>
      obtain ⟨hp, hrest⟩ := h
      refine ⟨hp, ?_⟩
      rw [hsame a List.mem_cons_self]
      exact ih (fun b hb => hsame b (List.mem_cons_of_mem a hb)) hrest

theorem Chain.unique {p : Option α} {items items' : List α} (h : Chain next p items)
    (h' : Chain next p items') : items = items' := by
  induction items generalizing p items' with
  | nil =>
      cases items' with
      | nil => rfl
      | cons a items' => exact absurd (h.symm.trans h'.1) (by simp)
  | cons a items ih =>
      cases items' with
      | nil => exact absurd (h'.symm.trans h.1) (by simp)
      | cons a' items' =>
          obtain rfl : a = a' := Option.some.inj (h.1.symm.trans h'.1)
          rw [ih h.2 h'.2]

theorem Chain.nodup {p : Option α} {items : List α} (h : Chain next p items) :
    items.Nodup := by
  induction items generalizing p with
  | nil => exact List.nodup_nil
  | cons a items ih =>
      refine List.nodup_cons.mpr ⟨fun ha => ?_, ih h.2⟩
      obtain ⟨first, rest, rfl⟩ := List.append_of_mem ha
      -- both visits of the item start the same list
      have hagain : Chain next (next a) rest := (segment_split.mp h.2).2
      have hlength := congrArg List.length (Chain.unique h.2 hagain)
      simp at hlength
      omega

theorem Chain.link {p : Option α} {first rest : List α} {a : α}
    (h : Chain next p (first ++ a :: rest)) : next a = rest.head? := by
  obtain ⟨-, hrest⟩ := segment_split.mp h
  cases rest with
  | nil => exact hrest
  | cons b rest => exact hrest.1

/-! ## Insertion -/

section Insertion

variable [DecidableEq α]

theorem Segment.update {p q : Option α} {items : List α} {a : α} (ha : a ∉ items)
    (link : Option α) (h : Segment next p items q) :
    Segment (Function.update next a link) p items q :=
  h.congr fun _ hb => Function.update_of_ne (ne_of_mem_of_not_mem hb ha) _ _

theorem Chain.insertFirst {p : Option α} {items : List α} {b : α} (hb : b ∉ items)
    (h : Chain next p items) : Chain (Function.update next b p) (some b) (b :: items) := by
  refine ⟨rfl, ?_⟩
  rw [Function.update_self]
  exact h.update hb p

theorem Chain.insertAfter {p : Option α} {first rest : List α} {a b : α}
    (hb : b ∉ first ++ a :: rest) (h : Chain next p (first ++ a :: rest)) :
    Chain (Function.update (Function.update next b (next a)) a (some b)) p
      (first ++ a :: b :: rest) := by
  have hnodup := h.nodup
  rw [List.nodup_append, List.nodup_cons] at hnodup
  obtain ⟨-, ⟨harest, -⟩, hdisjoint⟩ := hnodup
  have hafirst : a ∉ first := fun ha => hdisjoint a ha a List.mem_cons_self rfl
  simp only [List.mem_append, List.mem_cons, not_or] at hb
  obtain ⟨hbfirst, hba, hbrest⟩ := hb
  obtain ⟨hfirst, hrest⟩ := segment_split.mp h
  refine segment_split.mpr ?_
  rw [segment_cons, Function.update_self, Function.update_of_ne hba, Function.update_self]
  exact ⟨(hfirst.update hbfirst _).update hafirst _, rfl,
    (hrest.update hbrest _).update harest _⟩

/-- The item behind `c` is taken out by giving its link to `c`. -/
theorem Chain.unlink {p : Option α} {first rest : List α} {c a : α}
    (h : Chain next p (first ++ c :: a :: rest)) :
    Chain (Function.update next c (next a)) p (first ++ c :: rest) := by
  have hnodup := h.nodup
  rw [List.nodup_append, List.nodup_cons] at hnodup
  obtain ⟨-, ⟨hcrest, -⟩, hdisjoint⟩ := hnodup
  have hcfirst : c ∉ first := fun hc => hdisjoint c hc c List.mem_cons_self rfl
  obtain ⟨hfirst, hrest⟩ := segment_split.mp h
  refine segment_split.mpr ⟨hfirst.update hcfirst _, ?_⟩
  rw [Function.update_self]
  exact hrest.2.update (fun hc => hcrest (List.mem_cons_of_mem a hc)) _

end Insertion

/-! ## Loops -/

/-- `while (item) { if (stop) return item; item = item->next; } return NULL;`,
`none` when the loop takes more rounds than `fuel`. -/
def walk (next : α → Option α) (stop : α → Bool) : Nat → Option α → Option (Option α)
  | 0, _ => none
  | _ + 1, none => some none
  | fuel + 1, some a => if stop a then some (some a) else walk next stop fuel (next a)

theorem walk_eq {stop : α → Bool} {p : Option α} {first : List α} {a : α} {fuel : Nat}
    (h : Segment next p first (some a)) (hfirst : ∀ b ∈ first, stop b = false)
    (ha : stop a = true) (hfuel : first.length < fuel) :
    walk next stop fuel p = some (some a) := by
  induction first generalizing p fuel with
  | nil =>
      obtain ⟨fuel, rfl⟩ := Nat.exists_eq_succ_of_ne_zero (Nat.ne_of_gt hfuel)
      rw [segment_nil] at h
      rw [h, walk, if_pos ha]
  | cons b first ih =>
      obtain ⟨fuel, rfl⟩ := Nat.exists_eq_succ_of_ne_zero (Nat.ne_zero_of_lt hfuel)
      have hb := hfirst b List.mem_cons_self
      rw [h.1, walk, if_neg (by simp [hb])]
      exact ih h.2 (fun c hc => hfirst c (List.mem_cons_of_mem b hc))
        (Nat.lt_of_succ_lt_succ hfuel)

theorem Chain.walk_none {stop : α → Bool} {p : Option α} {items : List α} {fuel : Nat}
    (h : Chain next p items) (hitems : ∀ a ∈ items, stop a = false)
    (hfuel : items.length < fuel) : walk next stop fuel p = some none := by
  induction items generalizing p fuel with
  | nil =>
      obtain ⟨fuel, rfl⟩ := Nat.exists_eq_succ_of_ne_zero (Nat.ne_of_gt hfuel)
      rw [show p = none from h, walk]
  | cons a items ih =>
      obtain ⟨fuel, rfl⟩ := Nat.exists_eq_succ_of_ne_zero (Nat.ne_zero_of_lt hfuel)
      have ha := hitems a List.mem_cons_self
      rw [h.1, walk, if_neg (by simp [ha])]
      exact ih h.2 (fun b hb => hitems b (List.mem_cons_of_mem a hb))
        (Nat.lt_of_succ_lt_succ hfuel)

theorem Chain.walk_find {stop : α → Bool} {p : Option α} {items : List α} {fuel : Nat}
    (h : Chain next p items) (hfuel : items.length < fuel) :
    walk next stop fuel p = some (items.find? stop) := by
  cases hfound : items.find? stop with
  | none =>
      have hnone : ∀ a ∈ items, stop a = false := by simpa using hfound
      exact h.walk_none hnone hfuel
  | some a =>
      obtain ⟨ha, first, rest, rfl, hfirst⟩ := List.find?_eq_some_iff_append.mp hfound
      rw [List.length_append, List.length_cons] at hfuel
      exact walk_eq (segment_split.mp h).1 (fun b hb => by simpa using hfirst b hb) ha
        (by omega)

theorem Chain.walk_last {p : Option α} {first : List α} {a : α} {fuel : Nat}
    (h : Chain next p (first ++ [a])) (hfuel : first.length < fuel) :
    walk next (fun b => (next b).isNone) fuel p = some (some a) := by
  refine walk_eq (segment_split.mp h).1 (fun b hb => ?_) ?_ hfuel
  · obtain ⟨before, after, rfl⟩ := List.append_of_mem hb
    rw [List.append_assoc, List.cons_append] at h
    rw [h.link]
    cases after <;> rfl
  · rw [h.link]
    rfl

def visited (next : α → Option α) : Nat → Option α → List α
  | 0, _ | _ + 1, none => []
  | fuel + 1, some a => a :: visited next fuel (next a)

theorem Chain.visited_eq {p : Option α} {items : List α} (h : Chain next p items) :
    visited next items.length p = items := by
  induction items generalizing p with
  | nil => rfl
  | cons a items ih => rw [h.1, List.length_cons, visited, ih h.2]

theorem Chain.length_le {n : Nat} {next : Nat → Option Nat} {p : Option Nat}
    {items : List Nat} (h : Chain next p items) (hbelow : ∀ a ∈ items, a < n) :
    items.length ≤ n := by
  have hsubset : items ⊆ List.range n := fun a ha => List.mem_range.mpr (hbelow a ha)
  simpa using (List.subperm_of_subset h.nodup hsubset).length_le

end SysprogTeam3.Foundation
