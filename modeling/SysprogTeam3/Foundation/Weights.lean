import Mathlib.Data.List.Nodup

/-!
# Weights

What a list of places or of packets weighs in all: the measure of a system that
works until nothing is left is a total of this kind.
-/

namespace SysprogTeam3.Foundation

variable {φ : Type}

def total (weight : φ → Nat) : List φ → Nat
  | [] => 0
  | p :: entries => weight p + total weight entries

theorem total_append (weight : φ → Nat) (first second : List φ) :
    total weight (first ++ second) = total weight first + total weight second := by
  induction first with
  | nil => simp [total]
  | cons p first ih => simp [total, ih, Nat.add_assoc]

theorem total_congr {f g : φ → Nat} {keys : List φ} (h : ∀ p ∈ keys, g p = f p) :
    total g keys = total f keys := by
  induction keys with
  | nil => rfl
  | cons p keys ih =>
      have hhead := h p List.mem_cons_self
      have hrest := ih fun q hq => h q (List.mem_cons_of_mem p hq)
      simp only [total, hhead, hrest]

theorem total_le_mul {f g : φ → Nat} {keys : List φ} (k : Nat) (h : ∀ p, g p ≤ f p + k) :
    total g keys ≤ total f keys + k * keys.length := by
  induction keys with
  | nil => exact Nat.zero_le _
  | cons p keys ih =>
      have hhead := h p
      simp only [total, List.length_cons, Nat.mul_succ]
      omega

theorem total_add (f g : φ → Nat) (keys : List φ) :
    total (fun p => f p + g p) keys = total f keys + total g keys := by
  induction keys with
  | nil => rfl
  | cons p keys ih =>
      simp only [total, ih]
      omega

theorem total_le_add {f g : φ → Nat} {a : φ} {n : Nat} {keys : List φ} (hnodup : keys.Nodup)
    (hsame : ∀ p, p ≠ a → g p = f p) (hgrows : g a ≤ f a + n) :
    total g keys ≤ total f keys + n := by
  induction keys with
  | nil => exact Nat.zero_le _
  | cons p keys ih =>
      rw [List.nodup_cons] at hnodup
      simp only [total]
      by_cases hp : p = a
      · subst hp
        have hrest : total g keys = total f keys :=
          total_congr fun q hq => hsame q (ne_of_mem_of_not_mem hq hnodup.1)
        omega
      · have hrest := ih hnodup.2
        have hhead := hsame p hp
        omega

theorem total_add_le {f g : φ → Nat} {a : φ} {n : Nat} {keys : List φ} (hnodup : keys.Nodup)
    (ha : a ∈ keys) (hsame : ∀ p, p ≠ a → g p = f p) (hshrinks : g a + n ≤ f a) :
    total g keys + n ≤ total f keys := by
  induction keys with
  | nil => simp at ha
  | cons p keys ih =>
      rw [List.nodup_cons] at hnodup
      simp only [total]
      by_cases hp : p = a
      · subst hp
        have hrest : total g keys = total f keys :=
          total_congr fun q hq => hsame q (ne_of_mem_of_not_mem hq hnodup.1)
        omega
      · have hrest := ih hnodup.2 (List.mem_of_ne_of_mem (Ne.symm hp) ha)
        have hhead := hsame p hp
        omega

end SysprogTeam3.Foundation
