import Mathlib.Order.Defs.LinearOrder
import Mathlib.Order.Lattice
import Mathlib.Data.List.Basic

/-!
# Logs grouped by key

A sequence of values, each with a key, is kept as a list of keys in ascending
order, each with its values in the order in which they came.  `record` adds one
value; `LogOf` says that a list is exactly the log of a sequence.
-/

namespace SysprogTeam3.Foundation

variable {κ μ : Type} [LinearOrder κ]

/-- Add a value to its key, or the key with this value in its place. -/
def record (key : κ) (value : μ) : List (κ × List μ) → List (κ × List μ)
  | [] => [(key, [value])]
  | e :: rest =>
      if e.1 = key then (key, e.2 ++ [value]) :: rest
      else if key < e.1 then (key, [value]) :: e :: rest
      else e :: record key value rest

def valuesOf (key : κ) (sequence : List (κ × μ)) : List μ :=
  sequence.filterMap fun x => if x.1 = key then some x.2 else none

/-- The list is the log of the sequence. -/
structure LogOf (sequence : List (κ × μ)) (log : List (κ × List μ)) : Prop where
  ascending : (log.map Prod.fst).Pairwise (· < ·)
  keys : ∀ key, key ∈ log.map Prod.fst ↔ key ∈ sequence.map Prod.fst
  values : ∀ e ∈ log, e.2 = valuesOf e.1 sequence

variable {key : κ} {value : μ} {before after log : List (κ × List μ)}

theorem record_found {values : List μ} (hbefore : ∀ e ∈ before, e.1 < key) :
    record key value (before ++ (key, values) :: after) =
      before ++ (key, values ++ [value]) :: after := by
  induction before with
  | nil => simp [record]
  | cons e before ih =>
      have he : e.1 < key := hbefore e List.mem_cons_self
      rw [List.cons_append, record, if_neg he.ne, if_neg he.not_gt,
        ih fun x hx => hbefore x (List.mem_cons_of_mem e hx)]
      rfl

theorem record_new (hbefore : ∀ e ∈ before, e.1 < key)
    (hafter : ∀ e ∈ after.head?, key < e.1) :
    record key value (before ++ after) = before ++ (key, [value]) :: after := by
  induction before with
  | nil =>
      cases after with
      | nil => rfl
      | cons e after =>
          have he : key < e.1 := hafter e rfl
          rw [List.nil_append, record, if_neg he.ne', if_pos he]
          rfl
  | cons e before ih =>
      have he : e.1 < key := hbefore e List.mem_cons_self
      rw [List.cons_append, record, if_neg he.ne, if_neg he.not_gt,
        ih fun x hx => hbefore x (List.mem_cons_of_mem e hx)]
      rfl

def valueCount (log : List (κ × List μ)) : Nat := (log.flatMap Prod.snd).length

theorem valueCount_record (key : κ) (value : μ) (log : List (κ × List μ)) :
    valueCount (record key value log) = valueCount log + 1 := by
  induction log with
  | nil => rfl
  | cons e log ih =>
      unfold valueCount at ih ⊢
      rw [record]
      split
      · simp only [List.flatMap_cons, List.length_append, List.length_singleton]
        omega
      · split
        · simp only [List.flatMap_cons, List.length_append, List.length_singleton]
          omega
        · simp only [List.flatMap_cons, List.length_append, ih]
          omega

theorem record_ne (key : κ) (value : μ) (log : List (κ × List μ)) :
    record key value log ≠ log := by
  intro h
  have hcount := valueCount_record key value log
  rw [h] at hcount
  omega

theorem record_cons_eq (value : μ) (e : κ × List μ) (log : List (κ × List μ)) :
    record e.1 value (e :: log) = (e.1, e.2 ++ [value]) :: log := if_pos rfl

theorem record_cons_lt {e : κ × List μ} (h : key < e.1) (value : μ) :
    record key value (e :: log) = (key, [value]) :: e :: log := by
  rw [record, if_neg h.ne', if_pos h]

theorem record_cons_gt {e : κ × List μ} (h : e.1 < key) (value : μ) :
    record key value (e :: log) = e :: record key value log := by
  rw [record, if_neg h.ne, if_neg h.not_gt]

theorem record_inj {key' : κ} {value' : μ}
    (h : record key value log = record key' value' log) : key = key' ∧ value = value' := by
  induction log with
  | nil => simpa [record] using h
  | cons e log ih =>
      rcases lt_trichotomy key e.1 with hlt | rfl | hgt
      · rw [record_cons_lt hlt] at h
        rcases lt_trichotomy key' e.1 with hlt' | rfl | hgt'
        · rw [record_cons_lt hlt'] at h
          simpa using h
        · rw [record_cons_eq] at h
          exact absurd (congrArg Prod.fst (List.cons.inj h).1) hlt.ne
        · rw [record_cons_gt hgt'] at h
          exact absurd (congrArg Prod.fst (List.cons.inj h).1) hlt.ne
      · rw [record_cons_eq] at h
        rcases lt_trichotomy key' e.1 with hlt' | rfl | hgt'
        · rw [record_cons_lt hlt'] at h
          exact absurd (congrArg Prod.fst (List.cons.inj h).1) hlt'.ne'
        · rw [record_cons_eq] at h
          simpa using h
        · rw [record_cons_gt hgt'] at h
          have hvalues := congrArg Prod.snd (List.cons.inj h).1
          exact absurd hvalues (by simp)
      · rw [record_cons_gt hgt] at h
        rcases lt_trichotomy key' e.1 with hlt' | rfl | hgt'
        · rw [record_cons_lt hlt'] at h
          exact absurd (congrArg Prod.fst (List.cons.inj h).1) hlt'.ne'
        · rw [record_cons_eq] at h
          have hvalues := congrArg Prod.snd (List.cons.inj h).1
          exact absurd hvalues (by simp)
        · rw [record_cons_gt hgt'] at h
          exact ih (List.cons.inj h).2

variable (key value) in
theorem record_split (hlog : (log.map Prod.fst).Pairwise (· < ·)) :
    ∃ before values after,
      record key value log = before ++ (key, values ++ [value]) :: after ∧
      (log = before ++ (key, values) :: after ∨ log = before ++ after ∧ values = []) ∧
      (∀ e ∈ before, e.1 < key) ∧ ∀ e ∈ after, key < e.1 := by
  induction log with
  | nil => exact ⟨[], [], [], rfl, .inr ⟨rfl, rfl⟩, by simp, by simp⟩
  | cons e log ih =>
      rw [List.map_cons, List.pairwise_cons] at hlog
      have hrest : ∀ x ∈ log, e.1 < x.1 := fun x hx => hlog.1 _ (List.mem_map_of_mem hx)
      rw [record]
      split
      case isTrue heq =>
          subst heq
          exact ⟨[], e.2, log, rfl, .inl rfl, by simp, hrest⟩
      case isFalse hne =>
          split
          case isTrue hlt =>
              refine ⟨[], [], e :: log, rfl, .inr ⟨rfl, rfl⟩, by simp, fun x hx => ?_⟩
              rcases List.mem_cons.mp hx with rfl | hx
              · exact hlt
              · exact hlt.trans (hrest x hx)
          case isFalse hge =>
              obtain ⟨before, values, after, heq, hold, hbefore, hafter⟩ := ih hlog.2
              have he : e.1 < key := lt_of_le_of_ne (not_lt.mp hge) hne
              refine ⟨e :: before, values, after, by rw [heq]; rfl, ?_, fun x hx => ?_,
                hafter⟩
              · rcases hold with rfl | ⟨rfl, hnil⟩
                · exact .inl rfl
                · exact .inr ⟨rfl, hnil⟩
              · rcases List.mem_cons.mp hx with rfl | hx
                · exact he
                · exact hbefore x hx

theorem valuesOf_append (key : κ) (sequence : List (κ × μ)) (x : κ × μ) :
    valuesOf key (sequence ++ [x]) =
      valuesOf key sequence ++ if x.1 = key then [x.2] else [] := by
  rw [valuesOf, List.filterMap_append, valuesOf]
  by_cases h : x.1 = key <;> simp [h]

theorem valuesOf_eq_nil {sequence : List (κ × μ)} (hnone : key ∉ sequence.map Prod.fst) :
    valuesOf key sequence = [] := by
  rw [valuesOf, List.filterMap_eq_nil_iff]
  intro x hx
  have hne : x.1 ≠ key := fun heq => hnone (heq ▸ List.mem_map_of_mem hx)
  exact if_neg hne

theorem LogOf.nil : LogOf ([] : List (κ × μ)) [] where
  ascending := List.Pairwise.nil
  keys := by simp
  values := by simp

theorem ascending_insert {smaller larger : List κ}
    (h : (smaller ++ larger).Pairwise (· < ·)) (hsmaller : ∀ k ∈ smaller, k < key)
    (hlarger : ∀ k ∈ larger, key < k) : (smaller ++ key :: larger).Pairwise (· < ·) := by
  rw [List.pairwise_append] at h
  rw [List.pairwise_append, List.pairwise_cons]
  refine ⟨h.1, ⟨hlarger, h.2.1⟩, fun k hk k' hk' => ?_⟩
  rcases List.mem_cons.mp hk' with rfl | hk'
  · exact hsmaller k hk
  · exact (hsmaller k hk).trans (hlarger k' hk')

theorem ascending_middle {values : List μ}
    (h : ((before ++ after).map Prod.fst).Pairwise (· < ·))
    (hbefore : ∀ e ∈ before, e.1 < key) (hafter : ∀ e ∈ after, key < e.1) :
    ((before ++ (key, values) :: after).map Prod.fst).Pairwise (· < ·) := by
  rw [List.map_append] at h
  rw [List.map_append, List.map_cons]
  refine ascending_insert h (fun k hk => ?_) fun k hk => ?_
  · obtain ⟨e, he, rfl⟩ := List.mem_map.mp hk
    exact hbefore e he
  · obtain ⟨e, he, rfl⟩ := List.mem_map.mp hk
    exact hafter e he

theorem LogOf.record {sequence : List (κ × μ)} (h : LogOf sequence log) (x : κ × μ) :
    LogOf (sequence ++ [x]) (record x.1 x.2 log) := by
  obtain ⟨before, values, after, heq, hold, hbefore, hafter⟩ :=
    record_split x.1 x.2 h.ascending
  have hothers : ∀ e ∈ before ++ after, e ∈ log ∧ e.1 ≠ x.1 := by
    intro e he
    constructor
    · rcases hold with rfl | ⟨rfl, -⟩
      · rcases List.mem_append.mp he with he | he
        · exact List.mem_append_left _ he
        · exact List.mem_append_right _ (List.mem_cons_of_mem _ he)
      · exact he
    · rcases List.mem_append.mp he with he | he
      · exact (hbefore e he).ne
      · exact (hafter e he).ne'
  have hvalues : values = valuesOf x.1 sequence := by
    rcases hold with rfl | ⟨rfl, rfl⟩
    · exact h.values (x.1, values) (by simp)
    · refine (valuesOf_eq_nil fun hmem => ?_).symm
      obtain ⟨e, he, hkey⟩ := List.mem_map.mp ((h.keys _).mpr hmem)
      exact (hothers e he).2 hkey
  rw [heq]
  refine ⟨?_, fun key => ?_, fun e he => ?_⟩
  · refine ascending_middle ?_ hbefore hafter
    rcases hold with rfl | ⟨rfl, -⟩
    · exact h.ascending.sublist (by simp)
    · exact h.ascending
  · have hlog : key ∈ log.map Prod.fst ∨ key = x.1 ↔
        key ∈ (before ++ (x.1, values ++ [x.2]) :: after).map Prod.fst := by
      rcases hold with rfl | ⟨rfl, -⟩ <;>
        simp only [List.map_append, List.map_cons, List.mem_append, List.mem_cons] <;> tauto
    rw [← hlog, h.keys, List.map_append, List.mem_append, List.map_singleton,
      List.mem_singleton]
  · rw [valuesOf_append]
    rcases List.mem_cons.mp (List.perm_middle.mem_iff.mp he) with rfl | he
    · rw [if_pos rfl, hvalues]
    · obtain ⟨hmem, hne⟩ := hothers e he
      rw [if_neg hne.symm, List.append_nil, h.values e hmem]

end SysprogTeam3.Foundation
