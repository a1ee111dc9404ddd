import SysprogTeam3.BasicServer.Refinement

/-!
# The search for a group's place

`get_group_list_item_or_insert_point` gives back one pointer for three outcomes.  On a
list with strictly ascending ids it is the last item that is not greater than the
group, and `get_group_list_for_write` keeps the ids ascending.
-/

namespace SysprogTeam3.BasicServer

open SysprogTeam3.Foundation

namespace Mem

def groupId (m : Mem) (a : Addr) : Int := (m.groups a).group

structure Sorted (m : Mem) (head : Option Addr) (items : List Addr) : Prop where
  chain : Chain m.nextGroup head items
  below : ∀ a ∈ items, a < m.top
  ascending : (items.map m.groupId).Pairwise (· < ·)

/-- The ids up to the group, and those after it. -/
structure SplitsAt (m : Mem) (group : Int) (first rest : List Addr) : Prop where
  first : ∀ a ∈ first, m.groupId a ≤ group
  rest : ∀ a ∈ rest, group < m.groupId a

structure Found (m : Mem) (items : List Addr) (group : Int) (result : Option Addr) :
    Prop where
  none_iff : result = none ↔ ∀ a ∈ items.head?, group < m.groupId a
  last : ∀ a, result = some a → ∃ before after, items = before ++ a :: after ∧
    SplitsAt m group (before ++ [a]) after
  present_iff : (∃ a, result = some a ∧ m.groupId a = group) ↔
    group ∈ items.map m.groupId

structure Inserted (m m' : Mem) (items : List Addr) (group : Int) (result : Option Addr)
    (item : Addr) (head' : Option Addr) (items' : List Addr) : Prop where
  sorted : m'.Sorted head' items'
  own : m'.groupId item = group
  /-- The item is there, or it is linked right after the result. -/
  place : items' = items ∧ result = some item ∨
    ∃ first rest, items = first ++ rest ∧ first.getLast? = result ∧
      items' = first ++ item :: rest
  ids : ∀ id, id ∈ items'.map m'.groupId ↔ id ∈ items.map m.groupId ∨ id = group
  same : ∀ a ∈ items, m'.groupId a = m.groupId a ∧
    (m'.groups a).msgListHead = (m.groups a).msgListHead
  msgs : m'.msgs = m.msgs

variable {m : Mem} {head : Option Addr} {items first rest : List Addr} {group : Int}

theorem exists_splitsAt (group : Int) (h : (items.map m.groupId).Pairwise (· < ·)) :
    ∃ first rest, items = first ++ rest ∧ SplitsAt m group first rest := by
  induction items with
  | nil => exact ⟨[], [], rfl, by simp, by simp⟩
  | cons a items ih =>
      rw [List.map_cons, List.pairwise_cons] at h
      by_cases hgt : group < m.groupId a
      · refine ⟨[], a :: items, rfl, by simp, fun b hb => ?_⟩
        rcases List.mem_cons.mp hb with rfl | hb
        · exact hgt
        · exact hgt.trans (h.1 _ (List.mem_map_of_mem hb))
      · obtain ⟨first, rest, heq, hsplit⟩ := ih h.2
        refine ⟨a :: first, rest, by rw [heq]; rfl, fun b hb => ?_, hsplit.rest⟩
        rcases List.mem_cons.mp hb with rfl | hb
        · exact not_lt.mp hgt
        · exact hsplit.first b hb

theorem Sorted.lt_of_mem {a b : Addr} (h : m.Sorted head (first ++ a :: rest))
    (hb : b ∈ first) : m.groupId b < m.groupId a := by
  have hascending := h.ascending
  rw [List.map_append, List.pairwise_append] at hascending
  exact hascending.2.2 _ (List.mem_map_of_mem hb) _ (by simp)

theorem Sorted.insertPoint_before {a b : Addr} (h : m.Sorted head (first ++ a :: rest))
    (hle : ∀ x ∈ first ++ [a], m.groupId x ≤ group) (hb : b ∈ first) :
    insertPoint m group b = false := by
  have hlt : m.groupId b < group :=
    lt_of_lt_of_le (h.lt_of_mem hb) (hle a (by simp))
  obtain ⟨before, after, rfl⟩ := List.append_of_mem hb
  have hchain := h.chain
  rw [List.append_assoc, List.cons_append] at hchain
  rw [Bool.eq_false_iff, ne_eq, insertPoint_eq_true, hchain.link, not_or]
  refine ⟨hlt.ne, fun hgt => ?_⟩
  cases after with
  | nil => exact absurd (hgt a rfl) (not_lt.mpr (hle a (by simp)))
  | cons c after => exact absurd (hgt c rfl) (not_lt.mpr (hle c (by simp)))

theorem Sorted.insertPoint_last {a : Addr} (h : m.Sorted head (first ++ a :: rest))
    (hrest : ∀ x ∈ rest, group < m.groupId x) : insertPoint m group a = true := by
  rw [insertPoint_eq_true, h.chain.link]
  exact .inr fun b hb => hrest b (List.mem_of_mem_head? hb)

theorem Sorted.length_lt (h : m.Sorted head items) : items.length < m.rounds :=
  Nat.lt_succ_of_le (h.chain.length_le h.below)

theorem Sorted.search_eq (h : m.Sorted head (first ++ rest)) (hne : first ++ rest ≠ [])
    (hsplit : SplitsAt m group first rest) :
    getGroupListItemOrInsertPoint m head group = some first.getLast? := by
  have hlength := h.length_lt
  rcases List.eq_nil_or_concat first with rfl | ⟨before, a, rfl⟩
  · obtain ⟨b, rest, rfl⟩ := List.exists_cons_of_ne_nil hne
    have hgt : (m.groups b).group > group := hsplit.rest b List.mem_cons_self
    rw [h.chain.1, getGroupListItemOrInsertPoint, if_pos hgt]
    rfl
  · rw [List.concat_eq_append] at h hsplit hlength ⊢
    rw [List.append_assoc, List.singleton_append] at h hlength
    have hle := hsplit.first
    obtain ⟨b, hhead, hb⟩ : ∃ b, head = some b ∧ b ∈ before ++ [a] := by
      cases before with
      | nil => exact ⟨a, h.chain.1, by simp⟩
      | cons b before => exact ⟨b, h.chain.1, by simp⟩
    have hfirst : ¬ (m.groups b).group > group := not_lt.mpr (hle b hb)
    have hwalk := walk_eq (segment_split.mp h.chain).1
      (fun x hx => h.insertPoint_before hle hx) (h.insertPoint_last hsplit.rest)
      (show before.length < m.rounds by simp at hlength; omega)
    rw [hhead] at hwalk ⊢
    rw [getGroupListItemOrInsertPoint, if_neg hfirst, hwalk, List.getLast?_concat]

theorem Sorted.found (h : m.Sorted head (first ++ rest)) (hne : first ++ rest ≠ [])
    (hsplit : SplitsAt m group first rest) :
    Found m (first ++ rest) group first.getLast? := by
  rcases List.eq_nil_or_concat first with rfl | ⟨before, a, rfl⟩
  · have hmem : group ∉ rest.map m.groupId := by
      intro hmem
      obtain ⟨b, hb, rfl⟩ := List.mem_map.mp hmem
      exact lt_irrefl _ (hsplit.rest b hb)
    refine ⟨iff_of_true rfl fun b hb => ?_, by simp, by simpa using hmem⟩
    exact hsplit.rest b (List.mem_of_mem_head? hb)
  · rw [List.concat_eq_append] at h hne hsplit ⊢
    rw [List.append_assoc, List.singleton_append] at h hne ⊢
    rw [List.getLast?_concat]
    refine ⟨?_, fun b hb => ?_, ?_⟩
    · refine iff_of_false (by simp) fun hall => ?_
      obtain ⟨b, hhead, hb⟩ : ∃ b, (before ++ a :: rest).head? = some b ∧ b ∈ before ++ [a] := by
        cases before <;> simp
      exact absurd (hall b hhead) (not_lt.mpr (hsplit.first b hb))
    · obtain rfl : a = b := Option.some.inj hb
      exact ⟨before, rest, rfl, hsplit⟩
    · simp only [Option.some.injEq, exists_eq_left', List.mem_map]
      constructor
      · intro heq
        exact ⟨a, by simp, heq⟩
      · rintro ⟨b, hb, rfl⟩
        rcases List.mem_append.mp hb with hb | hb
        · -- a smaller id cannot be the group's
          exact absurd (h.lt_of_mem hb) (not_lt.mpr (hsplit.first a (by simp)))
        · rcases List.mem_cons.mp hb with rfl | hb
          · rfl
          · exact absurd (hsplit.rest b hb) (lt_irrefl _)

/-! ## The item of the group -/

theorem GroupMade.inserted {m' : Mem} {head' : Option Addr} (hmade : GroupMade m m' group)
    (h : m.Sorted head (first ++ rest)) (hsplit : SplitsAt m group first rest)
    (habsent : group ∉ first.map m.groupId)
    (hchain : Chain m'.nextGroup head' (first ++ m.top :: rest)) :
    Inserted m m' (first ++ rest) group first.getLast? m.top head'
      (first ++ m.top :: rest) := by
  have hne : ∀ a ∈ first ++ rest, a ≠ m.top := fun a ha => Nat.ne_of_lt (h.below a ha)
  have hsame : ∀ a ∈ first ++ rest, m'.groupId a = m.groupId a := fun a ha =>
    hmade.group a (hne a ha)
  have hids : (first ++ m.top :: rest).map m'.groupId =
      first.map m.groupId ++ group :: rest.map m.groupId := by
    rw [List.map_append, List.map_cons]
    congr 1
    · exact List.map_congr_left fun a ha => hsame a (List.mem_append_left _ ha)
    · congr 1
      · exact hmade.new
      · exact List.map_congr_left fun a ha => hsame a (List.mem_append_right _ ha)
  refine ⟨⟨hchain, fun a ha => ?_, ?_⟩, hmade.new, .inr ⟨first, rest, rfl, rfl, rfl⟩,
    fun id => ?_, fun a ha => ⟨hsame a ha, hmade.messages a (hne a ha)⟩, hmade.msgs⟩
  · rw [hmade.top]
    rcases List.mem_cons.mp (List.perm_middle.mem_iff.mp ha) with rfl | ha
    · exact Nat.lt_succ_self _
    · exact Nat.lt_succ_of_lt (h.below a ha)
  · have hascending := h.ascending
    rw [List.map_append] at hascending
    rw [hids]
    have hfirst : ∀ id ∈ first.map m.groupId, id < group := by
      intro id hid
      obtain ⟨a, ha, rfl⟩ := List.mem_map.mp hid
      exact lt_of_le_of_ne (hsplit.first a ha) fun heq => habsent (heq ▸ hid)
    have hrest : ∀ id ∈ rest.map m.groupId, group < id := by
      intro id hid
      obtain ⟨a, ha, rfl⟩ := List.mem_map.mp hid
      exact hsplit.rest a ha
    exact ascending_insert hascending hfirst hrest
  · rw [hids, List.map_append, List.mem_append, List.mem_append, List.mem_cons]
    tauto

theorem Sorted.inserted (h : m.Sorted head (first ++ rest)) (hne : first ++ rest ≠ [])
    (hsplit : SplitsAt m group first rest) :
    ∃ item m' head' items', getGroupListForWrite m head group = some (item, m', head') ∧
      Inserted m m' (first ++ rest) group first.getLast? item head' items' := by
  have hsearch := h.search_eq hne hsplit
  have hnew : m.top ∉ first ++ rest := fun hmem => Nat.lt_irrefl _ (h.below _ hmem)
  rcases List.eq_nil_or_concat first with rfl | ⟨before, a, rfl⟩
  · refine ⟨_, _, _, _, getGroupListForWrite_first hsearch,
      (groupMade_first m head group).inserted h hsplit (by simp) ?_⟩
    exact chain_first hnew h.chain group
  · rw [List.concat_eq_append] at *
    rw [List.getLast?_concat] at hsearch
    by_cases hfound : (m.groups a).group = group
    · refine ⟨a, m, head, (before ++ [a]) ++ rest, ?_, h, hfound, .inl ⟨rfl, by simp⟩,
        fun id => ?_, fun _ _ => ⟨rfl, rfl⟩, rfl⟩
      · simp [getGroupListForWrite, hsearch, hfound]
      · have hmem : group ∈ ((before ++ [a]) ++ rest).map m.groupId := by
          rw [← hfound]
          exact List.mem_map_of_mem (by simp)
        constructor
        · exact fun hid => .inl hid
        · rintro (hid | rfl)
          · exact hid
          · exact hmem
    · have hmem : a ∈ (before ++ [a]) ++ rest := by simp
      have htop : a ≠ m.top := Nat.ne_of_lt (h.below a hmem)
      refine ⟨_, _, _, _, getGroupListForWrite_after hsearch hfound htop,
        (groupMade_after htop group).inserted h hsplit (fun hgroup => ?_) ?_⟩
      · have hsorted : m.Sorted head (before ++ a :: rest) := by simpa using h
        obtain ⟨b, hb, hid⟩ := List.mem_map.mp hgroup
        rcases List.mem_append.mp hb with hb | hb
        · have hlt := hsorted.lt_of_mem hb
          rw [hid] at hlt
          exact absurd hlt (not_lt.mpr (hsplit.first a (by simp)))
        · rw [List.mem_singleton.mp hb] at hid
          exact hfound hid
      · rw [List.append_assoc, List.singleton_append] at hnew ⊢
        exact chain_after hnew (by simpa using h.chain) group

/--
On a list with strictly ascending ids the search returns the place of every group, and
the item of the group is found there or linked in there.
-/
theorem search_and_insert (h : m.Sorted head items) (hne : items ≠ []) (group : Int) :
    ∃ result item m' head' items',
      getGroupListItemOrInsertPoint m head group = some result ∧
      Found m items group result ∧
      getGroupListForWrite m head group = some (item, m', head') ∧
      Inserted m m' items group result item head' items' := by
  obtain ⟨first, rest, rfl, hsplit⟩ := exists_splitsAt group h.ascending
  obtain ⟨item, m', head', items', hwrite, hinserted⟩ := h.inserted hne hsplit
  exact ⟨first.getLast?, item, m', head', items', h.search_eq hne hsplit,
    h.found hne hsplit, hwrite, hinserted⟩

def threeGroups : Mem where
  groups := fun a =>
    if a = 0 then { nextItem := some 1, msgListHead := none, group := 2 }
    else if a = 1 then { nextItem := some 2, msgListHead := none, group := 5 }
    else { nextItem := none, msgListHead := none, group := 9 }
  msgs := fun _ => { nextItem := none, mesg := none, mesgSize := 0 }
  top := 3

theorem threeGroups_sorted : threeGroups.Sorted (some 0) [0, 1, 2] :=
  ⟨⟨rfl, rfl, rfl, rfl⟩, by decide, by decide⟩

theorem search_and_insert_threeGroups :
    threeGroups.Sorted (some 0) [0, 1, 2] ∧
      ∃ result item m' head' items',
        getGroupListItemOrInsertPoint threeGroups (some 0) 7 = some result ∧
        Found threeGroups [0, 1, 2] 7 result ∧
        getGroupListForWrite threeGroups (some 0) 7 = some (item, m', head') ∧
        Inserted threeGroups m' [0, 1, 2] 7 result item head' items' :=
  ⟨threeGroups_sorted, search_and_insert threeGroups_sorted (List.cons_ne_nil _ _) 7⟩

end Mem

end SysprogTeam3.BasicServer
