import Mathlib.Data.Int.Order.Basic
import SysprogTeam3.BasicServer.GroupList
import SysprogTeam3.Foundation.GroupedLog

/-!
# The group list refines the log of the requests

`Holds` says which items make up the list in memory; the functions of
`group_list.c` keep it, and what they do to the list is `record` on the log that
the items hold.
-/

namespace SysprogTeam3.BasicServer

open SysprogTeam3.Foundation

abbrev Entry := Int × List Bytes

/-- The addresses of the group items, each with those of its message items. -/
abbrev Layout := List (Addr × List Addr)

namespace Mem

def stored (m : Mem) (a : Addr) : Bytes := ((m.msgs a).mesg).elim [] cString

def entry (m : Mem) (e : Addr × List Addr) : Entry :=
  ((m.groups e.1).group, e.2.map m.stored)

def log (m : Mem) (layout : Layout) : List Entry := layout.map m.entry

/-- The list at `head` consists of these items. -/
structure Holds (m : Mem) (head : Option Addr) (layout : Layout) : Prop where
  groups : Chain m.nextGroup head (layout.map Prod.fst)
  msgs : ∀ e ∈ layout, Chain m.nextMsg (m.groups e.1).msgListHead e.2
  /-- No message item belongs to two groups. -/
  distinct : (layout.flatMap Prod.snd).Nodup
  groupsBelow : ∀ e ∈ layout, e.1 < m.top
  msgsBelow : ∀ e ∈ layout, ∀ a ∈ e.2, a < m.top
  filled : ∀ e ∈ layout, ∀ a ∈ e.2, (m.msgs a).mesg.isSome = true

variable {m : Mem} {head : Option Addr} {layout before after : Layout}

theorem Holds.groups_length (h : m.Holds head layout) : layout.length < m.rounds := by
  have hlength := h.groups.length_le (n := m.top) fun a ha => by
    obtain ⟨e, he, rfl⟩ := List.mem_map.mp ha
    exact h.groupsBelow e he
  rw [List.length_map] at hlength
  exact Nat.lt_succ_of_le hlength

theorem Holds.msgs_length (h : m.Holds head layout) {e : Addr × List Addr}
    (he : e ∈ layout) : e.2.length < m.rounds :=
  Nat.lt_succ_of_le ((h.msgs e he).length_le (h.msgsBelow e he))

/-! ## Finding the place of a group -/

theorem insertPoint_eq_true {group : Int} {a : Addr} :
    insertPoint m group a = true ↔
      (m.groups a).group = group ∨
        ∀ b ∈ m.nextGroup a, group < (m.groups b).group := by
  rw [insertPoint, Bool.or_eq_true, beq_iff_eq, nextGroup]
  cases (m.groups a).nextItem <;> simp

/-- The loop stops at the group's own item, or at the last one with a smaller group. -/
theorem exists_insertPoint {group : Int} {p : Option Addr} {e : Addr × List Addr}
    {rest : Layout} (h : Chain m.nextGroup p ((e :: rest).map Prod.fst))
    (hle : (m.groups e.1).group ≤ group) :
    ∃ before item after, e :: rest = before ++ item :: after ∧
      (∀ x ∈ before, (m.groups x.1).group < group ∧ insertPoint m group x.1 = false) ∧
      insertPoint m group item.1 = true ∧ (m.groups item.1).group ≤ group ∧
      ((m.groups item.1).group = group ∨
        ∀ x ∈ after.head?, group < (m.groups x.1).group) := by
  induction rest generalizing e p with
  | nil =>
      have hlast : m.nextGroup e.1 = none := h.2
      refine ⟨[], e, [], rfl, by simp, ?_, hle, .inr (by simp)⟩
      rw [insertPoint_eq_true, hlast]
      exact .inr (by simp)
  | cons e' rest ih =>
      have hnext : m.nextGroup e.1 = some e'.1 := h.2.1
      by_cases hstop : insertPoint m group e.1 = true
      · refine ⟨[], e, e' :: rest, rfl, by simp, hstop, hle, ?_⟩
        simpa [insertPoint_eq_true, hnext] using hstop
      · obtain ⟨before, item, after, heq, hbefore, hitem⟩ := ih h.2 (by
          rw [insertPoint_eq_true, hnext, not_or] at hstop
          simpa using hstop.2)
        have hlt : (m.groups e.1).group < group :=
          lt_of_le_of_ne hle fun hsame => hstop (insertPoint_eq_true.mpr (.inl hsame))
        refine ⟨e :: before, item, after, by rw [heq]; rfl, fun x hx => ?_, hitem⟩
        rcases List.mem_cons.mp hx with rfl | hx
        · exact ⟨hlt, by simpa using hstop⟩
        · exact hbefore x hx

/-! ## Inserting a group -/

/-- A new group item was made; the others keep all but their link. -/
structure GroupMade (m m' : Mem) (group : Int) : Prop where
  msgs : m'.msgs = m.msgs
  top : m'.top = m.top + 1
  new : (m'.groups m.top).group = group
  empty : (m'.groups m.top).msgListHead = none
  group : ∀ a, a ≠ m.top → (m'.groups a).group = (m.groups a).group
  messages : ∀ a, a ≠ m.top → (m'.groups a).msgListHead = (m.groups a).msgListHead

/-- What `get_group_list_for_write` leaves: the item of the group, in its place. -/
structure Opened (m m' : Mem) (group : Int) (layout before : Layout) (item : Addr)
    (msgs : List Addr) (after : Layout) : Prop where
  own : (m'.groups item).group = group
  smaller : ∀ x ∈ before, (m'.groups x.1).group < group
  place : layout = before ++ (item, msgs) :: after ∨
    layout = before ++ after ∧ msgs = [] ∧ ∀ x ∈ after.head?, group < (m'.groups x.1).group
  same : ∀ e ∈ layout, m'.entry e = m.entry e

theorem Holds.ne_top (h : m.Holds head layout) {e : Addr × List Addr} (he : e ∈ layout) :
    e.1 ≠ m.top := Nat.ne_of_lt (h.groupsBelow e he)

theorem GroupMade.holds {m' : Mem} {group : Int} {head' : Option Addr}
    (hmade : GroupMade m m' group) (h : m.Holds head (before ++ after))
    (hchain : Chain m'.nextGroup head' ((before ++ (m.top, []) :: after).map Prod.fst)) :
    m'.Holds head' (before ++ (m.top, []) :: after) := by
  have hcases : ∀ e ∈ before ++ (m.top, []) :: after,
      e = (m.top, []) ∨ e ∈ before ++ after :=
    fun e he => List.mem_cons.mp (List.perm_middle.mem_iff.mp he)
  refine ⟨hchain, fun e he => ?_, by simpa using h.distinct, fun e he => ?_,
    fun e he a ha => ?_, fun e he a ha => ?_⟩
  · rcases hcases e he with rfl | he
    · exact hmade.empty
    · rw [hmade.messages _ (h.ne_top he)]
      exact (h.msgs e he).congr fun a _ => by rw [nextMsg, nextMsg, hmade.msgs]
  · rw [hmade.top]
    rcases hcases e he with rfl | he
    · exact Nat.lt_succ_self _
    · exact Nat.lt_succ_of_lt (h.groupsBelow e he)
  · rw [hmade.top]
    rcases hcases e he with rfl | he
    · simp at ha
    · exact Nat.lt_succ_of_lt (h.msgsBelow e he a ha)
  · rw [hmade.msgs]
    rcases hcases e he with rfl | he
    · simp at ha
    · exact h.filled e he a ha

theorem GroupMade.opened {m' : Mem} {group : Int} (hmade : GroupMade m m' group)
    (h : m.Holds head (before ++ after))
    (hbefore : ∀ x ∈ before, (m.groups x.1).group < group)
    (hafter : ∀ x ∈ after.head?, group < (m.groups x.1).group) :
    Opened m m' group (before ++ after) before m.top [] after := by
  have hgroup : ∀ e ∈ before ++ after, (m'.groups e.1).group = (m.groups e.1).group :=
    fun e he => hmade.group _ (h.ne_top he)
  refine ⟨hmade.new, fun x hx => ?_, .inr ⟨rfl, rfl, fun x hx => ?_⟩, fun e he => ?_⟩
  · rw [hgroup x (List.mem_append_left _ hx)]
    exact hbefore x hx
  · rw [hgroup x (List.mem_append_right _ (List.mem_of_mem_head? hx))]
    exact hafter x hx
  · have hstored : m'.stored = m.stored := by
      funext a
      rw [stored, stored, hmade.msgs]
    rw [entry, entry, hgroup e he, hstored]

theorem Holds.top_not_mem_groups (h : m.Holds head layout) :
    m.top ∉ layout.map Prod.fst := by
  intro hmem
  obtain ⟨e, he, htop⟩ := List.mem_map.mp hmem
  exact h.ne_top he htop

theorem nextGroup_update (m : Mem) (a : Addr) (item : GroupList) :
    (m.setGroup a item).nextGroup = Function.update m.nextGroup a item.nextItem := by
  funext b
  by_cases h : b = a
  · subst h
    simp [nextGroup, setGroup]
  · simp [nextGroup, setGroup, h]

theorem getGroupListForWrite_first {group : Int}
    (hpoint : getGroupListItemOrInsertPoint m head group = some none) :
    getGroupListForWrite m head group = some (m.top,
      { m.setGroup m.top ⟨head, none, group⟩ with top := m.top + 1 }, some m.top) := by
  simp [getGroupListForWrite, hpoint, getNewGroupListItem, setGroup]

theorem getGroupListForWrite_after {group : Int} {item : Addr}
    (hpoint : getGroupListItemOrInsertPoint m head group = some (some item))
    (hne : (m.groups item).group ≠ group) (hold : item ≠ m.top) :
    getGroupListForWrite m head group = some (m.top,
      { (m.setGroup m.top ⟨m.nextGroup item, none, group⟩).setGroup item
          { m.groups item with nextItem := some m.top } with top := m.top + 1 }, head) := by
  simp [getGroupListForWrite, hpoint, hne, getNewGroupListItem, setGroup, nextGroup, hold]

theorem groupMade_first (m : Mem) (head : Option Addr) (group : Int) :
    GroupMade m { m.setGroup m.top ⟨head, none, group⟩ with top := m.top + 1 } group := by
  constructor <;> simp +contextual [setGroup]

theorem groupMade_after {item : Addr} (htop : item ≠ m.top) (group : Int) :
    GroupMade m
      { (m.setGroup m.top ⟨m.nextGroup item, none, group⟩).setGroup item
          { m.groups item with nextItem := some m.top } with top := m.top + 1 }
      group := by
  refine ⟨rfl, rfl, ?_, ?_, fun a ha => ?_, fun a ha => ?_⟩
  · simp [setGroup, htop.symm]
  · simp [setGroup, htop.symm]
  · by_cases hitem : a = item <;> simp [setGroup, ha, hitem]
  · by_cases hitem : a = item <;> simp [setGroup, ha, hitem]

theorem chain_first {items : List Addr} (hnew : m.top ∉ items)
    (h : Chain m.nextGroup head items) (group : Int) :
    Chain (m.setGroup m.top ⟨head, none, group⟩).nextGroup (some m.top) (m.top :: items) := by
  rw [nextGroup_update]
  exact h.insertFirst hnew

theorem chain_after {first rest : List Addr} {item : Addr}
    (hnew : m.top ∉ first ++ item :: rest)
    (h : Chain m.nextGroup head (first ++ item :: rest)) (group : Int) :
    Chain ((m.setGroup m.top ⟨m.nextGroup item, none, group⟩).setGroup item
        { m.groups item with nextItem := some m.top }).nextGroup head
      (first ++ item :: m.top :: rest) := by
  rw [nextGroup_update, nextGroup_update]
  exact h.insertAfter hnew

def OpensGroup (m : Mem) (head : Option Addr) (layout : Layout) (group : Int) : Prop :=
  ∃ item m' head' before msgs after,
    getGroupListForWrite m head group = some (item, m', head') ∧
    m'.Holds head' (before ++ (item, msgs) :: after) ∧
    Opened m m' group layout before item msgs after

theorem opensGroup_first {e : Addr × List Addr} {rest : Layout} {group : Int}
    (h : m.Holds head (e :: rest)) (hgt : (m.groups e.1).group > group) :
    OpensGroup m head (e :: rest) group := by
  have hhead : head = some e.1 := h.groups.1
  have hpoint : getGroupListItemOrInsertPoint m head group = some none := by
    rw [hhead, getGroupListItemOrInsertPoint, if_pos hgt]
  have hmade := groupMade_first m head group
  refine ⟨m.top, _, some m.top, [], [], e :: rest, getGroupListForWrite_first hpoint,
    hmade.holds (show m.Holds head ([] ++ e :: rest) from h) ?_,
    hmade.opened (show m.Holds head ([] ++ e :: rest) from h) (by simp) ?_⟩
  · exact chain_first h.top_not_mem_groups h.groups group
  · simpa using hgt

section Place

variable {item : Addr × List Addr} {group : Int}

theorem getGroupListItemOrInsertPoint_eq (h : m.Holds head (before ++ item :: after))
    (hle : ∀ a ∈ head, (m.groups a).group ≤ group)
    (hskip : ∀ x ∈ before, insertPoint m group x.1 = false)
    (hstop : insertPoint m group item.1 = true) :
    getGroupListItemOrInsertPoint m head group = some (some item.1) := by
  have hchain : Chain m.nextGroup head
      (before.map Prod.fst ++ item.1 :: after.map Prod.fst) := by
    simpa using h.groups
  have hlength := h.groups_length
  cases head with
  | none => cases before <;> exact absurd hchain.1 (by simp)
  | some first =>
      rw [getGroupListItemOrInsertPoint, if_neg (not_lt.mpr (hle first rfl))]
      refine walk_eq (segment_split.mp hchain).1 (fun a ha => ?_) hstop ?_
      · obtain ⟨x, hx, rfl⟩ := List.mem_map.mp ha
        exact hskip x hx
      · simp at hlength ⊢
        omega

theorem opensGroup_after (h : m.Holds head (before ++ item :: after))
    (hpoint : getGroupListItemOrInsertPoint m head group = some (some item.1))
    (hbefore : ∀ x ∈ before, (m.groups x.1).group < group)
    (hlt : (m.groups item.1).group < group)
    (hafter : ∀ x ∈ after.head?, group < (m.groups x.1).group) :
    OpensGroup m head (before ++ item :: after) group := by
  have htop : item.1 ≠ m.top := h.ne_top (by simp)
  have hnew := h.top_not_mem_groups
  have hmade := groupMade_after htop group
  have hchain : Chain m.nextGroup head
      (before.map Prod.fst ++ item.1 :: after.map Prod.fst) := by
    simpa using h.groups
  have hsplit : before ++ item :: after = (before ++ [item]) ++ after := by simp
  rw [hsplit] at h ⊢
  refine ⟨m.top, _, head, before ++ [item], [], after,
    getGroupListForWrite_after hpoint hlt.ne htop, hmade.holds h ?_,
    hmade.opened h (fun x hx => ?_) hafter⟩
  · have hinserted := chain_after (by simpa using hnew) hchain group
    have hitems : (before ++ [item] ++ (m.top, []) :: after).map Prod.fst =
        before.map Prod.fst ++ item.1 :: m.top :: after.map Prod.fst := by
      simp
    rw [hitems]
    exact hinserted
  · rcases List.mem_append.mp hx with hx | hx
    · exact hbefore x hx
    · rw [List.mem_singleton.mp hx]
      exact hlt

variable (group) in
theorem getGroupListForWrite_spec (h : m.Holds head layout) (hne : layout ≠ []) :
    OpensGroup m head layout group := by
  obtain ⟨e, rest, rfl⟩ := List.exists_cons_of_ne_nil hne
  by_cases hgt : (m.groups e.1).group > group
  · exact opensGroup_first h hgt
  · have hhead : ∀ a ∈ head, (m.groups a).group ≤ group := fun a ha => by
      obtain rfl : e.1 = a := Option.some.inj (h.groups.1.symm.trans ha)
      exact not_lt.mp hgt
    obtain ⟨before, item, after, heq, hbefore, hstop, hle, hplace⟩ :=
      exists_insertPoint h.groups (not_lt.mp hgt)
    rw [heq] at h ⊢
    have hpoint := getGroupListItemOrInsertPoint_eq h hhead (fun x hx => (hbefore x hx).2) hstop
    have hsmaller : ∀ x ∈ before, (m.groups x.1).group < group := fun x hx => (hbefore x hx).1
    by_cases hfound : (m.groups item.1).group = group
    · refine ⟨item.1, m, head, before, item.2, after, ?_, h, hfound, hsmaller, .inl rfl,
        fun _ _ => rfl⟩
      simp [getGroupListForWrite, hpoint, hfound]
    · exact opensGroup_after h hpoint hsmaller (lt_of_le_of_ne hle hfound)
        (hplace.resolve_left hfound)

end Place

/-! ## Adding a message -/

/-- A message item was added to the messages of a group item; everything else is
as it was. -/
structure MessageAdded (m m' : Mem) (item : Addr) (msgs : List Addr) : Prop where
  top : m'.top = m.top + 1
  groups : m'.nextGroup = m.nextGroup
  group : ∀ a, (m'.groups a).group = (m.groups a).group
  heads : ∀ a, a ≠ item → (m'.groups a).msgListHead = (m.groups a).msgListHead
  chain : Chain m'.nextMsg (m'.groups item).msgListHead (msgs ++ [m.top])
  links : ∀ a, a ∉ msgs → a ≠ m.top → m'.nextMsg a = m.nextMsg a
  texts : ∀ a, a ≠ m.top → (m'.msgs a).mesg = (m.msgs a).mesg

theorem nextMsg_update (m : Mem) (a : Addr) (item : MsgList) :
    (m.setMsg a item).nextMsg = Function.update m.nextMsg a item.nextItem := by
  funext b
  by_cases h : b = a
  · subst h
    simp [nextMsg, setMsg]
  · simp [nextMsg, setMsg, h]

theorem addMsgListItem_first {item : Addr} (hhead : (m.groups item).msgListHead = none) :
    addMsgListItem m item = some (m.top,
      { (m.setMsg m.top ⟨none, none, 0⟩).setGroup item
          { m.groups item with msgListHead := some m.top } with top := m.top + 1 }) := by
  simp [addMsgListItem, hhead, getNewMsgListItem, setGroup, setMsg]

theorem addMsgListItem_next {item first last : Addr}
    (hhead : (m.groups item).msgListHead = some first)
    (hend : getMsgListEnd m (some first) = some (some last)) (hne : last ≠ m.top) :
    addMsgListItem m item = some (m.top,
      { (m.setMsg m.top ⟨none, none, 0⟩).setMsg last
          { m.msgs last with nextItem := some m.top } with top := m.top + 1 }) := by
  simp [addMsgListItem, hhead, hend, getNewMsgListItem, setMsg, hne]

theorem addMsgListItem_spec {item : Addr} {msgs : List Addr}
    (hchain : Chain m.nextMsg (m.groups item).msgListHead msgs)
    (hbelow : ∀ a ∈ msgs, a < m.top) :
    ∃ m', addMsgListItem m item = some (m.top, m') ∧ MessageAdded m m' item msgs := by
  rcases List.eq_nil_or_concat msgs with rfl | ⟨first, last, rfl⟩
  · -- the group has no message yet
    refine ⟨_, addMsgListItem_first hchain, rfl, ?_, fun a => ?_, fun a ha => ?_, ?_,
      fun a _ ha => ?_, fun a ha => ?_⟩
    · refine (nextGroup_update _ item _).trans ?_
      exact Function.update_eq_self item m.nextGroup
    · by_cases ha : a = item <;> simp [setGroup, setMsg, ha]
    · simp [setGroup, setMsg, ha]
    · simp [setGroup, setMsg, nextMsg]
    · simp [setGroup, setMsg, nextMsg, ha]
    · simp [setGroup, setMsg, ha]
  · rw [List.concat_eq_append] at hchain hbelow ⊢
    have htop : last ≠ m.top := Nat.ne_of_lt (hbelow last (by simp))
    have hnew : m.top ∉ first ++ last :: [] := fun hmem => Nat.lt_irrefl _ (hbelow _ hmem)
    obtain ⟨head, hhead⟩ : ∃ head, (m.groups item).msgListHead = some head := by
      cases first with
      | nil => exact ⟨_, hchain.1⟩
      | cons a first => exact ⟨_, hchain.1⟩
    have hend : getMsgListEnd m (some head) = some (some last) := by
      have hlength := hchain.length_le hbelow
      rw [hhead] at hchain
      rw [List.length_append, List.length_singleton] at hlength
      exact hchain.walk_last (Nat.lt_succ_of_lt hlength)
    refine ⟨_, addMsgListItem_next hhead hend htop, rfl, rfl, fun a => rfl, fun a ha => rfl,
      ?_, fun a ha hatop => ?_, fun a ha => ?_⟩
    · have hinserted := hchain.insertAfter hnew
      rw [hchain.link, List.head?_nil, ← nextMsg_update m m.top ⟨none, none, 0⟩,
        ← nextMsg_update _ last { m.msgs last with nextItem := some m.top }] at hinserted
      rw [List.append_assoc]
      exact hinserted
    · have hlast : a ≠ last := fun heq => ha (by simp [heq])
      simp [setMsg, nextMsg, hatop, hlast]
    · by_cases hlast : a = last
      · simp [setMsg, hlast]
      · simp [setMsg, ha, hlast]

variable {m' : Mem} {item : Addr} {msgs : List Addr}

theorem MessageAdded.store (hadded : MessageAdded m m' item msgs) (text : Bytes)
    (size : Nat) :
    MessageAdded m (m'.setMsg m.top
      { m'.msgs m.top with mesg := some text, mesgSize := size }) item msgs := by
  have hlinks : (m'.setMsg m.top
      { m'.msgs m.top with mesg := some text, mesgSize := size }).nextMsg = m'.nextMsg := by
    refine (nextMsg_update _ m.top _).trans ?_
    exact Function.update_eq_self m.top m'.nextMsg
  refine ⟨hadded.top, hadded.groups, hadded.group, hadded.heads, ?_, fun a ha htop => ?_,
    fun a ha => ?_⟩
  · rw [hlinks]
    exact hadded.chain
  · rw [hlinks]
    exact hadded.links a ha htop
  · rw [← hadded.texts a ha]
    simp [setMsg, ha]

theorem Holds.others (h : m.Holds head (before ++ (item, msgs) :: after))
    {e : Addr × List Addr} (he : e ∈ before ++ after) :
    e ∈ before ++ (item, msgs) :: after ∧ e.1 ≠ item ∧ ∀ a ∈ e.2, a ∉ msgs := by
  refine ⟨?_, ?_, fun a ha hmsgs => ?_⟩
  · exact List.perm_middle.mem_iff.mpr (List.mem_cons_of_mem _ he)
  · have hnodup := h.groups.nodup
    rw [List.map_append, List.map_cons, List.nodup_middle, List.nodup_cons,
      ← List.map_append] at hnodup
    intro heq
    exact hnodup.1 (List.mem_map.mpr ⟨e, he, heq⟩)
  · have hdistinct := h.distinct
    rw [List.flatMap_append, List.flatMap_cons, List.nodup_append,
      List.nodup_append] at hdistinct
    obtain ⟨-, ⟨-, -, hafter⟩, hbefore⟩ := hdistinct
    rcases List.mem_append.mp he with he | he
    · exact hbefore a (List.mem_flatMap.mpr ⟨e, he, ha⟩) a
        (List.mem_append_left _ hmsgs) rfl
    · exact hafter a hmsgs a (List.mem_flatMap.mpr ⟨e, he, ha⟩) rfl

theorem MessageAdded.holds (hadded : MessageAdded m m' item msgs)
    (h : m.Holds head (before ++ (item, msgs) :: after))
    (hfilled : (m'.msgs m.top).mesg.isSome = true) :
    m'.Holds head (before ++ (item, msgs ++ [m.top]) :: after) := by
  have hitem : (item, msgs) ∈ before ++ (item, msgs) :: after := by simp
  have hcases : ∀ e ∈ before ++ (item, msgs ++ [m.top]) :: after,
      e = (item, msgs ++ [m.top]) ∨ e ∈ before ++ after :=
    fun e he => List.mem_cons.mp (List.perm_middle.mem_iff.mp he)
  refine ⟨?_, fun e he => ?_, ?_, fun e he => ?_, fun e he a ha => ?_, fun e he a ha => ?_⟩
  · rw [hadded.groups]
    simpa using h.groups
  · rcases hcases e he with rfl | he
    · exact hadded.chain
    · obtain ⟨he, hne, hdisjoint⟩ := h.others he
      rw [hadded.heads _ hne]
      exact (h.msgs e he).congr fun a ha =>
        hadded.links a (hdisjoint a ha) (Nat.ne_of_lt (h.msgsBelow e he a ha))
  · have htop : m.top ∉ (before ++ (item, msgs) :: after).flatMap Prod.snd := by
      intro hmem
      obtain ⟨e, he, ha⟩ := List.mem_flatMap.mp hmem
      exact Nat.lt_irrefl _ (h.msgsBelow e he _ ha)
    have hnodup := List.nodup_cons.mpr ⟨htop, h.distinct⟩
    rw [List.flatMap_append, List.flatMap_cons, ← List.append_assoc] at hnodup ⊢
    rw [← List.append_assoc, List.append_assoc _ [m.top]]
    exact List.nodup_middle.mpr hnodup
  · rw [hadded.top]
    rcases hcases e he with rfl | he
    · exact Nat.lt_succ_of_lt (h.groupsBelow (item, msgs) hitem)
    · exact Nat.lt_succ_of_lt (h.groupsBelow e (h.others he).1)
  · rw [hadded.top]
    rcases hcases e he with rfl | he
    · rcases List.mem_append.mp ha with ha | ha
      · exact Nat.lt_succ_of_lt (h.msgsBelow (item, msgs) hitem a ha)
      · rw [List.mem_singleton.mp ha]
        exact Nat.lt_succ_self _
    · exact Nat.lt_succ_of_lt (h.msgsBelow e (h.others he).1 a ha)
  · by_cases htop : a = m.top
    · rw [htop]
      exact hfilled
    · rw [hadded.texts a htop]
      rcases hcases e he with rfl | he
      · rcases List.mem_append.mp ha with ha | ha
        · exact h.filled (item, msgs) hitem a ha
        · exact absurd (List.mem_singleton.mp ha) htop
      · exact h.filled e (h.others he).1 a ha

theorem MessageAdded.log (hadded : MessageAdded m m' item msgs)
    (h : m.Holds head (before ++ (item, msgs) :: after)) :
    m'.log (before ++ (item, msgs ++ [m.top]) :: after) =
      m.log before ++ ((m.groups item).group, msgs.map m.stored ++ [m'.stored m.top]) ::
        m.log after := by
  have hstored : ∀ e ∈ before ++ (item, msgs) :: after,
      e.2.map m'.stored = e.2.map m.stored := by
    intro e he
    refine List.map_congr_left fun a ha => ?_
    rw [stored, stored, hadded.texts a (Nat.ne_of_lt (h.msgsBelow e he a ha))]
  have hothers : ∀ e ∈ before ++ after, m'.entry e = m.entry e := by
    intro e he
    rw [entry, entry, hadded.group, hstored e (h.others he).1]
  have hitem := hstored (item, msgs) (by simp)
  have hbefore : m'.log before = m.log before :=
    List.map_congr_left fun e he => hothers e (List.mem_append_left _ he)
  have hafter : m'.log after = m.log after :=
    List.map_congr_left fun e he => hothers e (List.mem_append_right _ he)
  rw [← hbefore, ← hafter]
  simp only [Mem.log, List.map_append, List.map_cons, entry, hadded.group, hitem,
    List.map_nil]

/-! ## Writing a message -/

theorem Opened.log {layout : Layout} {group : Int} {text : Bytes}
    (hopened : Opened m m' group layout before item msgs after) :
    record group text (m.log layout) =
      m'.log before ++ (group, msgs.map m'.stored ++ [text]) :: m'.log after := by
  have hsame : m.log layout = m'.log layout :=
    List.map_congr_left fun e he => (hopened.same e he).symm
  have hbefore : ∀ e ∈ m'.log before, e.1 < group := by
    intro e he
    obtain ⟨x, hx, rfl⟩ := List.mem_map.mp he
    exact hopened.smaller x hx
  rw [hsame]
  rcases hopened.place with rfl | ⟨rfl, rfl, hafter⟩
  · have hlog : m'.log (before ++ (item, msgs) :: after) =
        m'.log before ++ (group, msgs.map m'.stored) :: m'.log after := by
      simp only [Mem.log, List.map_append, List.map_cons, entry, hopened.own]
    rw [hlog, record_found hbefore]
  · have hlog : m'.log (before ++ after) = m'.log before ++ m'.log after := List.map_append
    have hhead : ∀ e ∈ (m'.log after).head?, group < e.1 := by
      intro e he
      rw [Mem.log, List.head?_map, Option.mem_def, Option.map_eq_some_iff] at he
      obtain ⟨x, hx, rfl⟩ := he
      exact hafter x hx
    rw [hlog, record_new hbefore hhead]
    rfl

theorem writeMessage_spec (h : m.Holds head layout) (hne : layout ≠ []) (group : Int)
    (message : Bytes) (msgSize : Nat) :
    ∃ m' head' layout', writeMessage m head group message msgSize = some (m', head') ∧
      m'.Holds head' layout' ∧ layout' ≠ [] ∧
      m'.log layout' = record group
        (cString (strncpy (List.replicate (msgSize + 1) 0) message (msgSize - 1)))
        (m.log layout) := by
  obtain ⟨item, m₁, head₁, before, msgs, after, hopen, h₁, hopened⟩ :=
    getGroupListForWrite_spec group h hne
  have hitem : (item, msgs) ∈ before ++ (item, msgs) :: after := by simp
  obtain ⟨m₂, hadd, hadded⟩ :=
    addMsgListItem_spec (h₁.msgs _ hitem) (h₁.msgsBelow _ hitem)
  have hstored := hadded.store
    (strncpy (List.replicate (msgSize + 1) 0) message (msgSize - 1)) msgSize
  refine ⟨_, head₁, _, by simp only [writeMessage, hopen, hadd], hstored.holds h₁ ?_,
    by simp, ?_⟩
  · simp [setMsg]
  · rw [hstored.log h₁, hopened.log, hopened.own]
    simp [stored, setMsg]

end Mem

end SysprogTeam3.BasicServer
