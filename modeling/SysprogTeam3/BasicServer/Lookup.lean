import SysprogTeam3.BasicServer.Connection

/-!
# Looking up what the clients sent

The loop of `main` takes one client after the other, whatever each of them sends and
however it is cut.  `get_group_list` and `get_group_list_end` are for those who read
the list that the loop builds.
-/

namespace SysprogTeam3.BasicServer

open SysprogTeam3.Foundation

structure Connection where
  stack : Stack
  first : Bytes
  second : Bytes
  first_length : first.length ≤ 4
  second_length : second.length ≤ maxServRecvBufSize

namespace Connection

def groupId (host : ByteOrder) (c : Connection) : Int :=
  (recvUint32FromSock host c.stack.num c.first).toInt

def text (c : Connection) : Bytes := storedText (readInto c.stack.recvBuff c.second)

def request (host : ByteOrder) (c : Connection) : Int × Bytes := (c.groupId host, c.text)

end Connection

def acceptLoop (host : ByteOrder) :
    Server → List Connection → Option (Server × List Text) :=
  serverLoop fun sv c => processConnection host c.stack sv c.first c.second

def getGroupList (m : Mem) (groupListHead : Option Addr) (group : Int) :
    Option (Option Addr) :=
  match groupListHead with
  | none => some none
  | some _ => walk m.nextGroup (fun a => (m.groups a).group == group) m.rounds groupListHead

def getGroupListEnd (m : Mem) (groupListHead : Option Addr) : Option (Option Addr) :=
  match groupListHead with
  | none => some none
  | some _ => walk m.nextGroup (fun a => (m.groups a).nextItem.isNone) m.rounds groupListHead

def numbered (msgs : List Bytes) : Text := (msgs.zipIdx 1).flatMap fun x => msgLine x.2 x.1

namespace Mem

variable {m : Mem} {head : Option Addr} {layout : Layout}

theorem Holds.nil_of_none (h : m.Holds none layout) : layout = [] := by
  cases layout with
  | nil => rfl
  | cons e layout => exact absurd h.groups.1 (by simp)

theorem getGroupList_spec (h : m.Holds head layout) (group : Int) :
    getGroupList m head group =
      some ((layout.map Prod.fst).find? fun a => (m.groups a).group == group) := by
  have hlength : (layout.map Prod.fst).length < m.rounds := by
    rw [List.length_map]
    exact h.groups_length
  cases head with
  | none =>
      rw [h.nil_of_none]
      rfl
  | some first => exact h.groups.walk_find hlength

theorem getGroupListEnd_spec (h : m.Holds head layout) :
    getGroupListEnd m head = some (layout.getLast?.map Prod.fst) := by
  rcases List.eq_nil_or_concat layout with rfl | ⟨before, e, rfl⟩
  · rw [segment_nil.mp h.groups]
    rfl
  · have hlength := h.groups_length
    have hchain := h.groups
    rw [List.concat_eq_append, List.length_append] at hlength
    rw [List.concat_eq_append, List.map_append, List.map_singleton] at hchain
    have hfuel : (before.map Prod.fst).length < m.rounds := by
      rw [List.length_map]
      omega
    have hwalk := hchain.walk_last hfuel
    cases head with
    | none => exact absurd h.nil_of_none (by simp)
    | some first =>
        rw [List.concat_eq_append, List.getLast?_append_cons]
        exact hwalk

theorem lookup_spec {sequence : List (Int × Bytes)} (h : m.Holds head layout)
    (hlog : LogOf sequence (m.log layout)) (group : Int) :
    ∃ found, getGroupList m head group = some found ∧
      (found = none ↔ group ∉ sequence.map Prod.fst) ∧
      ∀ a ∈ found, (m.groups a).group = group ∧
        printMsgList m m.rounds 1 (m.groups a).msgListHead =
          some (numbered (valuesOf group sequence)) := by
  refine ⟨_, getGroupList_spec h group, ?_, fun a ha => ?_⟩
  · rw [← hlog.keys group, List.find?_eq_none]
    simp [log, entry]
  · obtain ⟨e, he, rfl⟩ := List.mem_map.mp (List.mem_of_find?_eq_some ha)
    have hgroup : (m.groups e.1).group = group := by simpa using List.find?_some ha
    have hvalues := hlog.values (m.entry e) (List.mem_map_of_mem he)
    refine ⟨hgroup, ?_⟩
    rw [printMsgList_spec (h.msgs e he) (h.filled e he) (h.msgs_length he) 1]
    simp only [entry, hgroup] at hvalues
    rw [hvalues]
    rfl

theorem end_spec {sequence : List (Int × Bytes)} (h : m.Holds head layout)
    (hlog : LogOf sequence (m.log layout)) :
    ∃ found, getGroupListEnd m head = some found ∧ (found = none ↔ sequence = []) ∧
      ∀ a ∈ found, (m.groups a).group ∈ sequence.map Prod.fst ∧
        ∀ group ∈ sequence.map Prod.fst, group ≤ (m.groups a).group := by
  refine ⟨_, getGroupListEnd_spec h, ?_, fun a ha => ?_⟩
  · have hkeys : (m.log layout).map Prod.fst = [] ↔ sequence.map Prod.fst = [] := by
      simp only [List.eq_nil_iff_forall_not_mem, hlog.keys]
    simpa [log] using hkeys
  · obtain ⟨e, he, rfl⟩ := Option.map_eq_some_iff.mp ha
    obtain ⟨before, hlayout⟩ := List.getLast?_eq_some_iff.mp he
    have hascending := hlog.ascending
    rw [hlayout, log, List.map_append, List.map_append, List.pairwise_append] at hascending
    simp only [← hlog.keys, hlayout]
    refine ⟨by simp [log, entry], fun group hgroup => ?_⟩
    simp only [log, List.map_append, List.mem_append] at hgroup
    rcases hgroup with hbefore | hlast
    · exact le_of_lt (hascending.2.2 group hbefore _ (by simp [entry]))
    · simp only [List.map_cons, List.map_nil, List.mem_singleton, entry] at hlast
      exact hlast.le

end Mem

/-! ## Every sequence of clients -/

theorem acceptLoop_spec (host : ByteOrder) {sv : Server} {log : List Entry}
    {sequence : List (Int × Bytes)} (h : sv.Represents log) (hlog : LogOf sequence log)
    (connections : List Connection) :
    ∃ sv' texts log', acceptLoop host sv connections = some (sv', texts) ∧
      sv'.Represents log' ∧
      LogOf (sequence ++ connections.map (Connection.request host)) log' := by
  obtain ⟨sv', texts, log', hloop, hrepresents, hlog', -⟩ :=
    serverLoop_spec (Connection.request host) (fun c h => storeRequest_spec h (c.groupId host)
      (readInto c.stack.recvBuff c.second)) h hlog connections
  exact ⟨sv', texts, log', hloop, hrepresents, hlog'⟩

end SysprogTeam3.BasicServer
