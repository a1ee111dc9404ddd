import Mathlib.Data.List.TakeWhile
import SysprogTeam3.BasicServer.Refinement

/-!
# Sessions of the basic server

Whatever requests the server handles, its list is the log of them, and what it
prints is that log: the groups in ascending order, each with its messages numbered
in the order in which they arrived.
-/

namespace SysprogTeam3.BasicServer

open SysprogTeam3.Foundation

/-! ## The text that is stored -/

theorem cString_append_zeros {text zeros : Bytes} (htext : ∀ b ∈ text, b ≠ 0)
    (hzeros : ∀ b ∈ zeros, b = 0) : cString (text ++ zeros) = text := by
  rw [cString, List.takeWhile_append_of_pos fun b hb => by simpa using htext b hb]
  cases zeros with
  | nil => exact List.append_nil _
  | cons b zeros => simp [hzeros b List.mem_cons_self]

theorem ne_zero_of_mem_cString {bytes : Bytes} {b : UInt8} (hb : b ∈ cString bytes) :
    b ≠ 0 := by simpa using List.mem_takeWhile_imp hb

theorem cString_cString (bytes : Bytes) : cString (cString bytes) = cString bytes := by
  have htext : ∀ b ∈ cString bytes, b ≠ 0 := fun b => ne_zero_of_mem_cString
  have hself := cString_append_zeros htext (List.forall_mem_nil (· = 0))
  rwa [List.append_nil] at hself

theorem Request.message_length (r : Request) : r.message.length < maxServRecvBufSize := by
  have hstart : r.message <+: r.recvBuff := List.takeWhile_prefix _
  refine Nat.lt_of_le_of_ne (r.size ▸ hstart.length_le) fun hlength => ?_
  have hall := hstart.eq_of_length (hlength.trans r.size.symm)
  exact ne_zero_of_mem_cString (hall.symm ▸ r.terminated : (0 : UInt8) ∈ r.message) rfl

/-- The text in a `recv_buff`, as far as `write_message` copies it. -/
def storedText (recvBuff : Bytes) : Bytes :=
  (cString recvBuff).take (maxServRecvBufSize - 1)

theorem ne_zero_of_mem_storedText {recvBuff : Bytes} {b : UInt8}
    (hb : b ∈ storedText recvBuff) : b ≠ 0 :=
  ne_zero_of_mem_cString (List.mem_of_mem_take hb)

theorem strncpy_eq (recvBuff : Bytes) :
    strncpy (List.replicate (maxServRecvBufSize + 1) 0) recvBuff (maxServRecvBufSize - 1) =
      storedText recvBuff ++
        List.replicate (maxServRecvBufSize + 1 - (storedText recvBuff).length) 0 := by
  have hlength : (storedText recvBuff).length ≤ maxServRecvBufSize - 1 :=
    List.length_take_le _ _
  have hzeros : maxServRecvBufSize - 1 - (storedText recvBuff).length +
      (maxServRecvBufSize + 1 - (maxServRecvBufSize - 1)) =
        maxServRecvBufSize + 1 - (storedText recvBuff).length := by
    rw [maxServRecvBufSize] at hlength ⊢
    omega
  rw [strncpy, ← storedText, List.drop_replicate, List.append_assoc,
    List.replicate_append_replicate, hzeros]

theorem cString_strncpy (recvBuff : Bytes) :
    cString (strncpy (List.replicate (maxServRecvBufSize + 1) 0) recvBuff
      (maxServRecvBufSize - 1)) = storedText recvBuff := by
  rw [strncpy_eq]
  exact cString_append_zeros (fun b => ne_zero_of_mem_storedText) fun b hb =>
    (List.mem_replicate.mp hb).2

theorem storedText_message (r : Request) : storedText r.recvBuff = r.message :=
  List.take_of_length_le (Nat.le_sub_one_of_lt r.message_length)

/-! ## Printing -/

def logText (log : List Entry) : Text :=
  banner ++ log.flatMap fun e =>
    groupLine e.1 ++ (e.2.zipIdx 1).flatMap fun x => msgLine x.2 x.1

theorem msgLine_cString (count : Nat) (mesg : Bytes) :
    msgLine count (cString mesg) = msgLine count mesg := by
  rw [msgLine, msgLine, cString_cString]

namespace Mem

variable {m : Mem} {head : Option Addr} {layout : Layout}

theorem printMsgList_spec {p : Option Addr} {msgs : List Addr} {fuel : Nat}
    (h : Chain m.nextMsg p msgs) (hfilled : ∀ a ∈ msgs, (m.msgs a).mesg.isSome = true)
    (hfuel : msgs.length < fuel) (count : Nat) :
    printMsgList m fuel count p =
      some (((msgs.map m.stored).zipIdx count).flatMap fun x => msgLine x.2 x.1) := by
  induction msgs generalizing p fuel count with
  | nil =>
      obtain ⟨fuel, rfl⟩ := Nat.exists_eq_succ_of_ne_zero (Nat.ne_of_gt hfuel)
      rw [segment_nil.mp h]
      rfl
  | cons a msgs ih =>
      obtain ⟨fuel, rfl⟩ := Nat.exists_eq_succ_of_ne_zero (Nat.ne_zero_of_lt hfuel)
      obtain ⟨mesg, hmesg⟩ := Option.isSome_iff_exists.mp (hfilled a List.mem_cons_self)
      have hstored : m.stored a = cString mesg := by rw [stored, hmesg]; rfl
      have hrest := ih h.2 (fun b hb => hfilled b (List.mem_cons_of_mem a hb))
        (Nat.lt_of_succ_lt_succ hfuel) (count + 1)
      rw [nextMsg] at hrest
      rw [h.1, printMsgList, hmesg, hrest, List.map_cons, List.zipIdx_cons,
        List.flatMap_cons, hstored, msgLine_cString]
      rfl

theorem printGroups_spec {p : Option Addr} {fuel : Nat}
    (h : Chain m.nextGroup p (layout.map Prod.fst))
    (hmsgs : ∀ e ∈ layout, printMsgList m m.rounds 1 (m.groups e.1).msgListHead =
      some (((e.2.map m.stored).zipIdx 1).flatMap fun x => msgLine x.2 x.1))
    (hfuel : layout.length < fuel) :
    printGroups m fuel p = some ((m.log layout).flatMap fun e =>
      groupLine e.1 ++ (e.2.zipIdx 1).flatMap fun x => msgLine x.2 x.1) := by
  induction layout generalizing p fuel with
  | nil =>
      obtain ⟨fuel, rfl⟩ := Nat.exists_eq_succ_of_ne_zero (Nat.ne_of_gt hfuel)
      rw [segment_nil.mp h]
      rfl
  | cons e layout ih =>
      obtain ⟨fuel, rfl⟩ := Nat.exists_eq_succ_of_ne_zero (Nat.ne_zero_of_lt hfuel)
      have hrest := ih h.2 (fun x hx => hmsgs x (List.mem_cons_of_mem e hx))
        (Nat.lt_of_succ_lt_succ hfuel)
      rw [nextGroup] at hrest
      rw [h.1, printGroups, hmsgs e List.mem_cons_self, hrest]
      simp [log, entry]

theorem printGroupList_spec (h : m.Holds head layout) :
    printGroupList m head = some (logText (m.log layout)) := by
  have hgroups := printGroups_spec h.groups (fun e he =>
    printMsgList_spec (h.msgs e he) (h.filled e he) (h.msgs_length he) 1) h.groups_length
  rw [printGroupList, hgroups]
  rfl

end Mem

/-! ## Requests -/

def Server.Represents (sv : Server) (log : List Entry) : Prop :=
  ∃ layout, sv.mem.Holds sv.groupList layout ∧ sv.mem.log layout = log

theorem initial_represents : Server.initial.Represents [] :=
  ⟨[], ⟨rfl, by simp, List.nodup_nil, by simp, by simp, by simp⟩, rfl⟩

theorem first_item_holds (sv : Server) (group : Int) :
    (getNewGroupListItem sv.mem group).2.Holds (some sv.mem.top) [(sv.mem.top, [])] ∧
      (getNewGroupListItem sv.mem group).2.log [(sv.mem.top, [])] = [(group, [])] := by
  have hnone : sv.mem.Holds none ([] ++ []) :=
    ⟨rfl, by simp, List.nodup_nil, by simp, by simp, by simp⟩
  have hmade : Mem.GroupMade sv.mem (getNewGroupListItem sv.mem group).2 group :=
    Mem.groupMade_first sv.mem none group
  refine ⟨hmade.holds hnone ⟨rfl, ?_⟩, ?_⟩
  · simp [getNewGroupListItem, Mem.setGroup, Mem.nextGroup]
  · simp [Mem.log, Mem.entry, hmade.new]

theorem write_and_print {m : Mem} {head : Option Addr} {layout : Layout}
    (h : m.Holds head layout) (hne : layout ≠ []) (groupId : Int) (recvBuff : Bytes) :
    ∃ m' head',
      writeMessage m head groupId recvBuff maxServRecvBufSize = some (m', head') ∧
      printGroupList m' head' =
        some (logText (record groupId (storedText recvBuff) (m.log layout))) ∧
      Server.Represents ⟨m', head'⟩ (record groupId (storedText recvBuff) (m.log layout)) := by
  obtain ⟨m', head', layout', hwrite, h', -, hlog⟩ :=
    Mem.writeMessage_spec h hne groupId recvBuff maxServRecvBufSize
  rw [cString_strncpy] at hlog
  refine ⟨m', head', hwrite, ?_, layout', h', hlog⟩
  rw [← hlog]
  exact Mem.printGroupList_spec h'

theorem storeRequest_spec {sv : Server} {log : List Entry} (h : sv.Represents log)
    (groupId : Int) (recvBuff : Bytes) :
    ∃ sv', storeRequest sv groupId recvBuff =
        some (sv', logText (record groupId (storedText recvBuff) log)) ∧
      sv'.Represents (record groupId (storedText recvBuff) log) := by
  obtain ⟨layout, hholds, rfl⟩ := h
  cases hlist : sv.groupList with
  | none =>
      have hempty : layout = [] := by
        cases layout with
        | nil => rfl
        | cons e rest => exact absurd (hlist.symm.trans hholds.groups.1) (by simp)
      obtain ⟨hfirst, hlogFirst⟩ := first_item_holds sv groupId
      obtain ⟨m', head', hwrite, hprint, hrepresents⟩ :=
        write_and_print hfirst (by simp) groupId recvBuff
      have hrecord : record groupId (storedText recvBuff) [(groupId, [])] =
          record groupId (storedText recvBuff) (sv.mem.log layout) := by
        rw [hempty]
        simp [record, Mem.log]
      rw [hlogFirst, hrecord] at hprint hrepresents
      have hnew : (getNewGroupListItem sv.mem groupId).1 = sv.mem.top := rfl
      refine ⟨⟨m', head'⟩, ?_, hrepresents⟩
      simp only [storeRequest, hlist, hnew, hwrite, hprint, Option.map_some]
  | some first =>
      have hne : layout ≠ [] := by
        rintro rfl
        exact absurd (hlist.symm.trans hholds.groups) (by simp)
      rw [hlist] at hholds
      obtain ⟨m', head', hwrite, hprint, hrepresents⟩ :=
        write_and_print hholds hne groupId recvBuff
      refine ⟨⟨m', head'⟩, ?_, hrepresents⟩
      simp only [storeRequest, hlist, hwrite, hprint, Option.map_some]

theorem serverLoop_spec {γ : Type} {process : Server → γ → Option (Server × Text)}
    (entry : γ → Int × Bytes)
    (hprocess : ∀ {sv log} (client : γ), sv.Represents log → ∃ sv',
      process sv client =
          some (sv', logText (record (entry client).1 (entry client).2 log)) ∧
        sv'.Represents (record (entry client).1 (entry client).2 log))
    {sv : Server} {log : List Entry} {sequence : List (Int × Bytes)}
    (h : sv.Represents log) (hlog : LogOf sequence log) (clients : List γ) :
    ∃ sv' texts log', serverLoop process sv clients = some (sv', texts) ∧
      sv'.Represents log' ∧ LogOf (sequence ++ clients.map entry) log' ∧
      texts.getLast?.getD (logText log) = logText log' := by
  induction clients generalizing sv log sequence with
  | nil => exact ⟨sv, [], log, rfl, h, by simpa using hlog, rfl⟩
  | cons client clients ih =>
      obtain ⟨next, hstore, hnext⟩ := hprocess client h
      obtain ⟨sv', texts, log', hrest, hrepresents, hlog', hlast⟩ :=
        ih hnext (hlog.record (entry client))
      refine ⟨sv', logText (record (entry client).1 (entry client).2 log) :: texts, log',
        ?_, hrepresents, by simpa using hlog', ?_⟩
      · simp only [serverLoop, hstore, hrest, Option.map_some]
      · rw [List.getLast?_cons]
        exact hlast

theorem processClient_spec {sv : Server} {log : List Entry} (h : sv.Represents log)
    (r : Request) :
    ∃ sv', processClient sv r = some (sv', logText (record r.groupId r.message log)) ∧
      sv'.Represents (record r.groupId r.message log) := by
  rw [processClient, ← storedText_message]
  exact storeRequest_spec h r.groupId r.recvBuff

/--
The server handles every sequence of requests, its list is then the log of the
requests, and it prints that log.
-/
theorem group_list_refines_log (requests : List Request) :
    ∃ sv texts layout, serve .initial requests = some (sv, texts) ∧
      sv.mem.Holds sv.groupList layout ∧
      LogOf (requests.map fun r => (r.groupId, r.message)) (sv.mem.log layout) ∧
      printGroupList sv.mem sv.groupList = some (logText (sv.mem.log layout)) ∧
      ∀ text ∈ texts.getLast?, text = logText (sv.mem.log layout) := by
  obtain ⟨sv, texts, log, hserve, ⟨layout, hholds, rfl⟩, hlog, hlast⟩ :=
    serverLoop_spec (fun r : Request => (r.groupId, r.message))
      (fun r h => processClient_spec h r) initial_represents LogOf.nil requests
  refine ⟨sv, texts, layout, hserve, hholds, hlog, Mem.printGroupList_spec hholds,
    fun text htext => ?_⟩
  rw [Option.mem_def.mp htext] at hlast
  exact hlast

end SysprogTeam3.BasicServer
