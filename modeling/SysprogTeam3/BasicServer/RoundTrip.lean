import SysprogTeam3.Foundation.TextInput
import SysprogTeam3.BasicServer.Connection

/-!
# A request from the client to the list

The client sends its group id in network order and the whole of its send buffer.  When
the server's reads return both, it stores the message under the id, in a block that
holds nothing else.
-/

namespace SysprogTeam3.BasicServer

open SysprogTeam3.Foundation

/-! ## The client -/

def maxClntSendBufSize : Nat := 1025

def strcpy (dst text : Bytes) : Bytes := text ++ 0 :: dst.drop (text.length + 1)

/-- `int32_t group_id = htonl(atoi(argv[2]));`, as it lies in memory. -/
def groupIdSent (client : ByteOrder) (argv2 : Bytes) : Bytes :=
  client.store 4 (client.network 4 (BitVec.ofInt 32 (atoi argv2)).toNat)

/-- `strcpy(sendBuff,argv[3]); sendBuff[sizeof(sendBuff)-1] = '\0';` -/
def sendBuff (filling argv3 : Bytes) : Bytes :=
  (strcpy filling argv3).set (maxClntSendBufSize - 1) 0

/-! ## What the server reads -/

variable {filling message : Bytes}

theorem sendBuff_eq (filling : Bytes) (hlength : message.length < maxClntSendBufSize) :
    ∃ rest, sendBuff filling message = message ++ 0 :: rest := by
  have hbefore : message.length ≤ maxClntSendBufSize - 1 := Nat.le_sub_one_of_lt hlength
  rw [sendBuff, strcpy, List.set_append_right _ _ hbefore]
  cases maxClntSendBufSize - 1 - message.length with
  | zero => exact ⟨_, rfl⟩
  | succ k => exact ⟨_, rfl⟩

theorem length_sendBuff (hfilling : filling.length = maxClntSendBufSize)
    (hlength : message.length < maxClntSendBufSize) :
    (sendBuff filling message).length = maxServRecvBufSize := by
  rw [sendBuff, List.length_set, strcpy, List.length_append, List.length_cons,
    List.length_drop, hfilling, maxServRecvBufSize]
  rw [maxClntSendBufSize] at hlength ⊢
  omega

theorem cString_sendBuff (hmessage : ∀ b ∈ message, b ≠ 0)
    (hlength : message.length < maxClntSendBufSize) :
    cString (sendBuff filling message) = message := by
  obtain ⟨rest, hbuff⟩ := sendBuff_eq filling hlength
  rw [hbuff, cString, List.takeWhile_append_of_pos fun b hb => by simpa using hmessage b hb]
  simp

/-- The client's request, as the server has it when its reads return the whole. -/
def clientRequest (groupId : BitVec 32) (hfilling : filling.length = maxClntSendBufSize)
    (hlength : message.length < maxClntSendBufSize) : Request where
  num := groupId
  recvBuff := sendBuff filling message
  size := length_sendBuff hfilling hlength
  terminated := by
    obtain ⟨rest, hbuff⟩ := sendBuff_eq filling hlength
    rw [hbuff]
    exact List.mem_append_right message List.mem_cons_self

theorem groupIdSent_eq {groupId : BitVec 32} {argv2 : Bytes}
    (hargv2 : atoi argv2 = groupId.toInt) (client : ByteOrder) :
    groupIdSent client argv2 = ByteOrder.big.store 4 groupId.toNat := by
  rw [groupIdSent, hargv2, BitVec.ofInt_toInt, ByteOrder.store_network]

/-! ## The block of a message -/

/-- One message item was made, for this block; the other texts are as they were. -/
def Mem.Written (m m' : Mem) (block : Bytes) : Prop :=
  ∃ item, m.top ≤ item ∧ (m'.msgs item).mesg = some block ∧
    ∀ a, a ≠ item → (m'.msgs a).mesg = (m.msgs a).mesg

namespace Mem

variable {m m' : Mem} {head head' : Option Addr} {group : Int}

theorem getGroupListForWrite_msgs {item : Addr}
    (h : getGroupListForWrite m head group = some (item, m', head')) :
    m'.msgs = m.msgs ∧ m.top ≤ m'.top := by
  rw [getGroupListForWrite] at h
  split at h
  · simp at h
  · simp only [Option.some.injEq, Prod.mk.injEq] at h
    obtain ⟨-, rfl, -⟩ := h
    exact ⟨rfl, Nat.le_succ _⟩
  · split at h
    · simp only [Option.some.injEq, Prod.mk.injEq] at h
      obtain ⟨-, rfl, -⟩ := h
      exact ⟨rfl, le_rfl⟩
    · simp only [Option.some.injEq, Prod.mk.injEq] at h
      obtain ⟨-, rfl, -⟩ := h
      exact ⟨rfl, Nat.le_succ _⟩

theorem addMsgListItem_texts {groupItem msgItem : Addr}
    (h : addMsgListItem m groupItem = some (msgItem, m')) :
    msgItem = m.top ∧ ∀ a, a ≠ m.top → (m'.msgs a).mesg = (m.msgs a).mesg := by
  rw [addMsgListItem] at h
  split at h
  · simp only [Option.some.injEq, Prod.mk.injEq] at h
    obtain ⟨rfl, rfl⟩ := h
    exact ⟨rfl, fun a ha => by simp [getNewMsgListItem, setGroup, setMsg, ha]⟩
  · split at h
    · rename_i last hend
      simp only [Option.some.injEq, Prod.mk.injEq] at h
      obtain ⟨rfl, rfl⟩ := h
      refine ⟨rfl, fun a ha => ?_⟩
      by_cases hlast : a = last
      · subst hlast
        simp [getNewMsgListItem, setMsg, ha]
      · simp [getNewMsgListItem, setMsg, ha, hlast]
    · simp at h

theorem writeMessage_written {message : Bytes} {size : Nat}
    (h : writeMessage m head group message size = some (m', head')) :
    m.Written m' (strncpy (List.replicate (size + 1) 0) message (size - 1)) := by
  rw [writeMessage] at h
  split at h
  · simp at h
  · rename_i groupItem m₁ head₁ hopen
    split at h
    · simp at h
    · rename_i msgItem m₂ hadd
      simp only [Option.some.injEq, Prod.mk.injEq] at h
      obtain ⟨rfl, -⟩ := h
      obtain ⟨hmsgs, htop⟩ := getGroupListForWrite_msgs hopen
      obtain ⟨rfl, htexts⟩ := addMsgListItem_texts hadd
      refine ⟨m₁.top, htop, by simp [setMsg], fun a ha => ?_⟩
      rw [← hmsgs, ← htexts a ha]
      simp [setMsg, ha]

end Mem

theorem storeRequest_written {sv sv' : Server} {groupId : Int} {recvBuff : Bytes} {text : Text}
    (h : storeRequest sv groupId recvBuff = some (sv', text)) :
    sv.mem.Written sv'.mem (storedText recvBuff ++
      List.replicate (maxServRecvBufSize + 1 - (storedText recvBuff).length) 0) := by
  rw [← strncpy_eq]
  rw [storeRequest] at h
  split at h
  rename_i mem groupList hopen
  -- the first group of all takes an address, and no message
  have hkept : mem.msgs = sv.mem.msgs ∧ sv.mem.top ≤ mem.top := by
    split at hopen
    · obtain ⟨rfl, -⟩ := Prod.mk.inj hopen
      exact ⟨rfl, Nat.le_succ _⟩
    · obtain ⟨rfl, -⟩ := Prod.mk.inj hopen
      exact ⟨rfl, le_rfl⟩
  split at h
  · simp at h
  · rename_i m' head' hwrite
    obtain ⟨printed, -, hresult⟩ := Option.map_eq_some_iff.mp h
    obtain ⟨rfl, -⟩ := Prod.mk.inj hresult
    obtain ⟨item, htop, hblock, hothers⟩ := Mem.writeMessage_written hwrite
    exact ⟨item, hkept.2.trans htop, hblock, fun a ha => hkept.1 ▸ hothers a ha⟩

/--
What one client sends is stored under the group id that it was given, and the block of
the message is the message with zeros after it.
-/
theorem request_roundTrip (client server : ByteOrder) (stack : Stack) {sv : Server}
    {log : List Entry} (h : sv.Represents log) {groupId : BitVec 32} {argv2 : Bytes}
    (hargv2 : atoi argv2 = groupId.toInt)
    (hfilling : filling.length = maxClntSendBufSize) (hmessage : ∀ b ∈ message, b ≠ 0)
    (hlength : message.length < maxClntSendBufSize) :
    (recvUint32FromSock server stack.num (groupIdSent client argv2)).toInt = groupId.toInt ∧
    ∃ sv' text, processConnection server stack sv (groupIdSent client argv2)
        (sendBuff filling message) = some (sv', text) ∧
      sv'.Represents (record groupId.toInt message log) ∧
      sv.mem.Written sv'.mem
        (message ++ List.replicate (maxServRecvBufSize + 1 - message.length) 0) := by
  have hnum : recvUint32FromSock server stack.num (groupIdSent client argv2) = groupId := by
    rw [groupIdSent_eq hargv2]
    exact recvUint32FromSock_store server stack groupId
  let r := clientRequest groupId hfilling hlength
  have hsent : groupIdSent client argv2 = ByteOrder.big.store 4 r.num.toNat :=
    groupIdSent_eq hargv2 client
  have htext : r.message = message := cString_sendBuff hmessage hlength
  obtain ⟨sv', hprocess, hrepresents⟩ := processClient_spec h r
  have hwritten := storeRequest_written hprocess
  rw [storedText_message, htext] at hwritten
  rw [htext] at hrepresents
  rw [← processConnection_request server stack, ← hsent] at hprocess
  exact ⟨congrArg BitVec.toInt hnum, sv', _, hprocess, hrepresents, hwritten⟩

def minusTwo : BitVec 32 := BitVec.ofInt 32 (-2)

/-- The message `A` for the group -2, from a little-endian host to a big-endian one. -/
theorem request_roundTrip_letter :
    minusTwo.toInt = -2 ∧
      (recvUint32FromSock .big (Stack.fill 7).num (groupIdSent .little [45, 50])).toInt =
        minusTwo.toInt ∧
      ∃ sv' text, processConnection .big (.fill 7) .initial (groupIdSent .little [45, 50])
          (sendBuff (List.replicate maxClntSendBufSize 48) [65]) = some (sv', text) ∧
        sv'.Represents (record minusTwo.toInt [65] []) ∧
        Server.initial.mem.Written sv'.mem
          ([65] ++ List.replicate (maxServRecvBufSize + 1 - [65].length) 0) :=
  ⟨by decide, request_roundTrip .little .big (.fill 7) initial_represents
    (show atoi [45, 50] = minusTwo.toInt by decide) List.length_replicate (by simp)
    (by decide)⟩

end SysprogTeam3.BasicServer
