import SysprogTeam3.Foundation.LinkedList
import Mathlib.Data.Int.Notation

/-!
# The group list of the basic server

`group_list.c` and `process_client` of `server.c`.  The items are records in the
memory that `malloc` hands out, and every function reads and writes them as the
code does.  `none` stands for what C leaves undefined or what does not return: a
NULL pointer that is followed, a failed assertion, a loop that does not end.
-/

namespace SysprogTeam3.BasicServer

open SysprogTeam3.Foundation

abbrev Addr := Nat

abbrev Bytes := List UInt8

abbrev Text := List Char

/-- `msg_list_t`; `mesg` is the contents of the block it points to, which belongs to
this item alone. -/
structure MsgList where
  nextItem : Option Addr
  mesg : Option Bytes
  mesgSize : Nat

structure GroupList where
  nextItem : Option Addr
  msgListHead : Option Addr
  group : Int

/-- The items, and the address that `malloc` returns next.  Nothing is freed. -/
structure Mem where
  groups : Addr → GroupList
  msgs : Addr → MsgList
  top : Addr

namespace Mem

def nextGroup (m : Mem) (a : Addr) : Option Addr := (m.groups a).nextItem

def nextMsg (m : Mem) (a : Addr) : Option Addr := (m.msgs a).nextItem

def setGroup (m : Mem) (a : Addr) (item : GroupList) : Mem :=
  { m with groups := Function.update m.groups a item }

def setMsg (m : Mem) (a : Addr) (item : MsgList) : Mem :=
  { m with msgs := Function.update m.msgs a item }

/-- There are fewer than `top` items of either kind, so no loop over a list takes
more rounds. -/
def rounds (m : Mem) : Nat := m.top + 1

end Mem

/-! ## Groups -/

/-- The tests in the loop of `get_group_list_item_or_insert_point`. -/
def insertPoint (m : Mem) (group : Int) (a : Addr) : Bool :=
  (m.groups a).group == group ||
    match (m.groups a).nextItem with
    | none => true
    | some b => decide ((m.groups b).group > group)

def getGroupListItemOrInsertPoint (m : Mem) (groupListHead : Option Addr) (group : Int) :
    Option (Option Addr) :=
  match groupListHead with
  | none => none
  | some head =>
      if (m.groups head).group > group then some none
      else walk m.nextGroup (insertPoint m group) m.rounds groupListHead

def getNewGroupListItem (m : Mem) (group : Int) : Addr × Mem :=
  (m.top, { m.setGroup m.top { nextItem := none, msgListHead := none, group := group } with
    top := m.top + 1 })

/-- Returns the item of the group, the memory and the new `*group_list_head`. -/
def getGroupListForWrite (m : Mem) (groupListHead : Option Addr) (group : Int) :
    Option (Addr × Mem × Option Addr) :=
  match getGroupListItemOrInsertPoint m groupListHead group with
  | none => none
  | some none =>
      let (newItem, m) := getNewGroupListItem m group
      let m := m.setGroup newItem { m.groups newItem with nextItem := groupListHead }
      some (newItem, m, some newItem)
  | some (some item) =>
      if (m.groups item).group = group then some (item, m, groupListHead)
      else
        let (newItem, m) := getNewGroupListItem m group
        let m := m.setGroup newItem
          { m.groups newItem with nextItem := (m.groups item).nextItem }
        let m := m.setGroup item { m.groups item with nextItem := some newItem }
        some (newItem, m, groupListHead)

/-! ## Messages -/

def getMsgListEnd (m : Mem) (msgListHead : Option Addr) : Option (Option Addr) :=
  match msgListHead with
  | none => some none
  | some _ => walk m.nextMsg (fun a => (m.msgs a).nextItem.isNone) m.rounds msgListHead

def getNewMsgListItem (m : Mem) : Addr × Mem :=
  (m.top, { m.setMsg m.top { nextItem := none, mesg := none, mesgSize := 0 } with
    top := m.top + 1 })

def cString (bytes : Bytes) : Bytes := bytes.takeWhile (· != 0)

def strncpy (dst src : Bytes) (n : Nat) : Bytes :=
  let copied := (cString src).take n
  copied ++ List.replicate (n - copied.length) 0 ++ dst.drop n

/-- The part of `write_message` that finds or makes the message item. -/
def addMsgListItem (m : Mem) (groupItem : Addr) : Option (Addr × Mem) :=
  match (m.groups groupItem).msgListHead with
  | none =>
      let (msgItem, m) := getNewMsgListItem m
      some (msgItem, m.setGroup groupItem
        { m.groups groupItem with msgListHead := some msgItem })
  | some first =>
      match getMsgListEnd m (some first) with
      | some (some msgItemTemp) =>
          let (msgItem, m) := getNewMsgListItem m
          some (msgItem, m.setMsg msgItemTemp
            { m.msgs msgItemTemp with nextItem := some msgItem })
      | _ => none

def writeMessage (m : Mem) (groupListHead : Option Addr) (group : Int) (message : Bytes)
    (msgSize : Nat) : Option (Mem × Option Addr) :=
  match getGroupListForWrite m groupListHead group with
  | none => none
  | some (groupItem, m, groupListHead) =>
      match addMsgListItem m groupItem with
      | none => none
      | some (msgItem, m) =>
          -- `malloc(msg_size+1)`, cleared before the copy
          let storeMesg := strncpy (List.replicate (msgSize + 1) 0) message (msgSize - 1)
          some (m.setMsg msgItem
            { m.msgs msgItem with mesg := some storeMesg, mesgSize := msgSize },
            groupListHead)

/-! ## Printing -/

def shown (bytes : Bytes) : Text := bytes.map fun byte => Char.ofNat byte.toNat

def msgLine (count : Nat) (mesg : Bytes) : Text :=
  '\t' :: (Nat.repr count).toList ++ ": ".toList ++ shown (cString mesg) ++ ['\n']

def groupLine (group : Int) : Text :=
  "GROUP: ".toList ++ (Int.repr group).toList ++ ['\n']

def banner : Text :=
  ("\n\n\n================================================================\n" ++
    "MESSAGES UPDATE\n" ++
    "================================================================\n").toList

/-- The loop of `print_msg_list`, from the item and the count it has come to. -/
def printMsgList (m : Mem) : Nat → Nat → Option Addr → Option Text
  | 0, _, _ => none
  | _ + 1, _, none => some []
  | fuel + 1, count, some msgItem =>
      match (m.msgs msgItem).mesg with
      | none => none
      | some mesg =>
          (printMsgList m fuel (count + 1) (m.msgs msgItem).nextItem).map
            (msgLine count mesg ++ ·)

def printGroups (m : Mem) : Nat → Option Addr → Option Text
  | 0, _ => none
  | _ + 1, none => some []
  | fuel + 1, some groupItem =>
      match printMsgList m m.rounds 1 (m.groups groupItem).msgListHead with
      | none => none
      | some messages =>
          (printGroups m fuel (m.groups groupItem).nextItem).map
            (groupLine (m.groups groupItem).group ++ messages ++ ·)

def printGroupList (m : Mem) (groupListHead : Option Addr) : Option Text :=
  (printGroups m m.rounds groupListHead).map (banner ++ ·)

/-! ## Requests -/

def maxServRecvBufSize : Nat := 1025

/-- A request that is received whole: the number that `ntohl` returns, and the bytes
that fill `recv_buff`, which hold a C string, as the client's last byte is a NUL. -/
structure Request where
  num : BitVec 32
  recvBuff : Bytes
  size : recvBuff.length = maxServRecvBufSize
  terminated : 0 ∈ recvBuff

def Request.groupId (r : Request) : Int := r.num.toInt

def Request.message (r : Request) : Bytes := cString r.recvBuff

structure Server where
  mem : Mem
  groupList : Option Addr

def Server.initial : Server :=
  { mem :=
      { groups := fun _ => { nextItem := none, msgListHead := none, group := 0 }
        msgs := fun _ => { nextItem := none, mesg := none, mesgSize := 0 }
        top := 0 }
    groupList := none }

/-- What `process_client` does with the group id and the contents of `recv_buff`: the
new state and what is printed.  The first item of all is made between the two reads,
which it has no effect on. -/
def storeRequest (sv : Server) (groupId : Int) (recvBuff : Bytes) : Option (Server × Text) :=
  let (mem, groupList) : Mem × Option Addr :=
    match sv.groupList with
    | none =>
        let (item, mem) := getNewGroupListItem sv.mem groupId
        (mem, some item)
    | some _ => (sv.mem, sv.groupList)
  match writeMessage mem groupList groupId recvBuff maxServRecvBufSize with
  | none => none
  | some (mem, groupList) =>
      (printGroupList mem groupList).map fun text =>
        ({ mem := mem, groupList := groupList }, text)

def processClient (sv : Server) (r : Request) : Option (Server × Text) :=
  storeRequest sv r.groupId r.recvBuff

def serverLoop {γ : Type} (process : Server → γ → Option (Server × Text)) :
    Server → List γ → Option (Server × List Text)
  | sv, [] => some (sv, [])
  | sv, client :: clients =>
      match process sv client with
      | none => none
      | some (sv, text) =>
          (serverLoop process sv clients).map fun result => (result.1, text :: result.2)

def serve : Server → List Request → Option (Server × List Text) := serverLoop processClient

end SysprogTeam3.BasicServer
