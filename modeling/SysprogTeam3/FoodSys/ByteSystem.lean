import SysprogTeam3.Foundation.Frames
import SysprogTeam3.Foundation.Simulation
import SysprogTeam3.FoodSys.CookSession
import SysprogTeam3.FoodSys.Delivered
import SysprogTeam3.FoodSys.Protocol
import SysprogTeam3.FoodSys.ReceiveLoop

/-!
# The programs over bytes

Here the connections carry bytes.  Each side takes what a read returns and looks at it
as a `pkt_t`, and writes packets from memory that is not cleared.  As long as every
read returns one packet, this is the system that passes packets.
-/

namespace SysprogTeam3.FoodSys

open SysprogTeam3.Foundation

structure ByteSystem where
  server : Server
  peer : Addr → Peer
  toServer : Addr → Bytes
  toClient : Addr → Bytes
  /-- `pkt` in the program's `main`. -/
  pkt : Addr → RawPkt
  /-- `retval` of `client.c`. -/
  retval : Addr → Nat
  /-- The customer's program has left its loop. -/
  done : Addr → Bool
  /-- What the program made of the packets that it read. -/
  received : Addr → List ServerPkt

/-- The events of the packets, with what the reads return and the memory held before. -/
inductive ByteEvent where
  | accept (a : Addr)
  | sendOrder (a : Addr) (p : CustOrderPkt) (l : Locals)
  | sendReg (a : Addr) (regData : RegData) (l : Locals)
  /-- The program's `read` returns `n` bytes; a cook answers an order with what it types. -/
  | read (a : Addr) (n : Nat) (typed : Bytes)
  /-- `bufferevent_read` returns `n` bytes, and the handler runs. -/
  | handle (a : Addr) (n : Nat) (data : DataBuf) (l : Locals)
  | disconnect (a : Addr)

namespace ByteEvent

def packet : ByteEvent → Event
  | .accept a => .accept a
  | .sendOrder a p _ => .sendOrder a p
  | .sendReg a regData _ => .sendReg a ⟨regData.capability⟩
  | .read a _ typed => .read a (charText (beforeNul typed))
  | .handle a _ _ _ => .handle a
  | .disconnect a => .disconnect a

def ReadsWhole : ByteEvent → Prop
  | .read _ n _ => n = pktSize
  | .handle _ n _ _ => n = pktSize
  | _ => True

instance (e : ByteEvent) : Decidable e.ReadsWhole :=
  match e with
  | .read _ n _ => inferInstanceAs (Decidable (n = pktSize))
  | .handle _ n _ _ => inferInstanceAs (Decidable (n = pktSize))
  | .accept _ | .sendOrder _ _ _ | .sendReg _ _ _ | .disconnect _ => isTrue trivial

end ByteEvent

def Chunk.ofStream (stream : Bytes) (n : Nat) : Chunk where
  bytes := stream.take (min n dataSize)
  length_le := by
    rw [List.length_take]
    omega

def rawWritesTo (writes : List Write) (raws : List RawPkt) (a : Addr) : List RawPkt :=
  (writes.zip raws).filterMap fun x => if x.1.1 = a then some x.2 else none

def Delivery.pkt : Delivery → ServerPkt
  | .cookOrder t => .cookOrder t.order
  | .custUpdate p => .custUpdate p

/-- A customer's program leaves its loop when it has read such a packet. -/
def ServerPkt.Terminal : ServerPkt → Prop
  | .cookOrder _ => False
  | .custUpdate u => u.Terminal

instance (p : ServerPkt) : Decidable p.Terminal :=
  match p with
  | .cookOrder _ => isFalse id
  | .custUpdate u => inferInstanceAs (Decidable u.Terminal)

namespace System

def readSoFar (s : System) (a : Addr) : List ServerPkt :=
  (s.sent a).take ((s.sent a).length - (s.toClient a).length)

def packetStep (s : System) (e : ByteEvent) : Option System := s.step e.packet

/-- A program that reads is in its loop, and a cook's `message` has room for what it
types. -/
def InLoop (s : System) : ByteEvent → Prop
  | .read a _ typed =>
      match s.peer a with
      | .silent => False
      | .customer _ => ∀ p ∈ s.readSoFar a, ¬ p.Terminal
      | .cook _ => typed.length ≤ messageRoom
  | _ => True

instance (s : System) (e : ByteEvent) : Decidable (s.InLoop e) :=
  match e with
  | .read a _ typed =>
      match hpeer : s.peer a with
      | .silent => isFalse (by simp [InLoop, hpeer])
      | .customer _ => decidable_of_iff (∀ p ∈ s.readSoFar a, ¬ p.Terminal)
          (by simp [InLoop, hpeer])
      | .cook _ => decidable_of_iff (typed.length ≤ messageRoom) (by simp [InLoop, hpeer])
  | .accept _ | .sendOrder _ _ _ | .sendReg _ _ _ | .handle _ _ _ _ | .disconnect _ =>
      isTrue trivial

end System

namespace ByteSystem

def initial : ByteSystem :=
  { server := { heap := fun _ => .zeroed, clientTailq := [] }
    peer := fun _ => .silent
    toServer := fun _ => []
    toClient := fun _ => []
    pkt := fun _ => .zeroed
    retval := fun _ => 0
    done := fun _ => false
    received := fun _ => [] }

def accept (t : ByteSystem) (a : Addr) : ByteSystem :=
  { server := onAccept t.server a
    peer := Function.update t.peer a .silent
    toServer := Function.update t.toServer a []
    toClient := Function.update t.toClient a []
    pkt := Function.update t.pkt a .zeroed
    retval := Function.update t.retval a 0
    done := Function.update t.done a false
    received := Function.update t.received a [] }

/-- The one packet that a program opens with; `client.c` clears `pkt` after it. -/
def introduce (t : ByteSystem) (a : Addr) (peer : Peer) (raw : RawPkt) : ByteSystem :=
  { t with
    peer := Function.update t.peer a peer
    toServer := Function.update t.toServer a (t.toServer a ++ raw.bytes)
    pkt := Function.update t.pkt a .zeroed }

def customerRead (host : ByteOrder) (t : ByteSystem) (a : Addr) (n : Nat) : ByteSystem :=
  let pkt := (t.pkt a).assign 0 ((t.toClient a).take n)
  let retval :=
    match pkt.received host with
    | some (.custUpdate p) => custUpdateHandler p
    | _ => t.retval a
  { t with
    toClient := Function.update t.toClient a ((t.toClient a).drop n)
    pkt := Function.update t.pkt a pkt
    retval := Function.update t.retval a retval
    done := Function.update t.done a (retval == 0)
    received := Function.update t.received a (t.received a ++ (pkt.received host).toList) }

def cookReply (host : ByteOrder) (typed : Bytes) : Option ServerPkt → Bytes
  | some (.cookOrder _) =>
      ((RawPkt.zeroed.header host .cookUpdate cookUpdatePktSize).payload (typed ++ [0])).bytes
  | _ => []

def cookRead (host : ByteOrder) (t : ByteSystem) (a : Addr) (n : Nat) (typed : Bytes) :
    ByteSystem :=
  let pkt := RawPkt.zeroed.assign 0 ((t.toClient a).take n)
  { t with
    toClient := Function.update t.toClient a ((t.toClient a).drop n)
    toServer := Function.update t.toServer a
      (t.toServer a ++ cookReply host typed (pkt.received host))
    pkt := Function.update t.pkt a pkt
    received := Function.update t.received a (t.received a ++ (pkt.received host).toList) }

def afterHandler (host : ByteOrder) (t : ByteSystem) (a : Addr) (n : Nat) (l : Locals)
    (pkt : Pkt) (result : Server × List Write) : ByteSystem :=
  let raws := writeAll host (l.message pkt) l.pkt result.2
  { t with
    server := result.1
    toServer := Function.update t.toServer a ((t.toServer a).drop n)
    toClient := fun b =>
      t.toClient b ++ ((rawWritesTo result.2 raws b).map RawPkt.bytes).flatten }

def disconnect (t : ByteSystem) (a : Addr) : ByteSystem :=
  { t with
    server := bufferedOnError t.server a
    toServer := Function.update t.toServer a []
    toClient := Function.update t.toClient a [] }

def step (host : ByteOrder) (t : ByteSystem) : ByteEvent → Option ByteSystem
  | .accept a => if a ∈ t.server.clientTailq then none else some (t.accept a)
  | .sendOrder a p l =>
      if a ∈ t.server.clientTailq ∧ t.peer a = .silent ∧ p.inRange then
        some (t.introduce a (.customer p) (custOrderRaw host l.pkt p))
      else none
  | .sendReg a regData l =>
      if a ∈ t.server.clientTailq ∧ t.peer a = .silent then
        some (t.introduce a (.cook ⟨regData.capability⟩) (regCookRaw host l.pkt regData))
      else none
  | .read a n typed =>
      if a ∈ t.server.clientTailq ∧ 0 < n ∧ n ≤ pktSize ∧ n ≤ (t.toClient a).length then
        match t.peer a with
        | .silent => none
        | .customer _ => if t.done a then none else some (t.customerRead host a n)
        | .cook _ =>
            if typed.length ≤ messageRoom then some (t.cookRead host a n typed) else none
      else none
  | .handle a n data l =>
      if a ∈ t.server.clientTailq ∧ 0 < n ∧ n ≤ (t.toServer a).length then
        match bufferedOnRead data (.ofStream (t.toServer a) n) with
        | none => none
        | some raw =>
            (handlerFuncDispatch t.server a (raw.decode host)).map
              (t.afterHandler host a (min n dataSize) l (raw.decode host))
      else none
  | .disconnect a =>
      if a ∈ t.server.clientTailq then some (t.disconnect a) else none

structure Reads (t t' : ByteSystem) (a : Addr) (p : ServerPkt) (reply : Bytes) : Prop where
  server : t'.server = t.server
  peer : t'.peer = t.peer
  toClient : t'.toClient = Function.update t.toClient a ((t.toClient a).drop pktSize)
  toServer : t'.toServer = Function.update t.toServer a (t.toServer a ++ reply)
  received : t'.received = Function.update t.received a (t.received a ++ [p])
  others : ∀ b, b ≠ a → t'.done b = t.done b

/-- The system of packets that the bytes stand for. -/
structure Follows (host : ByteOrder) (t : ByteSystem) (s : System) : Prop where
  wellFormed : s.WellFormed
  server : t.server = s.server
  peer : t.peer = s.peer
  toServer : ∀ a, s.Connected a → Carries RawPkt.bytes (RawPkt.decode host) (t.toServer a)
    ((s.toServer a).map Request.pkt)
  toClient : ∀ a, s.Connected a → Carries RawPkt.bytes (RawPkt.received host)
    (t.toClient a) ((s.toClient a).map fun d => some d.pkt)
  received : ∀ a, s.Connected a → s.sent a = t.received a ++ (s.toClient a).map Delivery.pkt
  idle : ∀ a, s.Connected a → s.peer a = .silent → t.received a = [] ∧ t.done a = false
  done : ∀ a p, s.Connected a → s.peer a = .customer p →
    (t.done a = true ↔ ∃ q ∈ t.received a, q.Terminal)

end ByteSystem

/-! ## Whole reads -/

theorem RawPkt.assign_whole (old raw : RawPkt) : old.assign 0 raw.bytes = raw := by
  ext1
  apply List.ext_getElem
  · rw [(old.assign 0 raw.bytes).length_eq, raw.length_eq]
  · intro n hn hraw
    simp [RawPkt.assign, hraw]

theorem bufferedOnRead_whole {stream : Bytes} {raw : RawPkt}
    (h : stream.take pktSize = raw.bytes) (data : DataBuf) :
    bufferedOnRead data (.ofStream stream pktSize) = some raw := by
  have hsize : min pktSize dataSize = pktSize := Nat.min_eq_left pktSize_le_dataSize
  have hchunk : (Chunk.ofStream stream pktSize).bytes = raw.bytes := by
    change stream.take (min pktSize dataSize) = raw.bytes
    rw [hsize, h]
  have hlength : (Chunk.ofStream stream pktSize).bytes.length = pktSize := by
    rw [hchunk, raw.length_eq]
  rw [bufferedOnRead, hlength, if_neg (by decide)]
  congr 1
  ext1
  rw [pkt_read_of_le hlength.ge, hchunk, ← raw.length_eq, List.take_length]

theorem RawPkt.slice_split (raw : RawPkt) (offset first second : Nat) :
    raw.slice offset (first + second) =
      raw.slice offset first ++ raw.slice (offset + first) second := by
  simp [RawPkt.slice, List.range_add, Nat.add_assoc, Function.comp_def]

theorem beforeNul_append_nul (bytes rest : Bytes) :
    beforeNul (bytes ++ 0 :: rest) = beforeNul bytes := by
  simp only [beforeNul, List.takeWhile_append]
  split
  · rename_i hall
    rw [(List.takeWhile_prefix _).eq_of_length hall]
    simp
  · rfl

theorem decode_cookUpdate (host : ByteOrder) {typed : Bytes}
    (htyped : typed.length ≤ messageRoom) :
    ((RawPkt.zeroed.header host .cookUpdate cookUpdatePktSize).payload
        (typed ++ [0])).decode host = .cookUpdate ⟨charText (beforeNul typed)⟩ := by
  have htype := RawPkt.type_payload host .cookUpdate cookUpdatePktSize .zeroed (typed ++ [0])
  have hroom : messageRoom = 30 ∧ unionOffset = 4 ∧ pktSize = 228 := by decide
  have hlength : (typed ++ [0]).length = typed.length + 1 := by simp
  have hself : ((RawPkt.zeroed.header host .cookUpdate cookUpdatePktSize).payload
      (typed ++ [0])).slice unionOffset (typed ++ [0]).length = typed ++ [0] :=
    RawPkt.slice_assign_self (by omega)
  have hmessage : ∃ rest, ((RawPkt.zeroed.header host .cookUpdate cookUpdatePktSize).payload
      (typed ++ [0])).slice unionOffset 32 = typed ++ 0 :: rest := by
    obtain ⟨k, hk⟩ := Nat.exists_eq_add_of_le (show (typed ++ [0]).length ≤ 32 by omega)
    rw [hk, RawPkt.slice_split, hself, List.append_assoc, List.singleton_append]
    exact ⟨_, rfl⟩
  obtain ⟨rest, hslice⟩ := hmessage
  unfold RawPkt.decode
  rw [htype, hslice, beforeNul_append_nul]
  rfl

/-! ## Writes -/

theorem rawWritesTo_received {host : ByteOrder} {writes : List Write} {raws : List RawPkt}
    (h : raws.map (RawPkt.received host) = writes.map fun w => some w.2) (b : Addr) :
    (rawWritesTo writes raws b).map (RawPkt.received host) = (writesTo writes b).map some := by
  induction writes generalizing raws with
  | nil => rfl
  | cons w writes ih =>
      cases raws with
      | nil => simp at h
      | cons raw raws =>
          simp only [List.map_cons, List.cons.injEq] at h
          have hrest := ih h.2
          simp only [rawWritesTo, writesTo] at hrest
          by_cases hb : w.1 = b
          · simp [rawWritesTo, writesTo, hb, h.1, hrest]
          · simp [rawWritesTo, writesTo, hb, hrest]

@[simp] theorem System.delivery_pkt (s : System) (a : Addr) (p : ServerPkt) :
    (s.delivery a p).pkt = p := by
  cases p <;> rfl

namespace ByteSystem

variable {host : ByteOrder} {t t' : ByteSystem} {s : System} {a : Addr}

theorem initial_follows : initial.Follows host .initial where
  wellFormed := System.initial_wellFormed
  server := rfl
  peer := rfl
  toServer := by simp [System.initial, System.Connected]
  toClient := by simp [System.initial, System.Connected]
  received := by simp [System.initial, System.Connected]
  idle := by simp [System.initial, System.Connected]
  done := by simp [System.initial, System.Connected]

namespace Follows

theorem mem_iff (h : t.Follows host s) (a : Addr) :
    a ∈ t.server.clientTailq ↔ s.Connected a := by
  rw [System.Connected, h.server]

theorem next_delivery (h : t.Follows host s) (hconn : s.Connected a)
    (hsome : pktSize ≤ (t.toClient a).length) :
    ∃ (raw : RawPkt) (d : Delivery) (rest : List Delivery), s.toClient a = d :: rest ∧
      raw.received host = some d.pkt ∧
      (t.toClient a).take pktSize = raw.bytes ∧
      Carries RawPkt.bytes (RawPkt.received host) ((t.toClient a).drop pktSize)
        (rest.map fun d => some d.pkt) := by
  have hpos : 0 < pktSize := by decide
  have hne : t.toClient a ≠ [] := List.ne_nil_of_length_pos (Nat.lt_of_lt_of_le hpos hsome)
  obtain ⟨raw, pkts, hpkts, htake, hrest⟩ :=
    (h.toClient a hconn).take RawPkt.length_eq hne
  obtain ⟨d, rest, hread, hd, rfl⟩ := List.map_eq_cons_iff.mp hpkts
  exact ⟨raw, d, rest, hread, hd.symm, htake, hrest⟩

theorem next_request (h : t.Follows host s) (hconn : s.Connected a)
    (hsome : pktSize ≤ (t.toServer a).length) :
    ∃ (raw : RawPkt) (r : Request) (rest : List Request), s.toServer a = r :: rest ∧
      raw.decode host = r.pkt ∧
      (t.toServer a).take pktSize = raw.bytes ∧
      Carries RawPkt.bytes (RawPkt.decode host) ((t.toServer a).drop pktSize)
        (rest.map Request.pkt) := by
  have hpos : 0 < pktSize := by decide
  have hne : t.toServer a ≠ [] := List.ne_nil_of_length_pos (Nat.lt_of_lt_of_le hpos hsome)
  obtain ⟨raw, pkts, hpkts, htake, hrest⟩ :=
    (h.toServer a hconn).take RawPkt.length_eq hne
  obtain ⟨r, rest, hread, hr, rfl⟩ := List.map_eq_cons_iff.mp hpkts
  exact ⟨raw, r, rest, hread, hr.symm, htake, hrest⟩

theorem accept (h : t.Follows host s) (hfree : ¬ s.Connected a) :
    (t.accept a).Follows host (s.accept a) where
  wellFormed := System.wellFormed_accept h.wellFormed hfree
  server := by rw [ByteSystem.accept, System.accept, h.server]
  peer := by rw [ByteSystem.accept, System.accept, h.peer]
  toServer := by
    intro b hb
    by_cases hba : b = a
    · subst hba
      simpa [ByteSystem.accept, System.accept] using carries_nil
    · simpa [ByteSystem.accept, System.accept, hba] using
        h.toServer b (by simpa [hba] using hb)
  toClient := by
    intro b hb
    by_cases hba : b = a
    · subst hba
      simpa [ByteSystem.accept, System.accept] using carries_nil
    · simpa [ByteSystem.accept, System.accept, hba] using
        h.toClient b (by simpa [hba] using hb)
  received := by
    intro b hb
    by_cases hba : b = a
    · subst hba
      simp [ByteSystem.accept, System.accept]
    · simpa [ByteSystem.accept, System.accept, hba] using
        h.received b (by simpa [hba] using hb)
  idle := by
    intro b hb hsilent
    by_cases hba : b = a
    · simp [ByteSystem.accept, hba]
    · simp only [ByteSystem.accept, System.accept, Function.update_of_ne hba] at hsilent ⊢
      exact h.idle b (by simpa [hba] using hb) hsilent
  done := by
    intro b p hb hpeer
    by_cases hba : b = a
    · simp [System.accept, hba] at hpeer
    · simp only [ByteSystem.accept, System.accept, Function.update_of_ne hba] at hpeer ⊢
      exact h.done b p (by simpa [hba] using hb) hpeer

theorem introduce (h : t.Follows host s) {peer : Peer} {r : Request} {raw : RawPkt}
    (hconn : s.Connected a) (hsilent : s.peer a = .silent) (hpeer : peer ≠ .silent)
    (hwell : (s.introduce a peer r).WellFormed) (hraw : raw.decode host = r.pkt) :
    (t.introduce a peer raw).Follows host (s.introduce a peer r) where
  wellFormed := hwell
  server := h.server
  peer := by rw [ByteSystem.introduce, System.introduce, h.peer]
  toServer := by
    intro b hb
    by_cases hba : b = a
    · subst hba
      have hframe : Carries RawPkt.bytes (RawPkt.decode host) raw.bytes [r.pkt] :=
        hraw ▸ carries_frame raw
      simpa [ByteSystem.introduce, System.introduce] using (h.toServer b hb).append hframe
    · simpa [ByteSystem.introduce, System.introduce, hba] using h.toServer b hb
  toClient := h.toClient
  received := h.received
  idle := by
    intro b hb hb'
    by_cases hba : b = a
    · simp [System.introduce, hba, hpeer] at hb'
    · exact h.idle b hb (by simpa [System.introduce, hba] using hb')
  done := by
    intro b p hb hb'
    by_cases hba : b = a
    · subst hba
      obtain ⟨hnone, hopen⟩ := h.idle b hconn hsilent
      simp [ByteSystem.introduce, hnone, hopen]
    · exact h.done b p hb (by simpa [System.introduce, hba] using hb')

theorem disconnect (h : t.Follows host s) :
    (t.disconnect a).Follows host (s.disconnect a) where
  wellFormed := System.wellFormed_disconnect h.wellFormed
  server := by rw [ByteSystem.disconnect, System.disconnect, h.server]
  peer := h.peer
  toServer := by
    intro b hb
    obtain ⟨hba, hold⟩ := (System.disconnect_connected h.wellFormed).mp hb
    simpa [ByteSystem.disconnect, System.disconnect, hba] using h.toServer b hold
  toClient := by
    intro b hb
    obtain ⟨hba, hold⟩ := (System.disconnect_connected h.wellFormed).mp hb
    simpa [ByteSystem.disconnect, System.disconnect, hba] using h.toClient b hold
  received := by
    intro b hb
    obtain ⟨hba, hold⟩ := (System.disconnect_connected h.wellFormed).mp hb
    simpa [ByteSystem.disconnect, System.disconnect, hba] using h.received b hold
  idle := fun b hb => h.idle b ((System.disconnect_connected h.wellFormed).mp hb).2
  done := fun b p hb => h.done b p ((System.disconnect_connected h.wellFormed).mp hb).2

theorem reply (p : RegCookPkt) (d : Delivery) {typed : Bytes}
    (htyped : typed.length ≤ messageRoom) :
    Carries RawPkt.bytes (RawPkt.decode host) (cookReply host typed (some d.pkt))
      ((System.reply (charText (beforeNul typed)) (.cook p) d).map Request.pkt) := by
  cases d with
  | custUpdate => exact carries_nil
  | cookOrder t =>
      have hframe : Carries RawPkt.bytes (RawPkt.decode host) _ [_] := carries_frame
        ((RawPkt.zeroed.header host .cookUpdate cookUpdatePktSize).payload (typed ++ [0]))
      rw [decode_cookUpdate host htyped] at hframe
      exact hframe

theorem consume (h : t.Follows host s) {message : Text} {d : Delivery}
    {rest : List Delivery} {reply : Bytes} (hreads : t.Reads t' a d.pkt reply)
    (hread : s.toClient a = d :: rest)
    (hwell : (s.consume a message d rest).WellFormed)
    (hrest : Carries RawPkt.bytes (RawPkt.received host) ((t.toClient a).drop pktSize)
      (rest.map fun d => some d.pkt))
    (hreply : Carries RawPkt.bytes (RawPkt.decode host) reply
      ((System.reply message (s.peer a) d).map Request.pkt))
    (hloop : s.peer a ≠ .silent)
    (hdone : ∀ p, s.peer a = .customer p →
      (t'.done a = true ↔ ∃ q ∈ t.received a ++ [d.pkt], q.Terminal)) :
    t'.Follows host (s.consume a message d rest) where
  wellFormed := hwell
  server := hreads.server.trans h.server
  peer := hreads.peer.trans h.peer
  toServer := by
    intro b hb
    rw [hreads.toServer]
    by_cases hba : b = a
    · subst hba
      simpa [System.consume] using (h.toServer b hb).append hreply
    · simpa [System.consume, hba] using h.toServer b hb
  toClient := by
    intro b hb
    rw [hreads.toClient]
    by_cases hba : b = a
    · subst hba
      simpa [System.consume] using hrest
    · simpa [System.consume, hba] using h.toClient b hb
  received := by
    intro b hb
    have hold := h.received b hb
    rw [hreads.received]
    by_cases hba : b = a
    · subst hba
      simpa [System.consume, hread] using hold
    · simpa [System.consume, hba] using hold
  idle := by
    intro b hb hsilent
    have hba : b ≠ a := fun heq => hloop (heq ▸ hsilent)
    rw [hreads.received, hreads.others b hba, Function.update_of_ne hba]
    exact h.idle b hb hsilent
  done := by
    intro b p hb hpeer
    rw [hreads.received]
    by_cases hba : b = a
    · subst hba
      rw [Function.update_self]
      exact hdone p hpeer
    · rw [hreads.others b hba, Function.update_of_ne hba]
      exact h.done b p hb hpeer

theorem custUpdate_of_customer (h : t.Follows host s) (hconn : s.Connected a)
    {p : CustOrderPkt} (hpeer : s.peer a = .customer p) {d : Delivery}
    {rest : List Delivery} (hread : s.toClient a = d :: rest) : ∃ u, d = .custUpdate u := by
  cases d with
  | custUpdate u => exact ⟨u, rfl⟩
  | cookOrder k =>
      obtain ⟨q, hcook⟩ := (h.wellFormed.phase a hconn).cook_of_unread
        (t := k) (by simp [System.unreadOrders_cons hread])
      rw [hpeer] at hcook
      cases hcook

theorem customerRead (h : t.Follows host s) (hconn : s.Connected a) {message : Text}
    {p : CustOrderPkt} (hpeer : s.peer a = .customer p) (hopen : t.done a = false)
    {raw : RawPkt} {d : Delivery} {rest : List Delivery} (hread : s.toClient a = d :: rest)
    (hraw : raw.received host = some d.pkt)
    (htake : (t.toClient a).take pktSize = raw.bytes)
    (hwell : (s.consume a message d rest).WellFormed)
    (hrest : Carries RawPkt.bytes (RawPkt.received host) ((t.toClient a).drop pktSize)
      (rest.map fun d => some d.pkt)) :
    (t.customerRead host a pktSize).Follows host (s.consume a message d rest) := by
  have hnone : Carries RawPkt.bytes (RawPkt.decode host) []
      ((System.reply message (s.peer a) d).map Request.pkt) := by
    rw [hpeer]
    exact carries_nil
  have hreads : t.Reads (t.customerRead host a pktSize) a d.pkt [] :=
    { server := rfl
      peer := rfl
      toClient := rfl
      toServer := by simp [ByteSystem.customerRead]
      received := by simp [ByteSystem.customerRead, htake, RawPkt.assign_whole, hraw]
      others := fun b hb => by simp [ByteSystem.customerRead, hb] }
  refine h.consume hreads hread hwell hrest hnone (by simp [hpeer]) fun _ _ => ?_
  obtain ⟨u, rfl⟩ := h.custUpdate_of_customer hconn hpeer hread
  have hbefore : ∀ q ∈ t.received a, ¬ q.Terminal := by
    have hold := h.done a p hconn hpeer
    rw [hopen] at hold
    simpa using hold
  have hset : (t.customerRead host a pktSize).done a = true ↔ u.Terminal := by
    simp [ByteSystem.customerRead, htake, RawPkt.assign_whole, hraw, Delivery.pkt,
      custUpdateHandler_eq_zero]
  rw [hset]
  constructor
  · exact fun hu => ⟨.custUpdate u, List.mem_append_right _ (by simp [Delivery.pkt]), hu⟩
  · rintro ⟨q, hq, hterminal⟩
    rcases List.mem_append.mp hq with hold | hnew
    · exact absurd hterminal (hbefore q hold)
    · rw [List.mem_singleton.mp hnew] at hterminal
      exact hterminal

theorem cookRead (h : t.Follows host s) {typed : Bytes}
    (htyped : typed.length ≤ messageRoom) {p : RegCookPkt} (hpeer : s.peer a = .cook p)
    {raw : RawPkt} {d : Delivery} {rest : List Delivery} (hread : s.toClient a = d :: rest)
    (hraw : raw.received host = some d.pkt)
    (htake : (t.toClient a).take pktSize = raw.bytes)
    (hwell : (s.consume a (charText (beforeNul typed)) d rest).WellFormed)
    (hrest : Carries RawPkt.bytes (RawPkt.received host) ((t.toClient a).drop pktSize)
      (rest.map fun d => some d.pkt)) :
    (t.cookRead host a pktSize typed).Follows host
      (s.consume a (charText (beforeNul typed)) d rest) := by
  have hreply : Carries RawPkt.bytes (RawPkt.decode host) (cookReply host typed (some d.pkt))
      ((System.reply (charText (beforeNul typed)) (s.peer a) d).map Request.pkt) := by
    rw [hpeer]
    exact reply p d htyped
  have hreads : t.Reads (t.cookRead host a pktSize typed) a d.pkt
      (cookReply host typed (some d.pkt)) :=
    { server := rfl
      peer := rfl
      toClient := rfl
      toServer := by simp [ByteSystem.cookRead, htake, RawPkt.assign_whole, hraw]
      received := by simp [ByteSystem.cookRead, htake, RawPkt.assign_whole, hraw]
      others := fun _ _ => rfl }
  exact h.consume hreads hread hwell hrest hreply (by simp [hpeer]) (by simp [hpeer])

theorem read (h : t.Follows host s) {typed : Bytes}
    (hstep : t.step host (.read a pktSize typed) = some t') :
    ∃ s', s.step (.read a (charText (beforeNul typed))) = some s' ∧ t'.Follows host s' := by
  simp only [ByteSystem.step, Option.ite_none_right_eq_some, h.mem_iff] at hstep
  obtain ⟨⟨hconn, -, -, hsome⟩, hstep⟩ := hstep
  obtain ⟨raw, d, rest, hread, hraw, htake, hrest⟩ := h.next_delivery hconn hsome
  have hnext : s.step (.read a (charText (beforeNul typed))) =
      some (s.consume a (charText (beforeNul typed)) d rest) := by
    simp [System.step, hconn, hread]
  have hwell := System.wellFormed_step h.wellFormed hnext
  refine ⟨_, hnext, ?_⟩
  rw [h.peer] at hstep
  cases hpeer : s.peer a with
  | silent => simp [hpeer] at hstep
  | customer p =>
      simp only [hpeer, Option.ite_none_left_eq_some, Option.some.injEq] at hstep
      obtain ⟨hopen, rfl⟩ := hstep
      exact h.customerRead hconn hpeer (by simpa using hopen) hread hraw htake hwell hrest
  | cook p =>
      simp only [hpeer, Option.ite_none_right_eq_some, Option.some.injEq] at hstep
      obtain ⟨htyped, rfl⟩ := hstep
      exact h.cookRead htyped hpeer hread hraw htake hwell hrest

theorem handle (h : t.Follows host s) {data : DataBuf} {l : Locals}
    (hstep : t.step host (.handle a pktSize data l) = some t') :
    ∃ s', s.step (.handle a) = some s' ∧ t'.Follows host s' := by
  simp only [ByteSystem.step, Option.ite_none_right_eq_some, h.mem_iff] at hstep
  obtain ⟨⟨hconn, -, hsome⟩, hstep⟩ := hstep
  obtain ⟨raw, r, rest, hrequest, hraw, htake, hrest⟩ := h.next_request hconn hsome
  have hsize : min pktSize dataSize = pktSize := Nat.min_eq_left pktSize_le_dataSize
  rw [bufferedOnRead_whole htake, h.server] at hstep
  simp only [Option.map_eq_some_iff, hraw, hsize] at hstep
  obtain ⟨result, hresult, rfl⟩ := hstep
  have hnext : s.step (.handle a) = some (s.afterHandler a result) := by
    simp [System.step, hconn, System.handled, hrequest, hresult]
  have hwell := System.wellFormed_step h.wellFormed hnext
  have hwritten : ∀ b, Carries RawPkt.bytes (RawPkt.received host)
      ((rawWritesTo result.2 (writeAll host (l.message r.pkt) l.pkt result.2) b).map
        RawPkt.bytes).flatten ((writesTo result.2 b).map some) := by
    intro b
    have hdecoded := rawWritesTo_received
      (writeAll_received host l r.pkt (fun _ _ hmem => dispatch_printable hresult hmem) l.pkt) b
    exact hdecoded ▸ carries_frames _
  have hqueue : ∀ b, (s.afterHandler a result).Connected b → s.Connected b := by
    intro b hb
    rwa [System.Connected, System.afterHandler, dispatch_clientTailq hresult] at hb
  refine ⟨_, hnext, hwell, rfl, h.peer, fun b hb => ?_, fun b hb => ?_, fun b hb => ?_,
    fun b hb => h.idle b (hqueue b hb), fun b p hb => h.done b p (hqueue b hb)⟩
  · by_cases hba : b = a
    · subst hba
      simpa [ByteSystem.afterHandler, System.afterHandler, hrequest] using hrest
    · simpa [ByteSystem.afterHandler, System.afterHandler, hba] using
        h.toServer b (hqueue b hb)
  · simpa [ByteSystem.afterHandler, System.afterHandler, Function.comp_def] using
      (h.toClient b (hqueue b hb)).append (hwritten b)
  · simp [ByteSystem.afterHandler, System.afterHandler, Function.comp_def,
      h.received b (hqueue b hb)]

theorem step (h : t.Follows host s) {e : ByteEvent} (hwhole : e.ReadsWhole)
    (hstep : t.step host e = some t') :
    ∃ s', s.step e.packet = some s' ∧ t'.Follows host s' := by
  cases e with
  | accept a =>
      simp only [ByteSystem.step, Option.ite_none_left_eq_some, Option.some.injEq,
        h.mem_iff] at hstep
      obtain ⟨hfree, rfl⟩ := hstep
      exact ⟨s.accept a, by simp [System.step, ByteEvent.packet, hfree], h.accept hfree⟩
  | sendOrder a p l =>
      simp only [ByteSystem.step, Option.ite_none_right_eq_some, Option.some.injEq,
        h.mem_iff, h.peer] at hstep
      obtain ⟨hguard, rfl⟩ := hstep
      have hnext : s.step (.sendOrder a p) =
          some (s.introduce a (.customer p) (.custOrder p)) := by
        rw [System.step, if_pos hguard]
      exact ⟨_, hnext, h.introduce hguard.1 hguard.2.1 (by simp)
        (System.wellFormed_step h.wellFormed hnext) (decode_custOrderRaw host l.pkt p)⟩
  | sendReg a regData l =>
      simp only [ByteSystem.step, Option.ite_none_right_eq_some, Option.some.injEq,
        h.mem_iff, h.peer] at hstep
      obtain ⟨hguard, rfl⟩ := hstep
      have hnext : s.step (.sendReg a ⟨regData.capability⟩) =
          some (s.introduce a (.cook ⟨regData.capability⟩)
            (.regCook ⟨regData.capability⟩)) := by
        rw [System.step, if_pos hguard]
      exact ⟨_, hnext, h.introduce hguard.1 hguard.2 (by simp)
        (System.wellFormed_step h.wellFormed hnext) (decode_regCookRaw host l.pkt regData)⟩
  | read a n typed =>
      obtain rfl : n = pktSize := hwhole
      exact h.read hstep
  | handle a n data l =>
      obtain rfl : n = pktSize := hwhole
      exact h.handle hstep
  | disconnect a =>
      simp only [ByteSystem.step, Option.ite_none_right_eq_some, Option.some.injEq,
        h.mem_iff] at hstep
      obtain ⟨hconn, rfl⟩ := hstep
      exact ⟨s.disconnect a, by simp [System.step, ByteEvent.packet, hconn], h.disconnect⟩

/-! ### The other direction -/

theorem readSoFar_eq (h : t.Follows host s) (hconn : s.Connected a) :
    s.readSoFar a = t.received a := by
  rw [System.readSoFar, h.received a hconn, List.length_append, List.length_map,
    Nat.add_sub_cancel, List.take_left]

theorem inLoop (h : t.Follows host s) {e : ByteEvent} (hstep : t.step host e = some t') :
    s.InLoop e := by
  cases e with
  | accept | sendOrder | sendReg | handle | disconnect => trivial
  | read a n typed =>
      simp only [ByteSystem.step, Option.ite_none_right_eq_some, h.mem_iff, h.peer] at hstep
      obtain ⟨⟨hconn, -⟩, hstep⟩ := hstep
      cases hpeer : s.peer a with
      | silent => simp [hpeer] at hstep
      | customer p =>
          simp only [hpeer, Option.ite_none_left_eq_some] at hstep
          have hdone := h.done a p hconn hpeer
          have hopen : t.done a = false := by simpa using hstep.1
          rw [hopen] at hdone
          simpa [System.InLoop, hpeer, h.readSoFar_eq hconn] using hdone
      | cook p =>
          simp only [hpeer, Option.ite_none_right_eq_some] at hstep
          simpa [System.InLoop, hpeer] using hstep.1

theorem read_isSome (h : t.Follows host s) {typed : Bytes} {message : Text}
    (hloop : s.InLoop (.read a pktSize typed)) {s' : System}
    (hnext : s.step (.read a message) = some s') :
    (t.step host (.read a pktSize typed)).isSome := by
  simp only [System.step, Option.ite_none_right_eq_some] at hnext
  obtain ⟨hconn, hnext⟩ := hnext
  have hfull : pktSize ≤ (t.toClient a).length := by
    cases hread : s.toClient a with
    | nil => simp [hread] at hnext
    | cons d rest =>
        have hcarries := h.toClient a hconn
        rw [hread, List.map_cons] at hcarries
        exact hcarries.le_length RawPkt.length_eq
  have hguard : a ∈ t.server.clientTailq ∧ 0 < pktSize ∧ pktSize ≤ pktSize ∧
      pktSize ≤ (t.toClient a).length :=
    ⟨(h.mem_iff a).mpr hconn, by decide, Nat.le_refl _, hfull⟩
  simp only [ByteSystem.step, if_pos hguard, h.peer]
  cases hpeer : s.peer a with
  | silent => simp [System.InLoop, hpeer] at hloop
  | customer p =>
      simp only [System.InLoop, hpeer, h.readSoFar_eq hconn] at hloop
      have hopen : t.done a = false := by
        rw [← Bool.not_eq_true, h.done a p hconn hpeer]
        simpa using hloop
      simp [hopen]
  | cook p =>
      simp only [System.InLoop, hpeer] at hloop
      simp [hloop]

theorem handle_isSome (h : t.Follows host s) (data : DataBuf) (l : Locals) {s' : System}
    (hnext : s.step (.handle a) = some s') :
    (t.step host (.handle a pktSize data l)).isSome := by
  simp only [System.step, Option.ite_none_right_eq_some, Option.map_eq_some_iff] at hnext
  obtain ⟨hconn, result, hresult, -⟩ := hnext
  have hfull : pktSize ≤ (t.toServer a).length := by
    cases hrequest : s.toServer a with
    | nil => simp [System.handled, hrequest] at hresult
    | cons r rest =>
        have hcarries := h.toServer a hconn
        rw [hrequest, List.map_cons] at hcarries
        exact hcarries.le_length RawPkt.length_eq
  obtain ⟨raw, r, rest, hrequest, hraw, htake, -⟩ := h.next_request hconn hfull
  have hguard : s.Connected a ∧ 0 < pktSize ∧ pktSize ≤ (t.toServer a).length :=
    ⟨hconn, by decide, hfull⟩
  simp only [System.handled, hrequest] at hresult
  simp only [ByteSystem.step, if_pos hguard, bufferedOnRead_whole htake, hraw, h.server,
    hresult]
  rfl

theorem step_isSome (h : t.Follows host s) {e : ByteEvent} (hwhole : e.ReadsWhole)
    (hloop : s.InLoop e) {s' : System} (hnext : s.step e.packet = some s') :
    (t.step host e).isSome := by
  cases e with
  | accept a =>
      simp only [ByteEvent.packet, System.step, Option.ite_none_left_eq_some] at hnext
      simp [ByteSystem.step, h.mem_iff, hnext.1]
  | sendOrder a p l =>
      simp only [ByteEvent.packet, System.step, Option.ite_none_right_eq_some] at hnext
      simp [ByteSystem.step, h.mem_iff, h.peer, hnext.1]
  | sendReg a regData l =>
      simp only [ByteEvent.packet, System.step, Option.ite_none_right_eq_some] at hnext
      simp [ByteSystem.step, h.mem_iff, h.peer, hnext.1]
  | read a n typed =>
      obtain rfl : n = pktSize := hwhole
      exact h.read_isSome hloop hnext
  | handle a n data l =>
      obtain rfl : n = pktSize := hwhole
      exact h.handle_isSome data l hnext
  | disconnect a =>
      simp only [ByteEvent.packet, System.step, Option.ite_none_right_eq_some] at hnext
      simp [ByteSystem.step, h.mem_iff, hnext.1]

theorem step_back (h : t.Follows host s) {e : ByteEvent} (hwhole : e.ReadsWhole)
    (hloop : s.InLoop e) {s' : System} (hnext : s.packetStep e = some s') :
    ∃ t', t.step host e = some t' ∧ t'.Follows host s' := by
  obtain ⟨t', ht'⟩ := Option.isSome_iff_exists.mp (h.step_isSome hwhole hloop hnext)
  obtain ⟨s'', hs'', hfollows⟩ := h.step hwhole ht'
  rw [System.packetStep, hs'', Option.some.injEq] at hnext
  exact ⟨t', ht', hnext ▸ hfollows⟩

end Follows

theorem follows_run (host : ByteOrder) {events : List ByteEvent}
    (hwhole : ∀ e ∈ events, e.ReadsWhole) :
    (∀ t, run (step host) initial events = some t →
        AllSteps System.packetStep System.InLoop .initial events ∧
          ∃ s, run System.packetStep .initial events = some s ∧ t.Follows host s) ∧
      ∀ s, AllSteps System.packetStep System.InLoop .initial events →
        run System.packetStep .initial events = some s →
        ∃ t, run (step host) initial events = some t ∧ t.Follows host s := by
  have hforth : ∀ (t : ByteSystem) (s : System) (e : ByteEvent) t', t.Follows host s →
      e.ReadsWhole → t.step host e = some t' →
        s.InLoop e ∧ ∃ s', s.packetStep e = some s' ∧ t'.Follows host s' :=
    fun _ _ _ _ h he hstep => ⟨h.inLoop hstep, h.step he hstep⟩
  have hback : ∀ (t : ByteSystem) (s : System) (e : ByteEvent) s', t.Follows host s →
      e.ReadsWhole → s.InLoop e → s.packetStep e = some s' →
        ∃ t', t.step host e = some t' ∧ t'.Follows host s' :=
    fun _ _ _ _ h he hloop hnext => h.step_back he hloop hnext
  exact run_bisimulation hforth hback initial_follows hwhole

/--
While each read returns one packet, the runs over bytes are just the runs of the system
that passes packets in which the programs read in their loops, whatever the memory held
before.  The server has the same records in both, and each program has made of what it
read the first of the packets that were sent to it.
-/
theorem bytes_iff_packets (host : ByteOrder) {events : List ByteEvent}
    (hwhole : ∀ e ∈ events, e.ReadsWhole) :
    ((run (step host) initial events).isSome ↔
        (run System.packetStep .initial events).isSome ∧
          AllSteps System.packetStep System.InLoop .initial events) ∧
      ∀ t s, run (step host) initial events = some t →
        run System.packetStep .initial events = some s →
        t.server = s.server ∧ t.peer = s.peer ∧
          ∀ a, s.Connected a →
            s.sent a = t.received a ++ (s.toClient a).map Delivery.pkt := by
  obtain ⟨hforth, hback⟩ := follows_run host hwhole
  refine ⟨⟨fun hsome => ?_, fun hsome => ?_⟩, fun t s ht hs => ?_⟩
  · obtain ⟨t, ht⟩ := Option.isSome_iff_exists.mp hsome
    obtain ⟨hloop, s, hs, -⟩ := hforth t ht
    exact ⟨by rw [hs]; rfl, hloop⟩
  · obtain ⟨s, hs⟩ := Option.isSome_iff_exists.mp hsome.1
    obtain ⟨t, ht, -⟩ := hback s hsome.2 hs
    rw [ht]
    rfl
  · obtain ⟨-, s', hs', hfollows⟩ := hforth t ht
    obtain rfl : s' = s := Option.some.inj (hs'.symm.trans hs)
    exact ⟨hfollows.server, hfollows.peer, hfollows.received⟩

def itemOneCook : RegData where
  names := (Locals.fill 255).names
  names_length := (Locals.fill 255).names_length
  capability := (RegCookPkt.ofItems [1]).capability

/-- An order is cooked, and everything that is not written is 255. -/
def dirtyRun : List ByteEvent :=
  [.accept 1, .sendReg 1 itemOneCook (.fill 255),
   .handle 1 pktSize (.replicate 255) (.fill 255),
   .accept 2, .sendOrder 2 (.ofCodes [1]) (.fill 255),
   .handle 2 pktSize (.replicate 255) (.fill 255), .read 1 pktSize [newline],
   .handle 1 pktSize (.replicate 255) (.fill 255), .read 2 pktSize []]

set_option maxRecDepth 4000 in
theorem bytes_iff_packets_dirtyRun : (run (step .little) initial dirtyRun).isSome :=
  (bytes_iff_packets .little (by decide)).1.mpr ⟨by decide, by decide⟩

end ByteSystem

end SysprogTeam3.FoodSys
