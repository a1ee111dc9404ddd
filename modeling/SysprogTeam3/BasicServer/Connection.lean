import SysprogTeam3.Foundation.ByteOrder
import SysprogTeam3.BasicServer.Sessions

/-!
# What a connection delivers

`process_client` reads a group id and a message without a look at what `read` returns.
Where the client sends less, or a piece is shorter than was asked for, what the server's
stack held before takes the place of the bytes that did not come.
-/

namespace SysprogTeam3.BasicServer

open SysprogTeam3.Foundation

/-! ## The two reads -/

def readInto (buffer received : Bytes) : Bytes := received ++ buffer.drop received.length

/-- What the uninitialised variables of one call hold. -/
structure Stack where
  num : Bytes
  recvBuff : Bytes
  num_length : num.length = 4
  recvBuff_length : recvBuff.length = maxServRecvBufSize

def Stack.fill (byte : UInt8) : Stack where
  num := List.replicate 4 byte
  recvBuff := List.replicate maxServRecvBufSize byte
  num_length := List.length_replicate
  recvBuff_length := List.length_replicate

def recvUint32FromSock (host : ByteOrder) (num received : Bytes) : BitVec 32 :=
  BitVec.ofNat 32 (host.network 4 (host.load (readInto num received)))

/-- `process_client`, with what its two calls of `read` return. -/
def processConnection (host : ByteOrder) (stack : Stack) (sv : Server)
    (first second : Bytes) : Option (Server × Text) :=
  let groupId : Int := (recvUint32FromSock host stack.num first).toInt
  storeRequest sv groupId (readInto stack.recvBuff second)

/-- The pieces of a stream that the two calls return, before the client closes. -/
structure Reads (stream first second : Bytes) : Prop where
  pieces : first ++ second <+: stream
  first_length : first.length ≤ 4
  second_length : second.length ≤ maxServRecvBufSize
  /-- A call returns nothing only at the end of the stream. -/
  first_end : first = [] → stream = []
  second_end : second = [] → stream = first

/-! ## Whole requests -/

def requestSize : Nat := 4 + maxServRecvBufSize

def requestGroup (stream : Bytes) : Int :=
  (BitVec.ofNat 32 (ByteOrder.big.load (stream.take 4))).toInt

def requestText (stream : Bytes) : Bytes :=
  cString ((stream.drop 4).take maxServRecvBufSize)

/-- Whatever the stack holds, the server stores the request of the stream, or leaves its
list alone where the stream does not start with a whole one. -/
def WholeOrNothing (host : ByteOrder) (sv : Server) (log : List Entry)
    (stream first second : Bytes) : Prop :=
  ∀ stack, ∃ sv' text, processConnection host stack sv first second = some (sv', text) ∧
    sv'.Represents
      (if requestSize ≤ stream.length then record (requestGroup stream) (requestText stream) log
      else log)

/-- The reads return the group id, and the message up to its NUL. -/
structure ReadWhole (stream first second : Bytes) : Prop where
  whole : requestSize ≤ stream.length
  first : first.length = 4
  terminated : (requestText stream).length < maxServRecvBufSize
  /-- The last byte of the buffer is not copied. -/
  second : (requestText stream).length < second.length ∨
    maxServRecvBufSize - 1 ≤ second.length

/-! ## Bytes that did not come -/

theorem readInto_of_length_eq {buffer received : Bytes}
    (h : received.length = buffer.length) : readInto buffer received = received := by
  rw [readInto, h, List.drop_length, List.append_nil]

theorem recvUint32FromSock_store (host : ByteOrder) (stack : Stack) (num : BitVec 32) :
    recvUint32FromSock host stack.num (ByteOrder.big.store 4 num.toNat) = num := by
  have hlength : (ByteOrder.big.store 4 num.toNat).length = 4 := ByteOrder.length_store ..
  have hload : host.network 4 (host.load (ByteOrder.big.store 4 num.toNat)) =
      num.toNat % 256 ^ 4 := ByteOrder.network_roundTrip .big host 4 num.toNat
  rw [Nat.mod_eq_of_lt (show _ < 256 ^ 4 from num.isLt)] at hload
  rw [recvUint32FromSock, readInto_of_length_eq (hlength.trans stack.num_length.symm), hload,
    BitVec.ofNat_toNat, BitVec.setWidth_eq]

theorem processConnection_request (host : ByteOrder) (stack : Stack) (sv : Server)
    (r : Request) :
    processConnection host stack sv (ByteOrder.big.store 4 r.num.toNat) r.recvBuff =
      processClient sv r := by
  rw [processConnection, recvUint32FromSock_store,
    readInto_of_length_eq (r.size.trans stack.recvBuff_length.symm)]
  rfl

theorem readInto_replicate (n : Nat) (byte : UInt8) (received : Bytes) :
    readInto (List.replicate n byte) received =
      received ++ List.replicate (n - received.length) byte := by
  rw [readInto, List.drop_replicate]

theorem length_readInto {buffer received : Bytes}
    (h : received.length ≤ buffer.length) :
    (readInto buffer received).length = buffer.length := by
  rw [readInto, List.length_append, List.length_drop]
  omega

theorem recvUint32FromSock_eq {num received : Bytes} (hnum : num.length = 4)
    (hreceived : received.length ≤ 4) (host : ByteOrder) :
    recvUint32FromSock host num received =
      BitVec.ofNat 32 (ByteOrder.big.load (readInto num received)) := by
  have hload := host.network_load (readInto num received)
  rw [length_readInto (hnum ▸ hreceived), hnum] at hload
  rw [recvUint32FromSock, hload]

theorem readInto_inj_of_num {num num' received : Bytes} (hnum : num.length = 4)
    (hnum' : num'.length = 4) (hreceived : received.length ≤ 4) {host : ByteOrder}
    (h : recvUint32FromSock host num received = recvUint32FromSock host num' received) :
    readInto num received = readInto num' received := by
  have hlength := (length_readInto (hnum ▸ hreceived)).trans hnum
  have hlength' := (length_readInto (hnum' ▸ hreceived)).trans hnum'
  have hlt := ByteOrder.big.load_lt (readInto num received)
  have hlt' := ByteOrder.big.load_lt (readInto num' received)
  rw [recvUint32FromSock_eq hnum hreceived, recvUint32FromSock_eq hnum' hreceived] at h
  have hload := congrArg BitVec.toNat h
  rw [BitVec.toNat_ofNat, BitVec.toNat_ofNat, Nat.mod_eq_of_lt (by simpa [hlength] using hlt),
    Nat.mod_eq_of_lt (by simpa [hlength'] using hlt')] at hload
  exact ByteOrder.big.load_inj (hlength.trans hlength'.symm) hload

theorem groupId_eq_iff {stream first second : Bytes} (hreads : Reads stream first second)
    (hwhole : requestSize ≤ stream.length) (host : ByteOrder) :
    (∀ stack : Stack, (recvUint32FromSock host stack.num first).toInt =
      requestGroup stream) ↔ first.length = 4 := by
  constructor
  · intro h
    have hnum := BitVec.eq_of_toInt_eq ((h (.fill 0)).trans (h (.fill 1)).symm)
    have hinto := readInto_inj_of_num (Stack.fill 0).num_length (Stack.fill 1).num_length
      hreads.first_length hnum
    have hle := hreads.first_length
    rw [Stack.fill, Stack.fill, readInto_replicate, readInto_replicate,
      List.append_cancel_left_eq, List.replicate_inj] at hinto
    have hmissing : 4 - first.length = 0 := hinto.2.resolve_right (by decide)
    omega
  · intro hfirst stack
    have hstart : stream.take 4 = first := by
      obtain ⟨rest, rfl⟩ := hreads.pieces
      rw [List.append_assoc, List.take_left' hfirst]
    rw [recvUint32FromSock_eq stack.num_length hreads.first_length,
      readInto_of_length_eq (hfirst.trans stack.num_length.symm), requestGroup, hstart]

theorem cString_of_piece {piece buffer : Bytes} (hpiece : piece <+: buffer)
    (h : (cString buffer).length < piece.length) (rest : Bytes) :
    cString (piece ++ rest) = cString buffer := by
  obtain ⟨tail, rfl⟩ := hpiece
  unfold cString at h ⊢
  rw [List.takeWhile_append] at h ⊢
  rw [List.takeWhile_append]
  split
  case isTrue hall =>
      rw [if_pos hall, List.length_append] at h
      omega
  case isFalse hall => rfl

theorem cString_append_of_piece {piece buffer : Bytes} (hpiece : piece <+: buffer)
    (h : piece.length ≤ (cString buffer).length) (rest : Bytes) :
    cString (piece ++ rest) = piece ++ cString rest := by
  have htext : piece <+: cString buffer :=
    List.prefix_of_prefix_length_le hpiece (List.takeWhile_prefix _) h
  rw [cString, List.takeWhile_append_of_pos fun b hb => by
    simpa using ne_zero_of_mem_cString (htext.subset hb)]
  rfl

theorem Reads.second_isPrefix {stream first second : Bytes} (h : Reads stream first second)
    (hfirst : first.length = 4) : second <+: (stream.drop 4).take maxServRecvBufSize := by
  obtain ⟨rest, rfl⟩ := h.pieces
  rw [List.append_assoc, List.drop_left' hfirst, List.take_append]
  rw [List.take_of_length_le h.second_length]
  exact List.prefix_append _ _

theorem storedText_eq_iff {stream first second : Bytes} (hreads : Reads stream first second)
    (hfirst : first.length = 4) :
    (∀ stack : Stack, storedText (readInto stack.recvBuff second) = requestText stream) ↔
      (requestText stream).length < maxServRecvBufSize ∧
        ((requestText stream).length < second.length ∨
          maxServRecvBufSize - 1 ≤ second.length) := by
  have hpiece := hreads.second_isPrefix hfirst
  constructor
  · intro h
    refine ⟨?_, ?_⟩
    · rw [← h (.fill 0), storedText, List.length_take]
      exact Nat.lt_of_le_of_lt (Nat.min_le_left _ _) (by decide)
    · by_contra hnot
      rw [not_or, not_lt, not_le] at hnot
      obtain ⟨hshort, hsecond⟩ := hnot
      have hzeros := h (.fill 0)
      have hones := h (.fill 1)
      rw [Stack.fill, storedText, readInto_replicate,
        cString_append_of_piece hpiece hshort, cString, List.takeWhile_replicate]
        at hzeros hones
      have hlength := congrArg List.length (hzeros.trans hones.symm)
      simp [maxServRecvBufSize] at hlength hsecond
      omega
  · rintro ⟨hterminated, hsecond⟩ stack
    rw [storedText, readInto]
    rcases Nat.lt_or_ge (requestText stream).length second.length with hlt | hge
    · rw [cString_of_piece hpiece hlt]
      exact List.take_of_length_le (Nat.le_sub_one_of_lt hterminated)
    · have hall : maxServRecvBufSize - 1 ≤ second.length :=
        hsecond.resolve_left (not_lt.mpr hge)
      have hsame : (requestText stream).length = second.length := by omega
      rw [cString_append_of_piece hpiece hge, List.take_append_of_le_length hall,
        List.take_of_length_le (by omega)]
      have htext : second <+: requestText stream :=
        List.prefix_of_prefix_length_le hpiece (List.takeWhile_prefix _) hge
      exact htext.eq_of_length hsame.symm

/-! ## One log at a time -/

theorem Mem.Holds.unique {m : Mem} {head : Option Addr} {layout layout' : Layout}
    (h : m.Holds head layout) (h' : m.Holds head layout') : layout = layout' := by
  have hgroups := h.groups.unique h'.groups
  have hlength := congrArg List.length hgroups
  rw [List.length_map, List.length_map] at hlength
  refine List.ext_getElem hlength fun i hi hi' => ?_
  have hitem : layout[i].1 = layout'[i].1 := by
    have hget := congrArg (fun l => l[i]?) hgroups
    simpa [hi, hi'] using hget
  have hmsgs := h.msgs _ (List.getElem_mem hi)
  rw [hitem] at hmsgs
  exact Prod.ext hitem (hmsgs.unique (h'.msgs _ (List.getElem_mem hi')))

theorem Server.Represents.unique {sv : Server} {log log' : List Entry}
    (h : sv.Represents log) (h' : sv.Represents log') : log = log' := by
  obtain ⟨layout, hholds, rfl⟩ := h
  obtain ⟨layout', hholds', rfl⟩ := h'
  rw [hholds.unique hholds']

theorem processConnection_spec {sv : Server} {log : List Entry} (h : sv.Represents log)
    (host : ByteOrder) (stack : Stack) (first second : Bytes) :
    ∃ sv' text, processConnection host stack sv first second = some (sv', text) ∧
      sv'.Represents (record (recvUint32FromSock host stack.num first).toInt
        (storedText (readInto stack.recvBuff second)) log) := by
  obtain ⟨sv', hstore, hrepresents⟩ := storeRequest_spec h
    (recvUint32FromSock host stack.num first).toInt (readInto stack.recvBuff second)
  exact ⟨sv', _, hstore, hrepresents⟩

theorem wholeOrNothing_iff_record {sv : Server} {log : List Entry} (h : sv.Represents log)
    (host : ByteOrder) (stream first second : Bytes) :
    WholeOrNothing host sv log stream first second ↔
      requestSize ≤ stream.length ∧
        (∀ stack : Stack,
          (recvUint32FromSock host stack.num first).toInt = requestGroup stream) ∧
        ∀ stack : Stack, storedText (readInto stack.recvBuff second) = requestText stream := by
  constructor
  · intro hall
    have hlog : ∀ stack : Stack, record (recvUint32FromSock host stack.num first).toInt
        (storedText (readInto stack.recvBuff second)) log =
          if requestSize ≤ stream.length then
            record (requestGroup stream) (requestText stream) log
          else log := by
      intro stack
      obtain ⟨sv', text, hprocess, hrepresents⟩ := hall stack
      obtain ⟨sv'', text', hprocess', hrepresents'⟩ :=
        processConnection_spec h host stack first second
      obtain ⟨rfl, rfl⟩ := Prod.mk.inj (Option.some.inj (hprocess.symm.trans hprocess'))
      exact hrepresents'.unique hrepresents
    by_cases hwhole : requestSize ≤ stream.length
    · simp only [if_pos hwhole] at hlog
      exact ⟨hwhole, fun stack => (record_inj (hlog stack)).1,
        fun stack => (record_inj (hlog stack)).2⟩
    · have hnothing := hlog (.fill 0)
      rw [if_neg hwhole] at hnothing
      exact absurd hnothing (record_ne _ _ _)
  · rintro ⟨hwhole, hgroup, htext⟩ stack
    rw [if_pos hwhole, ← hgroup stack, ← htext stack]
    exact processConnection_spec h host stack first second

/--
Exactly when the reads return the whole request, up to the NUL of its message, does the
server store what the client sent or else leave its list alone.
-/
theorem whole_or_nothing_iff {sv : Server} {log : List Entry} (h : sv.Represents log)
    (host : ByteOrder) {stream first second : Bytes} (hreads : Reads stream first second) :
    WholeOrNothing host sv log stream first second ↔ ReadWhole stream first second := by
  rw [wholeOrNothing_iff_record h]
  constructor
  · rintro ⟨hwhole, hgroup, htext⟩
    have hfirst := (groupId_eq_iff hreads hwhole host).mp hgroup
    obtain ⟨hterminated, hsecond⟩ := (storedText_eq_iff hreads hfirst).mp htext
    exact ⟨hwhole, hfirst, hterminated, hsecond⟩
  · rintro ⟨hwhole, hfirst, hterminated, hsecond⟩
    exact ⟨hwhole, (groupId_eq_iff hreads hwhole host).mpr hfirst,
      (storedText_eq_iff hreads hfirst).mpr ⟨hterminated, hsecond⟩⟩

def groupSent : Bytes := ByteOrder.big.store 4 5

def messageSent : Bytes := 65 :: List.replicate (maxServRecvBufSize - 1) 0

theorem reads_sent : Reads (groupSent ++ messageSent) groupSent messageSent := by
  refine ⟨List.prefix_rfl, ?_, ?_, ?_, ?_⟩ <;> decide +kernel

theorem readWhole_sent : ReadWhole (groupSent ++ messageSent) groupSent messageSent := by
  refine ⟨?_, ?_, ?_, .inr ?_⟩ <;> decide +kernel

theorem whole_or_nothing_iff_sent :
    Server.initial.Represents [] ∧
      Reads (groupSent ++ messageSent) groupSent messageSent ∧
      WholeOrNothing .little .initial [] (groupSent ++ messageSent) groupSent messageSent :=
  ⟨initial_represents, reads_sent,
    (whole_or_nothing_iff initial_represents .little reads_sent).mpr readWhole_sent⟩

/-- A client that connects and closes creates a group, with a message that nobody sent. -/
theorem closed_client_stored :
    Server.initial.Represents [] ∧ Reads [] [] [] ∧
      ¬ WholeOrNothing .little .initial [] [] [] [] := by
  refine ⟨initial_represents, ⟨List.prefix_rfl, Nat.zero_le _, Nat.zero_le _,
    fun _ => rfl, fun _ => rfl⟩, fun h => ?_⟩
  have hwhole := ((wholeOrNothing_iff_record initial_represents _ _ _ _).mp h).1
  exact absurd hwhole (by decide)

end SysprogTeam3.BasicServer
