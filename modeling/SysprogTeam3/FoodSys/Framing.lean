import SysprogTeam3.FoodSys.Records

/-!
# Packets on the byte stream

A program writes `sizeof(pkt_t)` bytes for each packet.  `buffered_on_read`
takes whatever `bufferevent_read` returns for one packet, so the packets arrive
as they were sent only when every read returns one of them.
-/

namespace SysprogTeam3.FoodSys

/-! ## Sizes -/

def regCookPktSize : Nat := 32 + 32 + menuArrSize

def regCustomerPktSize : Nat := 32 + 32

def custOrderPktSize : Nat := menuArrSize

def cookOrderPktSize : Nat := menuArrSize

def cookUpdatePktSize : Nat := 32 + menuArrSize + menuArrSize

def custUpdatePktSize : Nat := 32 * 5 + menuArrSize + menuArrSize

/-- `sizeof(pkt_t)`: two 16-bit numbers and a union of byte arrays. -/
def pktSize : Nat :=
  2 + 2 + [regCookPktSize, regCustomerPktSize, custOrderPktSize,
    cookOrderPktSize, custUpdatePktSize, cookUpdatePktSize].foldr max 0

example : pktSize = 228 := rfl

def dataSize : Nat := 8192

theorem pktSize_le_dataSize : pktSize ≤ dataSize := by decide

/-! ## One read -/

@[ext]
structure RawPkt where
  bytes : List UInt8
  length_eq : bytes.length = pktSize

structure DataBuf where
  bytes : List UInt8
  length_eq : bytes.length = dataSize

structure Chunk where
  bytes : List UInt8
  length_le : bytes.length ≤ dataSize

namespace DataBuf

def replicate (byte : UInt8) : DataBuf :=
  ⟨List.replicate dataSize byte, List.length_replicate⟩

def read (data : DataBuf) (chunk : Chunk) : DataBuf where
  bytes := chunk.bytes ++ data.bytes.drop chunk.bytes.length
  length_eq := by
    have hdata := data.length_eq
    have hchunk := chunk.length_le
    rw [List.length_append, List.length_drop]
    omega

def pkt (data : DataBuf) : RawPkt where
  bytes := data.bytes.take pktSize
  length_eq := by
    rw [List.length_take, data.length_eq]
    exact Nat.min_eq_left pktSize_le_dataSize

end DataBuf

/-- `buffered_on_read`: the packet that it hands to the dispatcher. -/
def bufferedOnRead (data : DataBuf) (chunk : Chunk) : Option RawPkt :=
  if chunk.bytes.length = 0 then none else some (data.read chunk).pkt

/-- The packets dispatched for the calls on one connection, each with what its
uninitialised `data` holds at the start and what it reads. -/
def dispatched (calls : List (DataBuf × Chunk)) : List RawPkt :=
  calls.filterMap fun call => bufferedOnRead call.1 call.2

structure Segments (pkts : List RawPkt) (chunks : List Chunk) : Prop where
  nonempty : ∀ chunk ∈ chunks, chunk.bytes ≠ []
  stream : (chunks.map Chunk.bytes).flatten = (pkts.map RawPkt.bytes).flatten

/-- Whatever `data` holds, the packets dispatched are the ones that were sent. -/
def DeliversExactly (pkts : List RawPkt) (chunks : List Chunk) : Prop :=
  ∀ calls : List (DataBuf × Chunk), calls.map Prod.snd = chunks →
    dispatched calls = pkts

/-! ## Whole packets -/

theorem pkt_read_bytes (data : DataBuf) (chunk : Chunk) :
    (data.read chunk).pkt.bytes =
      chunk.bytes.take pktSize ++
        (data.bytes.drop chunk.bytes.length).take
          (pktSize - chunk.bytes.length) := by
  simp [DataBuf.pkt, DataBuf.read, List.take_append]

theorem pkt_read_of_le {data : DataBuf} {chunk : Chunk}
    (h : pktSize ≤ chunk.bytes.length) :
    (data.read chunk).pkt.bytes = chunk.bytes.take pktSize := by
  rw [pkt_read_bytes, Nat.sub_eq_zero_of_le h, List.take_zero, List.append_nil]

theorem pkt_read_ne {chunk : Chunk} (h : chunk.bytes.length < pktSize) :
    ((DataBuf.replicate 0).read chunk).pkt ≠
      ((DataBuf.replicate 1).read chunk).pkt := by
  intro heq
  have hbytes := congrArg RawPkt.bytes heq
  rw [pkt_read_bytes, pkt_read_bytes, List.append_cancel_left_eq] at hbytes
  have hle := pktSize_le_dataSize
  have hpos : min (pktSize - chunk.bytes.length)
      (dataSize - chunk.bytes.length) ≠ 0 := by
    omega
  simp [DataBuf.replicate, List.drop_replicate, List.take_replicate, hpos] at hbytes

theorem dispatched_of_nonempty {chunks : List Chunk}
    (h : ∀ chunk ∈ chunks, chunk.bytes ≠ []) (data : DataBuf) :
    dispatched (chunks.map fun chunk => (data, chunk)) =
      chunks.map fun chunk => (data.read chunk).pkt := by
  induction chunks with
  | nil => rfl
  | cons chunk chunks ih =>
      have hne : chunk.bytes ≠ [] := h chunk List.mem_cons_self
      have hrest := ih fun c hc => h c (List.mem_cons_of_mem chunk hc)
      simp only [dispatched, List.map_cons, List.filterMap_cons] at hrest ⊢
      rw [hrest]
      simp [bufferedOnRead, hne]

theorem le_length_flatten {α : Type} {m : Nat} {pieces : List (List α)}
    (hle : ∀ piece ∈ pieces, m ≤ piece.length) :
    m * pieces.length ≤ pieces.flatten.length := by
  induction pieces with
  | nil => simp
  | cons piece pieces ih =>
      have hpiece : m ≤ piece.length := hle piece List.mem_cons_self
      have hrest := ih fun p hp => hle p (List.mem_cons_of_mem piece hp)
      rw [List.flatten_cons, List.length_append, List.length_cons, Nat.mul_add,
        Nat.mul_one]
      omega

theorem length_eq_of_flatten {α : Type} {m : Nat} {pieces : List (List α)}
    (hle : ∀ piece ∈ pieces, m ≤ piece.length)
    (hsum : pieces.flatten.length = m * pieces.length) :
    ∀ piece ∈ pieces, piece.length = m := by
  induction pieces with
  | nil => simp
  | cons piece pieces ih =>
      have hpiece : m ≤ piece.length := hle piece List.mem_cons_self
      have hle' : ∀ p ∈ pieces, m ≤ p.length := fun p hp =>
        hle p (List.mem_cons_of_mem piece hp)
      have hrest := le_length_flatten hle'
      rw [List.flatten_cons, List.length_append, List.length_cons, Nat.mul_add,
        Nat.mul_one] at hsum
      have hboth : piece.length = m ∧
          pieces.flatten.length = m * pieces.length := by
        omega
      intro p hp
      rcases List.mem_cons.mp hp with rfl | hp
      · exact hboth.1
      · exact ih hle' hboth.2 p hp

theorem length_flatten_bytes (pkts : List RawPkt) :
    (pkts.map RawPkt.bytes).flatten.length = pktSize * pkts.length := by
  induction pkts with
  | nil => rfl
  | cons pkt pkts ih =>
      rw [List.map_cons, List.flatten_cons, List.length_append, ih,
        pkt.length_eq, List.length_cons, Nat.mul_add, Nat.mul_one]
      omega

theorem pktSize_le_of_delivers {pkts : List RawPkt} {chunks : List Chunk}
    (h : Segments pkts chunks) (hexact : DeliversExactly pkts chunks) :
    ∀ chunk ∈ chunks, pktSize ≤ chunk.bytes.length := by
  have hfill : ∀ data : DataBuf,
      (chunks.map fun chunk => (data.read chunk).pkt) = pkts := by
    intro data
    rw [← dispatched_of_nonempty h.nonempty data]
    exact hexact _ (by simp [Function.comp_def])
  have hsame := (hfill (.replicate 0)).trans (hfill (.replicate 1)).symm
  intro chunk hchunk
  by_contra hshort
  exact pkt_read_ne (Nat.lt_of_not_le hshort)
    (List.map_inj_left.mp hsame chunk hchunk)

theorem deliversExactly_of_whole {pkts : List RawPkt} {chunks : List Chunk}
    (h : chunks.map Chunk.bytes = pkts.map RawPkt.bytes) :
    DeliversExactly pkts chunks := by
  intro calls hcalls
  induction calls generalizing pkts chunks with
  | nil =>
      subst hcalls
      have hnil : pkts = [] := by simpa using h.symm
      rw [hnil]
      rfl
  | cons call calls ih =>
      subst hcalls
      cases pkts with
      | nil => simp at h
      | cons pkt pkts =>
          simp only [List.map_cons, List.cons.injEq] at h
          obtain ⟨hbytes, hrest⟩ := h
          have hlength : call.2.bytes.length = pktSize := by
            rw [hbytes, pkt.length_eq]
          have hpkt : (call.1.read call.2).pkt = pkt := by
            ext1
            rw [pkt_read_of_le (Nat.le_of_eq hlength.symm), hbytes,
              ← pkt.length_eq, List.take_length]
          have hcall : bufferedOnRead call.1 call.2 = some pkt := by
            rw [bufferedOnRead, hlength, if_neg (by decide), hpkt]
          rw [dispatched, List.filterMap_cons, hcall]
          exact congrArg (pkt :: ·) (ih hrest rfl)

/--
The packets that reach the dispatcher are the packets that were sent exactly
when every read returned one whole packet.
-/
theorem delivers_exactly_iff {pkts : List RawPkt} {chunks : List Chunk}
    (h : Segments pkts chunks) :
    DeliversExactly pkts chunks ↔
      chunks.map Chunk.bytes = pkts.map RawPkt.bytes := by
  refine ⟨fun hexact => ?_, deliversExactly_of_whole⟩
  have hle := pktSize_le_of_delivers h hexact
  have hpkts : (chunks.map fun chunk =>
      ((DataBuf.replicate 0).read chunk).pkt) = pkts := by
    rw [← dispatched_of_nonempty h.nonempty]
    exact hexact _ (by simp [Function.comp_def])
  have hcount : chunks.length = pkts.length := by
    rw [← hpkts, List.length_map]
  have hlength : ∀ piece ∈ chunks.map Chunk.bytes, piece.length = pktSize := by
    apply length_eq_of_flatten
    · simpa using hle
    · rw [h.stream, length_flatten_bytes, List.length_map, hcount]
  rw [← hpkts, List.map_map]
  refine List.map_congr_left fun chunk hchunk => ?_
  rw [Function.comp_apply, pkt_read_of_le (hle chunk hchunk),
    ← hlength _ (List.mem_map_of_mem hchunk), List.take_length]

def uniformPkt (byte : UInt8) : RawPkt :=
  ⟨List.replicate pktSize byte, List.length_replicate⟩

def uniformChunk (byte : UInt8) : Chunk :=
  ⟨List.replicate pktSize byte, by simpa using pktSize_le_dataSize⟩

theorem delivers_exactly_uniform :
    Segments [uniformPkt 0, uniformPkt 1] [uniformChunk 0, uniformChunk 1] ∧
      DeliversExactly [uniformPkt 0, uniformPkt 1]
        [uniformChunk 0, uniformChunk 1] :=
  have h : Segments [uniformPkt 0, uniformPkt 1]
      [uniformChunk 0, uniformChunk 1] := ⟨by decide, rfl⟩
  ⟨h, (delivers_exactly_iff h).mpr rfl⟩

def doubleChunk : Chunk :=
  ⟨List.replicate (pktSize + pktSize) 0, by
    rw [List.length_replicate]
    decide⟩

theorem doubleChunk_not_deliversExactly :
    Segments [uniformPkt 0, uniformPkt 0] [doubleChunk] ∧
      ¬ DeliversExactly [uniformPkt 0, uniformPkt 0] [doubleChunk] := by
  refine ⟨⟨by decide, by decide +kernel⟩, fun h => ?_⟩
  have hcall := h [(.replicate 0, doubleChunk)] rfl
  have hlength := congrArg List.length hcall
  exact absurd hlength (by decide +kernel)

end SysprogTeam3.FoodSys
