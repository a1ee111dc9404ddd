import Mathlib.Data.List.GetD
import SysprogTeam3.Foundation.ByteOrder
import SysprogTeam3.Foundation.TextInput
import SysprogTeam3.FoodSys.Framing

/-!
# The bytes of a packet

`struct pkt_t` in memory: `type` and `size` in the byte order of the host, and
then the union.  Sender and receiver run on hosts of the same byte order.
-/

namespace SysprogTeam3.FoodSys

open SysprogTeam3.Foundation

inductive PktType where
  | regCook
  | regCustomer
  | custOrder
  | cookOrder
  | custUpdate
  | cookUpdate
  deriving DecidableEq, Repr

def PktType.code : PktType → Nat
  | .regCook => 0
  | .regCustomer => 1
  | .custOrder => 2
  | .cookOrder => 3
  | .custUpdate => 4
  | .cookUpdate => 5

def unionOffset : Nat := 2 + 2

def capabilityOffset : Nat := 32 + 32

namespace RawPkt

def byte (raw : RawPkt) (n : Nat) : UInt8 := raw.bytes.getD n 0

def slice (raw : RawPkt) (offset length : Nat) : List UInt8 :=
  (List.range length).map fun n => raw.byte (offset + n)

def assign (raw : RawPkt) (offset : Nat) (data : List UInt8) : RawPkt where
  bytes := raw.bytes.mapIdx fun n old =>
    if n < offset then old else data.getD (n - offset) old
  length_eq := by rw [List.length_mapIdx, raw.length_eq]

def zeroed : RawPkt := ⟨List.replicate pktSize 0, List.length_replicate⟩

theorem byte_of_le {raw : RawPkt} {n : Nat} (hn : pktSize ≤ n) : raw.byte n = 0 := by
  rw [byte, List.getD_eq_default]
  rwa [raw.length_eq]

theorem byte_assign {raw : RawPkt} {offset n : Nat} {data : List UInt8}
    (hn : n < pktSize) :
    (raw.assign offset data).byte n =
      if n < offset then raw.byte n else data.getD (n - offset) (raw.byte n) := by
  have hlength : n < raw.bytes.length := by rwa [raw.length_eq]
  simp [byte, assign, hlength]

theorem byte_assign_of_lt {raw : RawPkt} {offset n : Nat} {data : List UInt8}
    (hn : n < offset) : (raw.assign offset data).byte n = raw.byte n := by
  by_cases hsize : n < pktSize
  · rw [byte_assign hsize, if_pos hn]
  · rw [byte_of_le (Nat.le_of_not_lt hsize), byte_of_le (Nat.le_of_not_lt hsize)]

theorem byte_assign_of_ge {raw : RawPkt} {offset n : Nat} {data : List UInt8}
    (hn : offset + data.length ≤ n) :
    (raw.assign offset data).byte n = raw.byte n := by
  by_cases hsize : n < pktSize
  · rw [byte_assign hsize, if_neg (by omega), List.getD_eq_default]
    omega
  · rw [byte_of_le (Nat.le_of_not_lt hsize), byte_of_le (Nat.le_of_not_lt hsize)]

theorem byte_assign_add {raw : RawPkt} {offset n : Nat} {data : List UInt8}
    (hn : n < data.length) (hsize : offset + n < pktSize) :
    (raw.assign offset data).byte (offset + n) = data.getD n 0 := by
  rw [byte_assign hsize, if_neg (by omega), Nat.add_sub_cancel_left,
    List.getD_eq_getElem _ _ hn, List.getD_eq_getElem _ _ hn]

theorem slice_assign_self {raw : RawPkt} {offset : Nat} {data : List UInt8}
    (hsize : offset + data.length ≤ pktSize) :
    (raw.assign offset data).slice offset data.length = data := by
  apply List.ext_getElem (by simp [slice])
  intro n hn hdata
  simp only [slice, List.getElem_map, List.getElem_range]
  rw [byte_assign_add hdata (by omega), List.getD_eq_getElem _ _ hdata]

theorem slice_assign_of_le {raw : RawPkt} {offset start length : Nat}
    {data : List UInt8} (hlow : start + length ≤ offset) :
    (raw.assign offset data).slice start length = raw.slice start length := by
  apply List.map_congr_left
  intro n hn
  have hlt := List.mem_range.mp hn
  exact byte_assign_of_lt (by omega)

def type (host : ByteOrder) (raw : RawPkt) : Nat := host.load (raw.slice 0 2)

def header (host : ByteOrder) (type : PktType) (size : Nat) (raw : RawPkt) : RawPkt :=
  (raw.assign 0 (host.store 2 type.code)).assign 2 (host.store 2 size)

def payload (raw : RawPkt) (data : List UInt8) : RawPkt := raw.assign unionOffset data

theorem type_payload (host : ByteOrder) (type : PktType) (size : Nat) (raw : RawPkt)
    (data : List UInt8) :
    ((raw.header host type size).payload data).type host = type.code := by
  have hslice := @slice_assign_self raw 0
    (host.store 2 type.code) (by rw [ByteOrder.length_store]; decide)
  rw [ByteOrder.length_store] at hslice
  unfold RawPkt.type payload header
  rw [slice_assign_of_le (by decide), slice_assign_of_le (by decide), hslice,
    ByteOrder.load_store]
  cases type <;> decide

theorem byte_payload {raw : RawPkt} {data : List UInt8} {n : Nat}
    (hn : n < data.length) (hsize : unionOffset + n < pktSize) :
    (raw.payload data).byte (unionOffset + n) = data.getD n 0 :=
  byte_assign_add hn hsize

/-- What the dispatcher makes of the bytes. -/
def decode (host : ByteOrder) (raw : RawPkt) : Pkt :=
  let type := raw.type host
  if type = PktType.regCook.code then
    .regCook ⟨fun i => raw.byte (unionOffset + (capabilityOffset + i.val))⟩
  else if type = PktType.regCustomer.code then .regCustomer
  else if type = PktType.custOrder.code then
    .custOrder ⟨fun i => raw.byte (unionOffset + i.val)⟩
  else if type = PktType.cookUpdate.code then
    .cookUpdate
      ⟨(beforeNul (raw.slice unionOffset 32)).map fun byte => Char.ofNat byte.toNat⟩
  else .other (UInt16.ofNat type)

end RawPkt

/-! ## What the client programs send -/

/-- The `CUST_ORDER` of `client.c`, when `pkt` holds these bytes before. -/
def custOrderRaw (host : ByteOrder) (pkt : RawPkt) (orderData : CustOrderPkt) : RawPkt :=
  (pkt.header host .custOrder custOrderPktSize).payload orderData.entries

/-- `reg_data` of `cook-client.c`; nothing is ever written to the names. -/
structure RegData where
  names : List UInt8
  names_length : names.length = capabilityOffset
  capability : Item → UInt8

def RegData.bytes (regData : RegData) : List UInt8 :=
  regData.names ++ menuIndices.map regData.capability

def regCookRaw (host : ByteOrder) (pkt : RawPkt) (regData : RegData) : RawPkt :=
  (pkt.header host .regCook regCookPktSize).payload regData.bytes

theorem getD_map_menuIndices (f : Item → UInt8) (i : Item) :
    (menuIndices.map f).getD i.val 0 = f i := by
  have hlength : i.val < (menuIndices.map f).length := by simp [menuIndices]
  rw [List.getD_eq_getElem _ _ hlength, List.getElem_map]
  simp [menuIndices]

theorem decode_custOrderRaw (host : ByteOrder) (pkt : RawPkt) (p : CustOrderPkt) :
    (custOrderRaw host pkt p).decode host = .custOrder p := by
  have htype := RawPkt.type_payload host .custOrder custOrderPktSize pkt p.entries
  have hbyte : ∀ i : Item,
      ((pkt.header host .custOrder custOrderPktSize).payload p.entries).byte
        (unionOffset + i.val) = p.orders i := by
    intro i
    have hi := i.isLt
    have hsize : unionOffset + i.val < pktSize := by
      have hpkt : unionOffset + 32 ≤ pktSize := by decide
      omega
    rw [RawPkt.byte_payload (by simp [CustOrderPkt.entries, menuIndices]) hsize]
    exact getD_map_menuIndices p.orders i
  unfold RawPkt.decode custOrderRaw
  rw [htype, funext hbyte]
  rfl

theorem decode_regCookRaw (host : ByteOrder) (pkt : RawPkt) (regData : RegData) :
    (regCookRaw host pkt regData).decode host = .regCook ⟨regData.capability⟩ := by
  have htype := RawPkt.type_payload host .regCook regCookPktSize pkt regData.bytes
  have hbyte : ∀ i : Item,
      ((pkt.header host .regCook regCookPktSize).payload regData.bytes).byte
        (unionOffset + (capabilityOffset + i.val)) = regData.capability i := by
    intro i
    have hi := i.isLt
    have hsize : unionOffset + (capabilityOffset + i.val) < pktSize := by
      have hpkt : unionOffset + (capabilityOffset + 32) ≤ pktSize := by decide
      omega
    have hlength : capabilityOffset + i.val < regData.bytes.length := by
      simp [RegData.bytes, regData.names_length, menuIndices]
    rw [RawPkt.byte_payload hlength hsize, RegData.bytes,
      List.getD_append_right _ _ _ _ (by rw [regData.names_length]; omega),
      regData.names_length, Nat.add_sub_cancel_left]
    exact getD_map_menuIndices regData.capability i
  unfold RawPkt.decode regCookRaw
  rw [htype, funext hbyte]
  rfl

end SysprogTeam3.FoodSys
