import Mathlib.Data.Nat.Digits.Defs

/-!
# Numbers in memory

A number of `w` bytes lies in memory with its least or its most significant byte
first, as the host has it.  On the network the most significant byte is first.
-/

namespace SysprogTeam3.Foundation

inductive ByteOrder where
  | little
  | big
  deriving DecidableEq, Repr

/-- The `w` bytes of a number, the least significant one first. -/
def bytesOf : Nat → Nat → List UInt8
  | 0, _ => []
  | w + 1, n => UInt8.ofNat n :: bytesOf w (n / 256)

def valueOf (bytes : List UInt8) : Nat :=
  Nat.ofDigits 256 (bytes.map UInt8.toNat)

@[simp] theorem length_bytesOf (w n : Nat) : (bytesOf w n).length = w := by
  induction w generalizing n with
  | zero => rfl
  | succ w ih => rw [bytesOf, List.length_cons, ih]

theorem valueOf_cons (byte : UInt8) (bytes : List UInt8) :
    valueOf (byte :: bytes) = byte.toNat + 256 * valueOf bytes := by
  simp [valueOf, Nat.ofDigits_cons]

theorem valueOf_bytesOf (w n : Nat) : valueOf (bytesOf w n) = n % 256 ^ w := by
  induction w generalizing n with
  | zero => simp [bytesOf, valueOf, Nat.mod_one]
  | succ w ih =>
      have hbyte : (UInt8.ofNat n).toNat = n % 256 := UInt8.toNat_ofNat' ..
      rw [bytesOf, valueOf_cons, ih, hbyte, pow_succ', Nat.mod_mul]

theorem valueOf_lt (bytes : List UInt8) : valueOf bytes < 256 ^ bytes.length := by
  induction bytes with
  | nil => exact Nat.one_pos
  | cons byte bytes ih =>
      have hbyte := byte.toNat_lt
      rw [valueOf_cons, List.length_cons, pow_succ']
      omega

theorem bytesOf_valueOf (bytes : List UInt8) :
    bytesOf bytes.length (valueOf bytes) = bytes := by
  induction bytes with
  | nil => rfl
  | cons byte bytes ih =>
      have hlow : UInt8.ofNat (byte.toNat + 256 * valueOf bytes) = byte := by
        apply UInt8.toNat.inj
        have hbyte := byte.toNat_lt
        rw [UInt8.toNat_ofNat']
        omega
      have hhigh : (byte.toNat + 256 * valueOf bytes) / 256 = valueOf bytes := by
        have hbyte := byte.toNat_lt
        omega
      rw [List.length_cons, bytesOf, valueOf_cons, hlow, hhigh, ih]

namespace ByteOrder

def store (order : ByteOrder) (w n : Nat) : List UInt8 :=
  match order with
  | .little => bytesOf w n
  | .big => (bytesOf w n).reverse

def load (order : ByteOrder) (bytes : List UInt8) : Nat :=
  match order with
  | .little => valueOf bytes
  | .big => valueOf bytes.reverse

/-- What `htonl` and `ntohl` do on a host with this order, for `w` bytes. -/
def network (order : ByteOrder) (w n : Nat) : Nat :=
  match order with
  | .little => valueOf (bytesOf w n).reverse
  | .big => n

variable (order : ByteOrder)

@[simp] theorem length_store (w n : Nat) : (order.store w n).length = w := by
  cases order <;> simp [store]

theorem load_store (w n : Nat) : order.load (order.store w n) = n % 256 ^ w := by
  cases order <;> simp [load, store, valueOf_bytesOf]

theorem store_load (bytes : List UInt8) :
    order.store bytes.length (order.load bytes) = bytes := by
  cases order with
  | little => exact bytesOf_valueOf bytes
  | big =>
      have hreverse := bytesOf_valueOf bytes.reverse
      rw [List.length_reverse] at hreverse
      rw [load, store, hreverse, List.reverse_reverse]

theorem load_lt (bytes : List UInt8) : order.load bytes < 256 ^ bytes.length := by
  cases order with
  | little => exact valueOf_lt bytes
  | big => simpa [load] using valueOf_lt bytes.reverse

theorem load_inj {bytes bytes' : List UInt8} (hlength : bytes.length = bytes'.length)
    (h : order.load bytes = order.load bytes') : bytes = bytes' := by
  rw [← order.store_load bytes, h, hlength, order.store_load]

theorem store_network (w n : Nat) :
    order.store w (order.network w n) = ByteOrder.big.store w n := by
  cases order with
  | little =>
      have hswap := bytesOf_valueOf (bytesOf w n).reverse
      rwa [List.length_reverse, length_bytesOf] at hswap
  | big => rfl

theorem network_load (bytes : List UInt8) :
    order.network bytes.length (order.load bytes) = ByteOrder.big.load bytes := by
  cases order with
  | little => rw [load, network, bytesOf_valueOf, load]
  | big => rfl

/-- A number sent in network order arrives, whatever the orders of the two hosts. -/
theorem network_roundTrip (sender receiver : ByteOrder) (w n : Nat) :
    receiver.network w (receiver.load (sender.store w (sender.network w n))) =
      n % 256 ^ w := by
  have hload := receiver.network_load (ByteOrder.big.store w n)
  rw [length_store] at hload
  rw [store_network, hload, load_store]

end ByteOrder

end SysprogTeam3.Foundation
