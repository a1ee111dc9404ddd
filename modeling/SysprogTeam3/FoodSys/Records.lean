import Mathlib.Data.Fintype.Pi
import Mathlib.Logic.Function.Basic

/-!
# Records and packets of the food server

The data of `std_defs.h`: user and menu states, the payloads of the packets,
and the per-connection record `struct client`.  Payload members that no
handler reads (the names in the registration packets, the `orders_success` and
`orders_failed` arrays) are left out.
-/

namespace SysprogTeam3.FoodSys

/-- Value of a pointer to a `struct client`. -/
abbrev Addr := Nat

abbrev Text := List Char

def maxMenuItems : Nat := 10

def menuArrSize : Nat := (maxMenuItems / 32 + 1) * 32

example : menuArrSize = 32 := rfl

/-- Indices of `menu_items[32]` and of the packets' `MENU_ARR_SIZE` arrays. -/
abbrev Item := Fin 32

/-- The values of the loop counter in `for(int i=0;i<MENU_ARR_SIZE;i++)`. -/
def menuIndices : List Item := List.finRange 32

@[simp] theorem mem_menuIndices (i : Item) : i ∈ menuIndices :=
  List.mem_finRange i

inductive UserState where
  | unknown
  | customer
  | cookFree
  | cookBusy
  deriving DecidableEq, Repr

inductive MenuState where
  | undefined
  | capable
  | new
  | assigned
  | completed
  deriving DecidableEq, Repr

/-- The byte that stands for a menu state in a packet. -/
def MenuState.code : MenuState → UInt8
  | .undefined => 0
  | .capable => 1
  | .new => 2
  | .assigned => 3
  | .completed => 4

abbrev Menu := Item → MenuState

structure RegCookPkt where
  capability : Item → UInt8
  deriving DecidableEq

structure CustOrderPkt where
  orders : Item → UInt8
  deriving DecidableEq

structure CookOrderPkt where
  orders : Item → UInt8
  deriving DecidableEq

structure CookUpdatePkt where
  message : Text
  deriving DecidableEq

structure CustUpdatePkt where
  message : Text
  deriving DecidableEq

def RegCookPkt.declares (p : RegCookPkt) (i : Item) : Bool :=
  p.capability i == MenuState.capable.code

def CookOrderPkt.gives (p : CookOrderPkt) (i : Item) : Bool :=
  p.orders i == MenuState.assigned.code

def CustOrderPkt.entries (p : CustOrderPkt) : List UInt8 :=
  menuIndices.map p.orders

/-- The codes of an order: the entries before the first `0`. -/
def CustOrderPkt.codes (p : CustOrderPkt) : List UInt8 :=
  p.entries.takeWhile (· != 0)

def CustOrderPkt.inRange (p : CustOrderPkt) : Prop :=
  ∀ code ∈ p.codes, code.toNat < 32

instance (p : CustOrderPkt) : Decidable p.inRange :=
  inferInstanceAs (Decidable (∀ code ∈ p.codes, code.toNat < 32))

def CustOrderPkt.names (p : CustOrderPkt) (i : Item) : Bool :=
  p.codes.any fun code => code.toNat == i.val

def CustOrderPkt.ofCodes (codes : List UInt8) : CustOrderPkt :=
  ⟨fun i => codes.getD i.val 0⟩

def RegCookPkt.ofItems (items : List Nat) : RegCookPkt :=
  ⟨fun i => if i.val ∈ items then MenuState.capable.code else 0⟩

/-- A packet as the server's dispatcher sees it: its `type` and the member of
the union that belongs to it. -/
inductive Pkt where
  | regCook (p : RegCookPkt)
  | regCustomer
  | custOrder (p : CustOrderPkt)
  | cookUpdate (p : CookUpdatePkt)
  | other (type : UInt16)
  deriving DecidableEq

inductive ServerPkt where
  | cookOrder (p : CookOrderPkt)
  | custUpdate (p : CustUpdatePkt)
  deriving DecidableEq

/-- `struct client`.  The socket and the `buf_ev` that `on_accept` makes for a
record belong to it alone, so they are named by the record's own address. -/
structure Client where
  state : UserState
  assignedClient : Option Addr
  menuItems : Menu
  numOfOrders : Nat

def Client.zeroed : Client :=
  { state := .unknown
    assignedClient := none
    menuItems := fun _ => .undefined
    numOfOrders := 0 }

@[simp] theorem Client.zeroed_state : Client.zeroed.state = .unknown := rfl

@[simp] theorem Client.zeroed_assignedClient :
    Client.zeroed.assignedClient = none := rfl

@[simp] theorem Client.zeroed_menuItems (i : Item) :
    Client.zeroed.menuItems i = .undefined := rfl

def orderUnservMessage : Text :=
  "None of your orders are serviceable right now".toList

def orderCompleteMessage : Text :=
  "All orders processed, Enjoy your meal!".toList

/-- `snprintf(buf, size, …)`: the text is cut to leave room for the NUL. -/
def snprintf (size : Nat) (text : Text) : Text := text.take (size - 1)

end SysprogTeam3.FoodSys
