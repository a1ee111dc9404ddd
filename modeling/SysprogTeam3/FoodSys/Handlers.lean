import SysprogTeam3.FoodSys.Records

/-!
# The server's packet handlers

`pkt_handlers.c` and the callbacks of `server.c` that change the client queue.
A handler works on the records in the heap and on `client_tailq_head`, and
returns what it gives to `bufferevent_write`.  `none` stands for a write
outside `menu_items`, which C leaves undefined.

The other write that may run outside its array is no fault here: the numbers of
25 or more missed items do not fit into `missed_orders[64]`, and `missedOrders`
is as long as it gets.
-/

namespace SysprogTeam3.FoodSys

abbrev Heap := Addr → Client

structure Server where
  heap : Heap
  /-- `client_tailq_head`, from its head to its tail. -/
  clientTailq : List Addr

/-- A packet written to the `buf_ev` of the record at an address. -/
abbrev Write := Addr × ServerPkt

namespace Server

def modify (sv : Server) (a : Addr) (f : Client → Client) : Server :=
  { sv with heap := Function.update sv.heap a (f (sv.heap a)) }

@[simp] theorem modify_heap_self (sv : Server) (a : Addr)
    (f : Client → Client) : (sv.modify a f).heap a = f (sv.heap a) := by
  simp [modify]

theorem modify_heap_of_ne {sv : Server} {a b : Addr} (h : b ≠ a)
    (f : Client → Client) : (sv.modify a f).heap b = sv.heap b := by
  simp [modify, h]

end Server

/-! ## Connections -/

/-- `on_accept`, with the address that `calloc` returned. -/
def onAccept (sv : Server) (client : Addr) : Server :=
  { heap := Function.update sv.heap client Client.zeroed
    clientTailq := sv.clientTailq ++ [client] }

/-- `buffered_on_error`: the record leaves the queue and is freed.  The heap
keeps what it held last. -/
def bufferedOnError (sv : Server) (client : Addr) : Server :=
  { sv with clientTailq := sv.clientTailq.erase client }

/-! ## Registration -/

def regCookHandler (sv : Server) (client : Addr) (pktData : RegCookPkt) :
    Server :=
  sv.modify client fun c =>
    { c with
      state := .cookFree
      menuItems := fun i =>
        if pktData.declares i then .capable else c.menuItems i }

def regCustomerHandler (sv : Server) (_client : Addr) : Server := sv

/-! ## Orders -/

def recordOrders : List UInt8 → Client → Option Client
  | [], c => some c
  | code :: codes, c =>
      if code = 0 then some c
      else if h : code.toNat < 32 then
        recordOrders codes
          { c with
            menuItems := Function.update c.menuItems ⟨code.toNat, h⟩ .new
            numOfOrders := c.numOfOrders + 1 }
      else none

structure LoopState where
  heap : Heap
  ordersAssigned : Nat
  writes : List Write

def taken (client clientItem : Client) (i : Item) : Bool :=
  client.menuItems i == .new && clientItem.menuItems i == .capable

def orderPkt (client clientItem : Client) : CookOrderPkt :=
  ⟨fun i => if taken client clientItem i then MenuState.assigned.code else 0⟩

/-- One pass of the assignment loop over a `COOK_FREE` client.  Each index of
the inner loop reads and writes its own entry only. -/
def assignCook (client clientItem : Addr) (st : LoopState) : LoopState :=
  let cust := st.heap client
  let cook := { st.heap clientItem with assignedClient := some client }
  let mark (c : Client) : Client :=
    { c with
      menuItems := fun i => if taken cust cook i then .assigned else c.menuItems i }
  let ordersAssigned := st.ordersAssigned + menuIndices.countP (taken cust cook)
  let heap := Function.update st.heap client (mark cust)
  if ordersAssigned = st.ordersAssigned then
    { st with heap := Function.update heap clientItem (mark cook) }
  else
    { heap := Function.update heap clientItem
        { mark cook with state := .cookBusy }
      ordersAssigned := ordersAssigned
      writes := st.writes ++ [(clientItem, .cookOrder (orderPkt cust cook))] }

def assignLoop (client : Addr) : List Addr → LoopState → LoopState
  | [], st => st
  | clientItem :: entries, st =>
      if (st.heap clientItem).state = .cookFree then
        let st' := assignCook client clientItem st
        -- a cook that got nothing is passed by `continue`, before the `break`
        if st'.ordersAssigned ≠ st.ordersAssigned ∧
            (st'.heap client).numOfOrders = st'.ordersAssigned then st'
        else assignLoop client entries st'
      else assignLoop client entries st

def missedOrders (c : Client) : Text :=
  menuIndices.flatMap fun i =>
    if c.menuItems i = .new then
      snprintf 5 (Nat.toDigits 10 i.val ++ [' '])
    else []

def customerMsg (c : Client) (ordersAssigned : Nat) : Text :=
  if ordersAssigned = 0 then snprintf 64 orderUnservMessage
  else
    snprintf 64 ("Orders unserviceable currently ".toList ++ missedOrders c ++
      ", rest of the orders will be serviced".toList)

/-- The part of `cust_order_handler` before the lock is taken.  The outer
`none` is a fault, the inner one the refusal of a sender that is no customer. -/
def acceptOrder (c : Client) (pktData : CustOrderPkt) : Option (Option Client) :=
  let c := if c.state = .unknown then { c with state := .customer } else c
  if c.state ≠ .customer then some none
  else
    (recordOrders pktData.entries { c with numOfOrders := 0 }).map some

def assignOrders (sv : Server) (client : Addr) : LoopState :=
  assignLoop client sv.clientTailq
    { heap := sv.heap, ordersAssigned := 0, writes := [] }

def notifyCustomer (heap : Heap) (client : Addr) (ordersAssigned : Nat) :
    List Write :=
  if (heap client).numOfOrders = ordersAssigned then []
  else [(client, .custUpdate ⟨customerMsg (heap client) ordersAssigned⟩)]

def custOrderHandler (sv : Server) (client : Addr) (pktData : CustOrderPkt) :
    Option (Server × List Write) :=
  match acceptOrder (sv.heap client) pktData with
  | none => none
  | some none => some (sv, [])
  | some (some c) =>
      let st := assignOrders (sv.modify client fun _ => c) client
      some ({ sv with heap := st.heap },
        st.writes ++ notifyCustomer st.heap client st.ordersAssigned)

/-! ## Updates -/

/-- The locked search of `cook_update_handler`.  No queue entry equals `NULL`. -/
def customerExists (sv : Server) (client : Addr) : Bool :=
  match (sv.heap client).assignedClient with
  | none => false
  | some cust => sv.clientTailq.contains cust

/-- `client->assigned_client->menu_items[i] = COMPLETED` for the marks of the
updating cook. -/
def completeItems (marks : Menu) (c : Client) : Client :=
  { c with
    menuItems := fun i => if marks i = .assigned then .completed else c.menuItems i }

def assignedFound (c : Client) : Bool :=
  menuIndices.any fun i => c.menuItems i == .assigned

/-- The part of `cook_update_handler` after the search, outside the lock. -/
def finishUpdate (sv : Server) (client : Addr) : Server × List Write :=
  match (sv.heap client).assignedClient with
  | none => (sv, [])
  | some cust =>
      let sv := sv.modify cust (completeItems (sv.heap client).menuItems)
      let writes :=
        if assignedFound (sv.heap cust) then []
        else [(cust, ServerPkt.custUpdate ⟨orderCompleteMessage⟩)]
      (sv.modify client fun c => { c with state := .cookFree }, writes)

def cookUpdateHandler (sv : Server) (client : Addr) : Server × List Write :=
  if customerExists sv client then finishUpdate sv client else (sv, [])

/-! ## Dispatch -/

def handlerFuncDispatch (sv : Server) (client : Addr) :
    Pkt → Option (Server × List Write)
  | .regCook p => some (regCookHandler sv client p, [])
  | .regCustomer => some (regCustomerHandler sv client, [])
  | .custOrder p => custOrderHandler sv client p
  | .cookUpdate _ => some (cookUpdateHandler sv client)
  | .other _ => some (sv, [])

end SysprogTeam3.FoodSys
