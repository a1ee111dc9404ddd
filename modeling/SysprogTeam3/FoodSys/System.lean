import SysprogTeam3.Foundation.Runs
import SysprogTeam3.FoodSys.HandlerSpecs

/-!
# The server and the shipped programs

The server runs against any number of `client` and `cook-client` processes.
Packets travel whole and in order on each connection, every handler is one
step, and a disconnection drops what is still in flight.  Besides the state of
the programs this model records, for every order that is sent to a cook, which
connection's packet the server was handling when it sent it; the handlers never
see that record.
-/

namespace SysprogTeam3.FoodSys

open SysprogTeam3.Foundation

/-- A connection; unlike an address it is never used again. -/
abbrev Conn := Nat

/-- The program at the other end, with the one packet it opens with. -/
inductive Peer where
  | silent
  | customer (p : CustOrderPkt)
  | cook (p : RegCookPkt)
  deriving DecidableEq

/-- An order sent to a cook and the customer's connection that caused it. -/
structure Ticket where
  cust : Addr
  conn : Conn
  order : CookOrderPkt
  deriving DecidableEq

inductive Delivery where
  | cookOrder (t : Ticket)
  | custUpdate (p : CustUpdatePkt)
  deriving DecidableEq

/-- A packet on its way to the server.  A `COOK_UPDATE` comes with the order
that the cook read before it sent the update. -/
inductive Request where
  | regCook (p : RegCookPkt)
  | custOrder (p : CustOrderPkt)
  | cookUpdate (p : CookUpdatePkt) (answers : Ticket)
  deriving DecidableEq

def Request.pkt : Request → Pkt
  | .regCook p => .regCook p
  | .custOrder p => .custOrder p
  | .cookUpdate p _ => .cookUpdate p

def Delivery.ticket? : Delivery → Option Ticket
  | .cookOrder t => some t
  | .custUpdate _ => none

def Request.ticket? : Request → Option Ticket
  | .cookUpdate _ t => some t
  | _ => none

structure System where
  server : Server
  peer : Addr → Peer
  toServer : Addr → List Request
  toClient : Addr → List Delivery
  /-- All that the server wrote on the connection so far. -/
  sent : Addr → List ServerPkt
  /-- The connection whose record is at the address. -/
  conn : Addr → Conn
  nextConn : Conn
  /-- Every address that `calloc` has returned. -/
  handedOut : List Addr

namespace System

def initial : System :=
  { server := { heap := fun _ => .zeroed, clientTailq := [] }
    peer := fun _ => .silent
    toServer := fun _ => []
    toClient := fun _ => []
    sent := fun _ => []
    conn := fun _ => 0
    nextConn := 0
    handedOut := [] }

abbrev record (s : System) (a : Addr) : Client := s.server.heap a

abbrev Connected (s : System) (a : Addr) : Prop := a ∈ s.server.clientTailq

def unreadOrders (s : System) (a : Addr) : List Ticket :=
  (s.toClient a).filterMap Delivery.ticket?

/-- The orders of a cook that are still pending: sent and not yet answered, or
answered by an update that is not yet handled. -/
def pending (s : System) (a : Addr) : List Ticket :=
  s.unreadOrders a ++ (s.toServer a).filterMap Request.ticket?

end System

inductive Event where
  | accept (a : Addr)
  | sendOrder (a : Addr) (p : CustOrderPkt)
  | sendReg (a : Addr) (p : RegCookPkt)
  /-- The program reads the oldest packet of the server; a cook answers an
  order with the text it types. -/
  | read (a : Addr) (message : Text)
  /-- The server handles the oldest packet of the client. -/
  | handle (a : Addr)
  | disconnect (a : Addr)
  deriving DecidableEq

def writesTo (writes : List Write) (a : Addr) : List ServerPkt :=
  writes.filterMap fun w => if w.1 = a then some w.2 else none

theorem mem_writesTo {writes : List Write} {a : Addr} {p : ServerPkt} :
    p ∈ writesTo writes a ↔ (a, p) ∈ writes := by
  simp [writesTo]

theorem writesTo_append (first second : List Write) (b : Addr) :
    writesTo (first ++ second) b = writesTo first b ++ writesTo second b :=
  List.filterMap_append

namespace System

def delivery (s : System) (sender : Addr) : ServerPkt → Delivery
  | .cookOrder p => .cookOrder ⟨sender, s.conn sender, p⟩
  | .custUpdate p => .custUpdate p

def accept (s : System) (a : Addr) : System :=
  { server := onAccept s.server a
    peer := Function.update s.peer a .silent
    toServer := Function.update s.toServer a []
    toClient := Function.update s.toClient a []
    sent := Function.update s.sent a []
    conn := Function.update s.conn a s.nextConn
    nextConn := s.nextConn + 1
    handedOut := a :: s.handedOut }

def introduce (s : System) (a : Addr) (peer : Peer) (r : Request) : System :=
  { s with
    peer := Function.update s.peer a peer
    toServer := Function.update s.toServer a (s.toServer a ++ [r]) }

/-- What a program sends when it has read a packet: a cook answers an order,
everything else is only looked at. -/
def reply (message : Text) : Peer → Delivery → List Request
  | .cook _, .cookOrder t => [.cookUpdate ⟨message⟩ t]
  | _, _ => []

def consume (s : System) (a : Addr) (message : Text) (d : Delivery)
    (rest : List Delivery) : System :=
  { s with
    toClient := Function.update s.toClient a rest
    toServer := Function.update s.toServer a
      (s.toServer a ++ reply message (s.peer a) d) }

def handled (s : System) (a : Addr) : Option (Server × List Write) :=
  match s.toServer a with
  | [] => none
  | r :: _ => handlerFuncDispatch s.server a r.pkt

def afterHandler (s : System) (a : Addr) (result : Server × List Write) :
    System :=
  { s with
    server := result.1
    toServer := Function.update s.toServer a (s.toServer a).tail
    toClient := fun b =>
      s.toClient b ++ (writesTo result.2 b).map (s.delivery a)
    sent := fun b => s.sent b ++ writesTo result.2 b }

def disconnect (s : System) (a : Addr) : System :=
  { s with
    server := bufferedOnError s.server a
    toServer := Function.update s.toServer a []
    toClient := Function.update s.toClient a [] }

/--
One step.  `calloc` may return any address that no connected client uses, also
one that was freed before.
-/
def step (s : System) : Event → Option System
  | .accept a => if s.Connected a then none else some (s.accept a)
  | .sendOrder a p =>
      if s.Connected a ∧ s.peer a = .silent ∧ p.inRange then
        some (s.introduce a (.customer p) (.custOrder p))
      else none
  | .sendReg a p =>
      if s.Connected a ∧ s.peer a = .silent then
        some (s.introduce a (.cook p) (.regCook p))
      else none
  | .read a message =>
      if s.Connected a then
        match s.toClient a with
        | [] => none
        | d :: rest => some (s.consume a message d rest)
      else none
  | .handle a =>
      if s.Connected a then (s.handled a).map (s.afterHandler a) else none
  | .disconnect a => if s.Connected a then some (s.disconnect a) else none

def writes (s : System) : Event → List Write
  | .handle a => ((s.handled a).map Prod.snd).getD []
  | _ => []

def HandlesUpdate (s : System) (e : Event) (a : Addr) : Prop :=
  e = .handle a ∧ ∃ m t rest, s.toServer a = .cookUpdate m t :: rest

instance (s : System) (e : Event) (a : Addr) : Decidable (s.HandlesUpdate e a) :=
  decidable_of_iff
    (e = .handle a ∧ ((s.toServer a).head?.bind Request.ticket?).isSome = true)
    (and_congr_right fun _ => by
      cases s.toServer a with
      | nil => simp
      | cons r rest => cases r <;> simp [Request.ticket?])

instance (s : System) (e : Event) (P : Addr → Prop) [DecidablePred P] :
    Decidable (∀ a, s.HandlesUpdate e a → P a) :=
  match e with
  | .handle b => decidable_of_iff (s.HandlesUpdate (.handle b) b → P b)
      ⟨fun h a ha => by
        obtain rfl : b = a := by simpa [HandlesUpdate] using ha.1
        exact h ha, fun h => h b⟩
  | .accept _ | .sendOrder _ _ | .sendReg _ _ | .read _ _ | .disconnect _ =>
      isTrue (by simp [HandlesUpdate])

def SendsComplete (s : System) (e : Event) (a : Addr) : Prop :=
  (a, ServerPkt.custUpdate ⟨orderCompleteMessage⟩) ∈ s.writes e

instance (s : System) (e : Event) (a : Addr) : Decidable (s.SendsComplete e a) :=
  inferInstanceAs (Decidable
    ((a, ServerPkt.custUpdate ⟨orderCompleteMessage⟩) ∈ s.writes e))

end System

end SysprogTeam3.FoodSys
