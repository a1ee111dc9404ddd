import SysprogTeam3.Foundation.Runs
import SysprogTeam3.FoodSys.HandlerSpecs
import SysprogTeam3.FoodSys.WireFormat

/-!
# Indices into the menu of a record

`menu_items` has 32 entries.  The loop counters of the handlers stay below that;
the codes of an order are taken from the wire as they are.
-/

namespace SysprogTeam3.FoodSys

open SysprogTeam3.Foundation

abbrev MenuIndex := Addr × Nat

/-! ## The indices that a handler uses -/

/-- What `for(int i=0;i<MENU_ARR_SIZE;i++)` can use with one record. -/
def counters (a : Addr) : List MenuIndex := (List.range menuArrSize).map fun i => (a, i)

def scanned (client : Addr) : List Addr → LoopState → List Addr
  | [], _ => []
  | clientItem :: entries, st =>
      if (st.heap clientItem).state = .cookFree then
        let st' := assignCook client clientItem st
        if st'.ordersAssigned ≠ st.ordersAssigned ∧
            (st'.heap client).numOfOrders = st'.ordersAssigned then [clientItem]
        else clientItem :: scanned client entries st'
      else scanned client entries st

def assignIndices (sv : Server) (client : Addr) : List MenuIndex :=
  let st := assignOrders sv client
  (scanned client sv.clientTailq { heap := sv.heap, ordersAssigned := 0, writes := [] }).flatMap
      (fun clientItem => counters client ++ counters clientItem) ++
    if st.ordersAssigned = 0 ∨ (st.heap client).numOfOrders = st.ordersAssigned then []
    else counters client

def custOrderIndices (sv : Server) (client : Addr) (p : CustOrderPkt) : List MenuIndex :=
  if (sv.heap client).state = .unknown ∨ (sv.heap client).state = .customer then
    (p.codes.map fun code => (client, code.toNat)) ++
      match acceptOrder (sv.heap client) p with
      | some (some c) => assignIndices (sv.modify client fun _ => c) client
      | _ => []
  else []

def cookUpdateIndices (sv : Server) (client : Addr) : List MenuIndex :=
  if customerExists sv client then
    counters client ++ ((sv.heap client).assignedClient.elim [] counters)
  else []

def indices (sv : Server) (client : Addr) : Pkt → List MenuIndex
  | .regCook _ => counters client
  | .regCustomer => []
  | .custOrder p => custOrderIndices sv client p
  | .cookUpdate _ => cookUpdateIndices sv client
  | .other _ => []

/-- Every index is one of `menu_items`, and the handler writes nowhere else. -/
structure InMenu (sv : Server) (client : Addr) (pkt : Pkt) : Prop where
  indices : ∀ x ∈ indices sv client pkt, x.2 < 32
  handled : handlerFuncDispatch sv client pkt ≠ none

/-- An order with a code that no menu has, from a client that may order. -/
def NamesOutside (sv : Server) (client : Addr) : Pkt → Prop
  | .custOrder p =>
      ((sv.heap client).state = .unknown ∨ (sv.heap client).state = .customer) ∧
        ∃ code ∈ p.codes, 32 ≤ code.toNat
  | _ => False

theorem counters_lt {a : Addr} {x : MenuIndex} (hx : x ∈ counters a) : x.2 < 32 := by
  obtain ⟨i, hi, rfl⟩ := List.mem_map.mp hx
  exact List.mem_range.mp hi

theorem assignIndices_lt {sv : Server} {client : Addr} {x : MenuIndex}
    (hx : x ∈ assignIndices sv client) : x.2 < 32 := by
  rcases List.mem_append.mp hx with hx | hx
  · obtain ⟨clientItem, -, hx⟩ := List.mem_flatMap.mp hx
    rcases List.mem_append.mp hx with hx | hx
    · exact counters_lt hx
    · exact counters_lt hx
  · split at hx
    · simp at hx
    · exact counters_lt hx

theorem cookUpdateIndices_lt {sv : Server} {client : Addr} {x : MenuIndex}
    (hx : x ∈ cookUpdateIndices sv client) : x.2 < 32 := by
  unfold cookUpdateIndices at hx
  split at hx
  · rcases List.mem_append.mp hx with hx | hx
    · exact counters_lt hx
    · cases hassigned : (sv.heap client).assignedClient with
      | none => simp [hassigned] at hx
      | some cust =>
          rw [hassigned] at hx
          exact counters_lt hx
  · simp at hx

/-! ## Orders -/

theorem recordOrders_outside {codes : List UInt8} {code : UInt8}
    (hmem : code ∈ codes.takeWhile (· != 0)) (hge : 32 ≤ code.toNat) (c : Client) :
    recordOrders codes c = none := by
  induction codes generalizing c with
  | nil => simp at hmem
  | cons first codes ih =>
      by_cases hzero : first = 0
      · simp [hzero] at hmem
      · rw [recordOrders, if_neg hzero]
        split
        · rename_i hlt
          rw [List.takeWhile_cons_of_pos (by simpa using hzero)] at hmem
          rcases List.mem_cons.mp hmem with rfl | hmem
          · omega
          · exact ih hmem _
        · rfl

theorem acceptOrder_outside {c : Client} {p : CustOrderPkt} {code : UInt8}
    (hstate : c.state = .unknown ∨ c.state = .customer) (hmem : code ∈ p.codes)
    (hge : 32 ≤ code.toNat) : acceptOrder c p = none := by
  have hrecord := fun c' => @recordOrders_outside p.entries code hmem hge c'
  obtain hstate | hstate := hstate <;> simp [acceptOrder, hstate, hrecord]

theorem custOrderHandler_ne_none {sv : Server} {client : Addr} {p : CustOrderPkt}
    (h : ¬ NamesOutside sv client (.custOrder p)) :
    custOrderHandler sv client p ≠ none := by
  rcases (sv.heap client).state.cook_or with hstate | hcook
  · have hrange : p.inRange := by
      intro code hcode
      by_contra hge
      exact h ⟨hstate, code, hcode, Nat.le_of_not_lt hge⟩
    rw [custOrderHandler, acceptOrder_eq hrange hstate]
    simp
  · rw [custOrderHandler, acceptOrder_refused p hcook]
    simp

theorem custOrderIndices_lt_iff {sv : Server} {client : Addr} {p : CustOrderPkt} :
    (∀ x ∈ custOrderIndices sv client p, x.2 < 32) ↔
      ¬ NamesOutside sv client (.custOrder p) := by
  unfold custOrderIndices NamesOutside
  split
  · rename_i hstate
    constructor
    · rintro h ⟨-, code, hcode, hge⟩
      have hlt := h (client, code.toNat)
        (List.mem_append_left _ (List.mem_map_of_mem hcode))
      exact absurd hlt (Nat.not_lt_of_le hge)
    · intro h x hx
      rcases List.mem_append.mp hx with hx | hx
      · obtain ⟨code, hcode, rfl⟩ := List.mem_map.mp hx
        by_contra hge
        exact h ⟨hstate, code, hcode, Nat.le_of_not_lt hge⟩
      · split at hx
        · exact assignIndices_lt hx
        · simp at hx
  · rename_i hstate
    simp [hstate]

/-! ## Packets -/

theorem inMenu_iff {sv : Server} {client : Addr} {pkt : Pkt} :
    InMenu sv client pkt ↔ ¬ NamesOutside sv client pkt := by
  constructor
  · intro h
    cases pkt with
    | custOrder p => exact custOrderIndices_lt_iff.mp h.indices
    | regCook | regCustomer | cookUpdate | other => exact not_false
  · intro h
    cases pkt with
    | regCook p => exact ⟨fun x => counters_lt, by simp [handlerFuncDispatch]⟩
    | regCustomer => exact ⟨by simp [indices], by simp [handlerFuncDispatch]⟩
    | custOrder p => exact ⟨custOrderIndices_lt_iff.mpr h, custOrderHandler_ne_none h⟩
    | cookUpdate m => exact ⟨fun x => cookUpdateIndices_lt, by simp [handlerFuncDispatch]⟩
    | other type => exact ⟨by simp [indices], by simp [handlerFuncDispatch]⟩

/-! ## Runs -/

inductive WireEvent where
  | accept (a : Addr)
  | packet (a : Addr) (raw : RawPkt)
  | disconnect (a : Addr)

namespace Server

def empty : Server := { heap := fun _ => .zeroed, clientTailq := [] }

/-- `none` also when a handler writes outside `menu_items`. -/
def receive (host : ByteOrder) (sv : Server) : WireEvent → Option Server
  | .accept a => if a ∈ sv.clientTailq then none else some (onAccept sv a)
  | .packet a raw =>
      if a ∈ sv.clientTailq then
        (handlerFuncDispatch sv a (raw.decode host)).map Prod.fst
      else none
  | .disconnect a =>
      if a ∈ sv.clientTailq then some (bufferedOnError sv a) else none

def Keeps (host : ByteOrder) (sv : Server) : WireEvent → Prop
  | .packet a raw => InMenu sv a (raw.decode host)
  | _ => True

def Breaks (host : ByteOrder) (sv : Server) : WireEvent → Prop
  | .packet a raw => NamesOutside sv a (raw.decode host)
  | _ => False

end Server

/--
In a run of the server, whatever bytes the packets consist of, the handlers keep to
`menu_items` exactly when no client that may order names a code from 32 on.
-/
theorem indices_in_menu_iff (host : ByteOrder) (events : List WireEvent) :
    AllSteps (Server.receive host) (Server.Keeps host) .empty events ↔
      AllSteps (Server.receive host) (fun sv e => ¬ sv.Breaks host e) .empty events := by
  apply AllSteps.congr
  intro sv e
  cases e with
  | packet a raw => exact inMenu_iff
  | accept | disconnect => exact iff_of_true trivial not_false

/-- A fresh connection sends an order for the code 32. -/
theorem code_outside_menu :
    ¬ AllSteps (Server.receive .little) (Server.Keeps .little) .empty
      [.accept 0, .packet 0 (custOrderRaw .little .zeroed (.ofCodes [32]))] := by
  intro h
  have hstep : InMenu (onAccept .empty 0) 0
      ((custOrderRaw .little .zeroed (.ofCodes [32])).decode .little) := (h.2 _ rfl).1
  rw [decode_custOrderRaw] at hstep
  exact inMenu_iff.mp hstep ⟨.inl rfl, 32, by decide, by decide⟩

end SysprogTeam3.FoodSys
