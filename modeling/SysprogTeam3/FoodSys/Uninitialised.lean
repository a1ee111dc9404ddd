import SysprogTeam3.FoodSys.Indices
import SysprogTeam3.FoodSys.OpenServer
import SysprogTeam3.FoodSys.Prompt

/-!
# What the local variables held before

Each program builds its packets in local variables and writes all of a `pkt_t`.  Most
of them are not cleared, so bytes that were in memory before go out with the packet.
-/

namespace SysprogTeam3.FoodSys

open SysprogTeam3.Foundation

/-! ## When the handlers write nothing -/

def Takes (h : Heap) (client : Addr) (queue : List Addr) : Prop :=
  ∃ b ∈ queue, (h b).state = .cookFree ∧ ∃ i, taken (h client) (h b) i = true

/-- The sender of the order, or the order itself, gives the handler nothing to send. -/
def QuietOrder (sv : Server) (client : Addr) (p : CustOrderPkt) : Prop :=
  ((sv.heap client).state = .cookFree ∨ (sv.heap client).state = .cookBusy) ∨
    p.codes = [] ∧ ¬ Takes sv.heap client sv.clientTailq

/-- The customer is gone, or waits for an item of another cook. -/
def QuietUpdate (sv : Server) (client : Addr) : Prop :=
  ∀ cust, (sv.heap client).assignedClient = some cust → cust ∈ sv.clientTailq →
    ∃ i, (sv.heap cust).menuItems i = .assigned ∧
      (sv.heap client).menuItems i ≠ .assigned

section Quiet

variable {sv : Server} {client b : Addr} {queue : List Addr} {st : LoopState}
  {p : CustOrderPkt}

theorem takes_congr {h h' : Heap}
    (hfree : ∀ x, (h x).state = .cookFree ↔ (h' x).state = .cookFree)
    (hmenu : ∀ x, (h x).menuItems = (h' x).menuItems) :
    Takes h client queue ↔ Takes h' client queue := by
  simp [Takes, taken, hfree, hmenu]

def looked (client b : Addr) (h : Heap) : Heap :=
  Function.update h b { h b with assignedClient := some client }

theorem takes_looked {h : Heap} :
    Takes (looked client b h) client queue ↔ Takes h client queue := by
  apply takes_congr
  all_goals
    intro x
    by_cases hx : x = b
    · subst hx
      simp [looked]
    · simp [looked, hx]

theorem looked_numOfOrders (client b : Addr) (h : Heap) :
    (looked client b h client).numOfOrders = (h client).numOfOrders := by
  by_cases hb : client = b
  · subst hb
    simp [looked]
  · simp [looked, hb]

theorem assignLoop_look (hfree : (st.heap b).state = .cookFree)
    (hidle : ∀ i, taken (st.heap client) (st.heap b) i = false) :
    assignLoop client (b :: queue) st =
      assignLoop client queue { st with heap := looked client b st.heap } := by
  rw [assignLoop, if_pos hfree, assignCook_idle hidle]
  simp [looked]

theorem takes_cons {h : Heap} : Takes h client (b :: queue) ↔
    ((h b).state = .cookFree ∧ ∃ i, taken (h client) (h b) i = true) ∨
      Takes h client queue := by
  simp [Takes]

theorem taken_eq_false {h : Heap} (hfree : (h b).state = .cookFree)
    (hnone : ¬ ((h b).state = .cookFree ∧ ∃ i, taken (h client) (h b) i = true)) :
    ∀ i, taken (h client) (h b) i = false := by
  intro i
  by_contra htaken
  exact hnone ⟨hfree, i, by simpa using htaken⟩

theorem assignLoop_idle (hnone : ¬ Takes st.heap client queue) :
    (assignLoop client queue st).writes = st.writes ∧
      (assignLoop client queue st).ordersAssigned = st.ordersAssigned ∧
      ((assignLoop client queue st).heap client).numOfOrders =
        (st.heap client).numOfOrders := by
  induction queue generalizing st with
  | nil => exact ⟨rfl, rfl, rfl⟩
  | cons b queue ih =>
      rw [takes_cons, not_or] at hnone
      by_cases hfree : (st.heap b).state = .cookFree
      · have hidle := taken_eq_false hfree hnone.1
        have hrest : ¬ Takes (looked client b st.heap) client queue := by
          rw [takes_looked]
          exact hnone.2
        have hlooped := @ih { st with heap := looked client b st.heap } hrest
        rw [looked_numOfOrders] at hlooped
        rw [assignLoop_look hfree hidle]
        exact hlooped
      · rw [assignLoop, if_neg hfree]
        exact ih hnone.2

theorem assignLoop_writes_isPrefix (client : Addr) (queue : List Addr) (st : LoopState) :
    st.writes <+: (assignLoop client queue st).writes := by
  apply assignLoop_invariant (P := fun st' => st.writes <+: st'.writes)
  · intro clientItem st' hst'
    simp only [assignCook]
    split
    · exact hst'
    · exact hst'.trans (List.prefix_append _ _)
  · exact List.prefix_refl _

theorem assignLoop_writes_ne_nil (hsome : Takes st.heap client queue) :
    (assignLoop client queue st).writes ≠ [] := by
  induction queue generalizing st with
  | nil => simp [Takes] at hsome
  | cons b queue ih =>
      by_cases hb : (st.heap b).state = .cookFree ∧
          ∃ i, taken (st.heap client) (st.heap b) i = true
      · have hserved : (assignCook client b st).writes ≠ [] := by
          rw [assignCook_serve hb.2]
          simp
        rw [assignLoop, if_pos hb.1]
        dsimp only
        split
        · exact hserved
        · intro hnil
          have hstart := assignLoop_writes_isPrefix client queue (assignCook client b st)
          rw [hnil] at hstart
          exact hserved (List.prefix_nil.mp hstart)
      · have hrest : Takes st.heap client queue :=
          (takes_cons.mp hsome).resolve_left hb
        by_cases hfree : (st.heap b).state = .cookFree
        · have hidle := taken_eq_false hfree hb
          rw [assignLoop_look hfree hidle]
          apply ih
          rwa [takes_looked]
        · rw [assignLoop, if_neg hfree]
          exact ih hrest

theorem assignOrders_idle (hnone : ¬ Takes sv.heap client sv.clientTailq) :
    (assignOrders sv client).writes = [] ∧ (assignOrders sv client).ordersAssigned = 0 ∧
      ((assignOrders sv client).heap client).numOfOrders = (sv.heap client).numOfOrders :=
  @assignLoop_idle client sv.clientTailq
    { heap := sv.heap, ordersAssigned := 0, writes := [] } hnone

theorem notifyCustomer_eq_nil {h : Heap} {ordersAssigned : Nat} :
    notifyCustomer h client ordersAssigned = [] ↔
      (h client).numOfOrders = ordersAssigned := by
  unfold notifyCustomer
  split <;> simp [*]

/-- What `cust_order_handler` gives to the network; `none` when it writes outside
`menu_items`, so that C does not say what comes after. -/
def orderWrites (sv : Server) (client : Addr) (p : CustOrderPkt) : Option (List Write) :=
  (custOrderHandler sv client p).map Prod.snd

def recorded (sv : Server) (client : Addr) (p : CustOrderPkt) : Server :=
  sv.modify client fun _ => orderedClient (sv.heap client) p

theorem takes_recorded (hcodes : p.codes = [])
    (hidle : (sv.heap client).state = .unknown ∨ (sv.heap client).state = .customer) :
    Takes (recorded sv client p).heap client queue ↔ Takes sv.heap client queue := by
  unfold recorded
  apply takes_congr
  all_goals
    intro x
    by_cases hx : x = client
    · subst hx
      rcases hidle with hidle | hidle <;>
        simp [orderedClient, CustOrderPkt.names, hcodes, hidle]
    · rw [Server.modify_heap_of_ne hx]

theorem orderWrites_accepted (hrange : p.inRange)
    (hidle : (sv.heap client).state = .unknown ∨ (sv.heap client).state = .customer) :
    ∃ writes, orderWrites sv client p = some writes ∧
      (writes = [] ↔ p.codes = [] ∧ ¬ Takes sv.heap client sv.clientTailq) := by
  have hwrites : orderWrites sv client p = some
      ((assignOrders (recorded sv client p) client).writes ++
        notifyCustomer (assignOrders (recorded sv client p) client).heap client
          (assignOrders (recorded sv client p) client).ordersAssigned) := by
    rw [orderWrites, custOrderHandler, acceptOrder_eq hrange hidle]
    rfl
  refine ⟨_, hwrites, ?_⟩
  rw [List.append_eq_nil_iff]
  by_cases htakes : Takes (recorded sv client p).heap client sv.clientTailq
  · refine iff_of_false (fun h => assignLoop_writes_ne_nil htakes h.1) fun h => ?_
    rw [takes_recorded h.1 hidle] at htakes
    exact h.2 htakes
  · obtain ⟨hnil, hassigned, hcount⟩ := assignOrders_idle htakes
    have hcodes : ((recorded sv client p).heap client).numOfOrders = p.codes.length := by
      rw [recorded, Server.modify_heap_self]
      rfl
    rw [notifyCustomer_eq_nil, hassigned, hcount, hcodes, List.length_eq_zero_iff]
    constructor
    · rintro ⟨-, hempty⟩
      exact ⟨hempty, fun h => htakes ((takes_recorded hempty hidle).mpr h)⟩
    · rintro ⟨hempty, -⟩
      exact ⟨hnil, hempty⟩

theorem orderWrites_outside (hrange : ¬ p.inRange)
    (hidle : (sv.heap client).state = .unknown ∨ (sv.heap client).state = .customer) :
    orderWrites sv client p = none := by
  obtain ⟨code, hcode⟩ := not_forall.mp hrange
  obtain ⟨hmem, hge⟩ := Classical.not_imp.mp hcode
  rw [orderWrites, custOrderHandler, acceptOrder_outside hidle hmem (Nat.le_of_not_lt hge)]
  rfl

theorem orderWrites_eq_nil_iff :
    orderWrites sv client p = some [] ↔ QuietOrder sv client p := by
  rcases (sv.heap client).state.cook_or with hidle | hcook
  · have hnot : ¬ ((sv.heap client).state = .cookFree ∨ (sv.heap client).state = .cookBusy) := by
      rcases hidle with hidle | hidle <;> simp [hidle]
    by_cases hrange : p.inRange
    · obtain ⟨writes, hwrites, hnil⟩ := orderWrites_accepted hrange hidle
      rw [hwrites, Option.some.injEq, hnil]
      simp [QuietOrder, hnot]
    · rw [orderWrites_outside hrange hidle]
      refine iff_of_false (by simp) fun hquiet => hrange ?_
      have hcodes := (hquiet.resolve_left hnot).1
      simp [CustOrderPkt.inRange, hcodes]
  · refine iff_of_true ?_ (.inl hcook)
    rw [orderWrites, custOrderHandler, acceptOrder_refused p hcook]
    rfl

theorem updateWrites_eq_nil_iff :
    (cookUpdateHandler sv client).2 = [] ↔ QuietUpdate sv client := by
  unfold QuietUpdate
  cases hassigned : (sv.heap client).assignedClient with
  | none => simp [cookUpdateHandler, customerExists, hassigned]
  | some cust =>
      by_cases hqueue : cust ∈ sv.clientTailq
      · have hfound : assignedFound
            (completeItems (sv.heap client).menuItems (sv.heap cust)) = true ↔
            ∃ i, (sv.heap cust).menuItems i = .assigned ∧
              (sv.heap client).menuItems i ≠ .assigned := by
          rw [assignedFound_eq_true]
          refine exists_congr fun i => ?_
          by_cases hi : (sv.heap client).menuItems i = .assigned <;>
            simp [completeItems, hi]
        have hwrites : (cookUpdateHandler sv client).2 = [] ↔ assignedFound
            (completeItems (sv.heap client).menuItems (sv.heap cust)) = true := by
          simp [cookUpdateHandler, customerExists, hassigned, hqueue, finishUpdate]
        rw [hwrites, hfound]
        simp [hqueue]
      · simp [cookUpdateHandler, customerExists, hassigned, hqueue]

end Quiet

/-! ## The packets as they are written -/

/-- What the local variables hold at first: `outpkt` or `pkt`, `update_pkt`, and the
names in `reg_data`. -/
structure Locals where
  pkt : RawPkt
  updatePkt : Bytes
  updatePkt_length : updatePkt.length = custUpdatePktSize
  names : Bytes
  names_length : names.length = capabilityOffset

def textBytes (text : Text) : Bytes := text.map fun c => UInt8.ofNat c.toNat

def updateMessageSize : Nat := 32 * 5

namespace Locals

def strncpyMessage (l : Locals) (text : Text) : Bytes :=
  let copied := (textBytes text).take updateMessageSize
  copied ++ List.replicate (updateMessageSize - copied.length) 0 ++
    l.updatePkt.drop updateMessageSize

def strcpyMessage (l : Locals) (text : Text) : Bytes :=
  textBytes text ++ [0] ++ l.updatePkt.drop ((textBytes text).length + 1)

def fill (byte : UInt8) : Locals where
  pkt := uniformPkt byte
  updatePkt := List.replicate custUpdatePktSize byte
  updatePkt_length := List.length_replicate
  names := List.replicate capabilityOffset byte
  names_length := List.length_replicate

end Locals

/-- A handler writes its packets one after the other from the same `outpkt`. -/
def writeAll (host : ByteOrder) (update : Text → Bytes) : RawPkt → List Write → List RawPkt
  | _, [] => []
  | outpkt, (_, .cookOrder p) :: writes =>
      let outpkt := (outpkt.header host .cookOrder cookOrderPktSize).payload
        (menuIndices.map p.orders)
      outpkt :: writeAll host update outpkt writes
  | outpkt, (_, .custUpdate p) :: writes =>
      let outpkt := (outpkt.header host .custUpdate custUpdatePktSize).payload
        (update p.message)
      outpkt :: writeAll host update outpkt writes

/-- The places where a packet is sent, with what they work on. -/
inductive Sender where
  | custOrder (sv : Server) (client : Addr) (p : CustOrderPkt)
  | cookUpdate (sv : Server) (client : Addr)
  | customer (orderData : CustOrderPkt)
  | cook (capability : Capability)
  /-- `cook_order_handler`, when `fgets` returns these characters. -/
  | cookOrder (message : Bytes)

namespace Sender

/-- The bytes that are written; `none` when the order's codes reach outside. -/
def written (host : ByteOrder) (l : Locals) : Sender → Option (List RawPkt)
  | .custOrder sv client p =>
      (orderWrites sv client p).map (writeAll host l.strncpyMessage l.pkt)
  | .cookUpdate sv client =>
      some (writeAll host l.strcpyMessage l.pkt (cookUpdateHandler sv client).2)
  | .customer orderData => some [custOrderRaw host l.pkt orderData]
  | .cook capability => some [regCookRaw host l.pkt ⟨l.names, l.names_length, capability⟩]
  | .cookOrder message =>
      -- the only packet that is cleared before it is filled
      some [(RawPkt.zeroed.header host .cookUpdate cookUpdatePktSize).payload (message ++ [0])]

/-- The bytes that are written do not depend on what the local variables hold. -/
def Clean (host : ByteOrder) (sender : Sender) : Prop :=
  ∃ packets, ∀ l : Locals, sender.written host l = some packets

def Quiet : Sender → Prop
  | .custOrder sv client p => QuietOrder sv client p
  | .cookUpdate sv client => QuietUpdate sv client
  | .customer _ => False
  | .cook _ => False
  | .cookOrder _ => True

end Sender

/-! ## The last byte -/

def lastByte : Nat := pktSize - 1

theorem byte_last_of_short (host : ByteOrder) (type : PktType) (size : Nat) {raw : RawPkt}
    {data : Bytes} (hdata : unionOffset + data.length ≤ lastByte) :
    ((raw.header host type size).payload data).byte lastByte = raw.byte lastByte := by
  unfold RawPkt.payload RawPkt.header
  rw [RawPkt.byte_assign_of_ge hdata, RawPkt.byte_assign_of_ge, RawPkt.byte_assign_of_ge]
  · rw [ByteOrder.length_store]
    decide
  · rw [ByteOrder.length_store]
    decide

def FilledUpTo (byte : UInt8) (data : Bytes) : Prop :=
  ∃ start : Bytes, start.length ≤ updateMessageSize ∧
    data = start ++ (List.replicate custUpdatePktSize byte).drop start.length

theorem byte_last_of_filled (host : ByteOrder) (type : PktType) (size : Nat) {raw : RawPkt}
    {data : Bytes} {byte : UInt8} (hdata : FilledUpTo byte data) :
    ((raw.header host type size).payload data).byte lastByte = byte := by
  obtain ⟨start, hstart, rfl⟩ := hdata
  have hsize : updateMessageSize = 160 ∧ custUpdatePktSize = 224 := by decide
  have hlast : lastByte = unionOffset + 223 := by decide
  have hlength : 223 < (start ++
      (List.replicate custUpdatePktSize byte).drop start.length).length := by
    rw [List.length_append, List.length_drop, List.length_replicate]
    omega
  rw [hlast, RawPkt.byte_payload hlength (by decide),
    List.getD_append_right _ _ _ _ (by omega), List.drop_replicate,
    List.getD_replicate _ (by omega)]

theorem strncpyMessage_filled (byte : UInt8) (text : Text) :
    FilledUpTo byte ((Locals.fill byte).strncpyMessage text) := by
  have hlength : ((textBytes text).take updateMessageSize ++ List.replicate
      (updateMessageSize - ((textBytes text).take updateMessageSize).length) 0).length =
        updateMessageSize := by
    rw [List.length_append, List.length_replicate, List.length_take]
    omega
  refine ⟨_, hlength.le, ?_⟩
  rw [hlength]
  rfl

theorem strcpyMessage_filled (byte : UInt8) {text : Text}
    (htext : text.length < updateMessageSize) :
    FilledUpTo byte ((Locals.fill byte).strcpyMessage text) := by
  refine ⟨textBytes text ++ [0], ?_, ?_⟩
  · rw [List.length_append, textBytes, List.length_map]
    exact htext
  · simp [Locals.strcpyMessage, Locals.fill]

theorem writeAll_last {host : ByteOrder} {update : Text → Bytes} {outpkt : RawPkt}
    {writes : List Write} {byte : UInt8} (hpkt : outpkt.byte lastByte = byte)
    (hupdate : ∀ a text, (a, ServerPkt.custUpdate ⟨text⟩) ∈ writes →
      FilledUpTo byte (update text))
    (hne : writes ≠ []) :
    (writeAll host update outpkt writes).head?.map (RawPkt.byte · lastByte) = some byte := by
  obtain ⟨⟨a, pkt⟩, rest, rfl⟩ := List.exists_cons_of_ne_nil hne
  cases pkt with
  | cookOrder p =>
      have hlength : unionOffset + (menuIndices.map p.orders).length ≤ lastByte := by
        rw [List.length_map]
        decide
      rw [writeAll, List.head?_cons, Option.map_some,
        byte_last_of_short _ _ _ hlength, hpkt]
  | custUpdate p =>
      rw [writeAll, List.head?_cons, Option.map_some,
        byte_last_of_filled _ _ _ (hupdate a p.message List.mem_cons_self)]

theorem not_clean_of_last {host : ByteOrder} {sender : Sender}
    (h : ∀ byte packets, sender.written host (.fill byte) = some packets →
      packets.head?.map (RawPkt.byte · lastByte) = some byte) : ¬ sender.Clean host := by
  rintro ⟨packets, hclean⟩
  have hzero := h 0 packets (hclean _)
  rw [h 1 packets (hclean _)] at hzero
  exact absurd (Option.some.inj hzero) (by decide)

theorem fill_last (byte : UInt8) : (Locals.fill byte).pkt.byte lastByte = byte := by
  unfold Locals.fill uniformPkt RawPkt.byte
  exact List.getD_replicate _ (by decide)

theorem cookUpdate_message {sv : Server} {client a : Addr} {text : Text}
    (h : (a, ServerPkt.custUpdate ⟨text⟩) ∈ (cookUpdateHandler sv client).2) :
    text = orderCompleteMessage := by
  unfold cookUpdateHandler finishUpdate at h
  split at h
  · split at h
    · simp at h
    · dsimp only at h
      split at h
      · simp at h
      · rw [List.mem_singleton, Prod.mk.injEq, ServerPkt.custUpdate.injEq,
          CustUpdatePkt.mk.injEq] at h
        exact h.2
  · simp at h

theorem custOrderRaw_last (host : ByteOrder) (pkt : RawPkt) (orderData : CustOrderPkt) :
    (custOrderRaw host pkt orderData).byte lastByte = pkt.byte lastByte := by
  apply byte_last_of_short
  rw [CustOrderPkt.entries, List.length_map]
  decide

theorem regCookRaw_last (host : ByteOrder) (pkt : RawPkt) (regData : RegData) :
    (regCookRaw host pkt regData).byte lastByte = pkt.byte lastByte := by
  apply byte_last_of_short
  rw [RegData.bytes, List.length_append, regData.names_length, List.length_map]
  decide

theorem customer_not_clean (host : ByteOrder) (orderData : CustOrderPkt) :
    ¬ (Sender.customer orderData).Clean host := by
  refine not_clean_of_last fun byte packets hpackets => ?_
  obtain rfl := Option.some.inj hpackets
  rw [List.head?_cons, Option.map_some, custOrderRaw_last, fill_last]

/-! ## The six places -/

/--
What is written does not depend on what was in memory before exactly for a
`COOK_UPDATE`, and when the server's handlers send nothing.
-/
theorem clean_iff_quiet (host : ByteOrder) (sender : Sender) :
    sender.Clean host ↔ sender.Quiet := by
  cases sender with
  | custOrder sv client p =>
      constructor
      · intro hclean
        by_contra hloud
        refine not_clean_of_last (fun byte packets hpackets => ?_) hclean
        obtain ⟨writes, hwrites, rfl⟩ := Option.map_eq_some_iff.mp hpackets
        refine writeAll_last (fill_last byte) (fun a text _ => strncpyMessage_filled byte text)
          fun hnil => hloud (orderWrites_eq_nil_iff.mp ?_)
        rw [hwrites, hnil]
      · intro hquiet
        refine ⟨[], fun l => ?_⟩
        rw [Sender.written, orderWrites_eq_nil_iff.mpr hquiet]
        rfl
  | cookUpdate sv client =>
      constructor
      · intro hclean
        by_contra hloud
        refine not_clean_of_last (fun byte packets hpackets => ?_) hclean
        obtain rfl := Option.some.inj hpackets
        refine writeAll_last (fill_last byte) (fun a text hmem => ?_)
          fun hnil => hloud (updateWrites_eq_nil_iff.mp hnil)
        rw [cookUpdate_message hmem]
        exact strcpyMessage_filled byte (by decide)
      · intro hquiet
        refine ⟨[], fun l => ?_⟩
        rw [Sender.written, updateWrites_eq_nil_iff.mpr hquiet]
        rfl
  | customer orderData => exact iff_of_false (customer_not_clean host orderData) not_false
  | cook capability =>
      refine iff_of_false (not_clean_of_last fun byte packets hpackets => ?_) not_false
      obtain rfl := Option.some.inj hpackets
      rw [List.head?_cons, Option.map_some, regCookRaw_last, fill_last]
  | cookOrder message => exact iff_of_true ⟨_, fun _ => rfl⟩ trivial

/-- An order for the item 1. -/
theorem custOrder_not_clean : ¬ (Sender.customer (.ofCodes [1])).Clean .little :=
  customer_not_clean .little (.ofCodes [1])

end SysprogTeam3.FoodSys
