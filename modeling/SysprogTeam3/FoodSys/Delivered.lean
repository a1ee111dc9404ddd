import SysprogTeam3.FoodSys.Uninitialised

/-!
# What the programs make of the server's packets

The handlers fill local variables that are not cleared and write all of them.  The
programs look at the type, at the entries of an order, and at a message up to its
first NUL, and none of these is left over from before.
-/

namespace SysprogTeam3.FoodSys

open SysprogTeam3.Foundation

/-- A text that a C string can hold, and that `message` has room for. -/
def Printable (text : Text) : Prop :=
  (∀ c ∈ text, c.toNat ≠ 0 ∧ c.toNat < 256) ∧ text.length < updateMessageSize

theorem printable_iff (text : Text) :
    Printable text ↔ (text.all fun c => c.toNat != 0 && decide (c.toNat < 256)) = true ∧
      text.length < updateMessageSize := by
  simp [Printable]

instance (text : Text) : Decidable (Printable text) :=
  decidable_of_iff' _ (printable_iff text)

def charText (bytes : Bytes) : Text := bytes.map fun byte => Char.ofNat byte.toNat

namespace RawPkt

/-- What `client.c` and `cook-client.c` make of the bytes; `none` for a type that has no
case in either. -/
def received (host : ByteOrder) (raw : RawPkt) : Option ServerPkt :=
  let type := raw.type host
  if type = PktType.cookOrder.code then
    some (.cookOrder ⟨fun i => raw.byte (unionOffset + i.val)⟩)
  else if type = PktType.custUpdate.code then
    some (.custUpdate ⟨charText (beforeNul (raw.slice unionOffset custUpdatePktSize))⟩)
  else none

end RawPkt

def Locals.message (l : Locals) : Pkt → Text → Bytes
  | .cookUpdate _ => l.strcpyMessage
  | _ => l.strncpyMessage

/-! ## Messages -/

theorem length_textBytes (text : Text) : (textBytes text).length = text.length :=
  List.length_map _

theorem charText_textBytes {text : Text} (h : Printable text) :
    charText (textBytes text) = text := by
  rw [charText, textBytes, List.map_map]
  conv_rhs => rw [← List.map_id text]
  refine List.map_congr_left fun c hc => ?_
  have hsmall : (UInt8.ofNat c.toNat).toNat = c.toNat :=
    UInt8.toNat_ofNat_of_lt' (h.1 c hc).2
  simp [hsmall]

theorem beforeNul_textBytes {text : Text} (h : Printable text) (rest : Bytes) :
    beforeNul (textBytes text ++ 0 :: rest) = textBytes text := by
  have hall : ∀ byte ∈ textBytes text, (byte != 0) = true := by
    intro byte hbyte
    obtain ⟨c, hc, rfl⟩ := List.mem_map.mp hbyte
    have hsmall : (UInt8.ofNat c.toNat).toNat = c.toNat :=
      UInt8.toNat_ofNat_of_lt' (h.1 c hc).2
    rw [bne_iff_ne]
    intro hzero
    rw [hzero] at hsmall
    exact (h.1 c hc).1 hsmall.symm
  rw [beforeNul, List.takeWhile_append_of_pos hall]
  simp

theorem message_eq (l : Locals) (pkt : Pkt) {text : Text} (h : Printable text) :
    ∃ rest, l.message pkt text = textBytes text ++ 0 :: rest ∧
      (l.message pkt text).length = custUpdatePktSize := by
  have hsize : updateMessageSize = 160 ∧ custUpdatePktSize = 224 := by decide
  have hlength : (textBytes text).length < updateMessageSize := by
    rw [length_textBytes]
    exact h.2
  have hupdate := l.updatePkt_length
  have hstrncpy : ∃ rest, l.strncpyMessage text = textBytes text ++ 0 :: rest ∧
      (l.strncpyMessage text).length = custUpdatePktSize := by
    obtain ⟨k, hk⟩ := Nat.exists_eq_add_of_lt hlength
    have hzeros : updateMessageSize - (textBytes text).length = k + 1 := by omega
    refine ⟨List.replicate k 0 ++ l.updatePkt.drop updateMessageSize, ?_, ?_⟩
    · simp only [Locals.strncpyMessage, List.take_of_length_le hlength.le, hzeros,
        List.replicate_succ, List.append_assoc, List.cons_append]
    · simp only [Locals.strncpyMessage, List.take_of_length_le hlength.le,
        List.length_append, List.length_replicate, List.length_drop, hupdate]
      omega
  have hstrcpy : ∃ rest, l.strcpyMessage text = textBytes text ++ 0 :: rest ∧
      (l.strcpyMessage text).length = custUpdatePktSize := by
    refine ⟨l.updatePkt.drop ((textBytes text).length + 1), ?_, ?_⟩
    · simp [Locals.strcpyMessage]
    · simp only [Locals.strcpyMessage, List.length_append, List.length_drop, hupdate,
        List.length_singleton]
      omega
  cases pkt with
  | cookUpdate => exact hstrcpy
  | _ => exact hstrncpy

theorem printable_missedOrders : ∀ (c : Client), ∀ x ∈ missedOrders c,
    x.toNat ≠ 0 ∧ x.toNat < 256 := by
  have hdigits : ∀ i : Item, Printable (snprintf 5 (Nat.toDigits 10 i.val ++ [' '])) := by
    decide
  intro c x hx
  obtain ⟨i, -, hi⟩ := List.mem_flatMap.mp hx
  split at hi
  · exact (hdigits i).1 x hi
  · simp at hi

theorem printable_customerMsg (c : Client) (n : Nat) : Printable (customerMsg c n) := by
  have hlength : ∀ text, (snprintf 64 text).length < updateMessageSize := by
    intro text
    rw [snprintf, List.length_take]
    exact Nat.lt_of_le_of_lt (Nat.min_le_left _ _) (by decide)
  unfold customerMsg
  split
  · decide
  · refine ⟨fun x hx => ?_, hlength _⟩
    have hparts := List.mem_of_mem_take hx
    rw [List.mem_append, List.mem_append] at hparts
    rcases hparts with (hstart | hmissed) | hend
    · have htext : Printable "Orders unserviceable currently ".toList := by decide
      exact htext.1 x hstart
    · exact printable_missedOrders c x hmissed
    · have htext : Printable ", rest of the orders will be serviced".toList := by
        decide
      exact htext.1 x hend

theorem printable_complete : Printable orderCompleteMessage := by decide

/-! ## Packets -/

theorem received_cookOrder (host : ByteOrder) (raw : RawPkt) (size : Nat)
    (p : CookOrderPkt) :
    ((raw.header host .cookOrder size).payload (menuIndices.map p.orders)).received host =
      some (.cookOrder p) := by
  have htype := RawPkt.type_payload host .cookOrder size raw (menuIndices.map p.orders)
  have hbyte : ∀ i : Item,
      ((raw.header host .cookOrder size).payload (menuIndices.map p.orders)).byte
        (unionOffset + i.val) = p.orders i := by
    intro i
    have hi := i.isLt
    have hsize : unionOffset + i.val < pktSize := by
      have hpkt : unionOffset + 32 ≤ pktSize := by decide
      omega
    rw [RawPkt.byte_payload (by simp [menuIndices]) hsize]
    exact getD_map_menuIndices p.orders i
  unfold RawPkt.received
  rw [htype, funext hbyte]
  rfl

theorem received_custUpdate (host : ByteOrder) (raw : RawPkt) (size : Nat) (l : Locals)
    (pkt : Pkt) {text : Text} (h : Printable text) :
    ((raw.header host .custUpdate size).payload (l.message pkt text)).received host =
      some (.custUpdate ⟨text⟩) := by
  obtain ⟨rest, hmessage, hlength⟩ := message_eq l pkt h
  have htype := RawPkt.type_payload host .custUpdate size raw (l.message pkt text)
  have hslice : ((raw.header host .custUpdate size).payload (l.message pkt text)).slice
      unionOffset custUpdatePktSize = l.message pkt text := by
    rw [← hlength]
    refine RawPkt.slice_assign_self ?_
    rw [hlength]
    decide
  unfold RawPkt.received
  rw [htype, hslice, hmessage, beforeNul_textBytes h, charText_textBytes h]
  rfl

theorem writeAll_received (host : ByteOrder) (l : Locals) (pkt : Pkt) {writes : List Write}
    (h : ∀ a text, (a, ServerPkt.custUpdate ⟨text⟩) ∈ writes → Printable text)
    (outpkt : RawPkt) :
    (writeAll host (l.message pkt) outpkt writes).map (RawPkt.received host) =
      writes.map fun w => some w.2 := by
  induction writes generalizing outpkt with
  | nil => rfl
  | cons w writes ih =>
      obtain ⟨a, p⟩ := w
      have hrest := ih fun b text hmem => h b text (List.mem_cons_of_mem _ hmem)
      cases p with
      | cookOrder p =>
          rw [writeAll, List.map_cons, List.map_cons, hrest, received_cookOrder]
      | custUpdate p =>
          have hprintable : Printable p.message := h a p.message List.mem_cons_self
          rw [writeAll, List.map_cons, List.map_cons, hrest, received_custUpdate _ _ _ _ _
            hprintable]

/-! ## The handlers -/

theorem assignLoop_cookOrders (client : Addr) (queue : List Addr) {st : LoopState}
    (h : ∀ w ∈ st.writes, ∃ p, w.2 = .cookOrder p) :
    ∀ w ∈ (assignLoop client queue st).writes, ∃ p, w.2 = .cookOrder p := by
  refine assignLoop_invariant (P := fun st => ∀ w ∈ st.writes, ∃ p, w.2 = .cookOrder p)
    (fun clientItem st hst => ?_) queue h
  simp only [assignCook]
  split
  · exact hst
  · intro w hw
    rcases List.mem_append.mp hw with hold | hnew
    · exact hst w hold
    · rw [List.mem_singleton.mp hnew]
      exact ⟨_, rfl⟩

theorem custOrderHandler_printable {sv : Server} {client : Addr} {p : CustOrderPkt}
    {result : Server × List Write} (hresult : custOrderHandler sv client p = some result)
    {a : Addr} {text : Text} (hmem : (a, ServerPkt.custUpdate ⟨text⟩) ∈ result.2) :
    Printable text := by
  unfold custOrderHandler at hresult
  cases haccept : acceptOrder (sv.heap client) p with
  | none => simp [haccept] at hresult
  | some accepted =>
      cases accepted with
      | none =>
          simp only [haccept, Option.some.injEq] at hresult
          rw [← hresult] at hmem
          simp at hmem
      | some c =>
          simp only [haccept, Option.some.injEq] at hresult
          rw [← hresult] at hmem
          rcases List.mem_append.mp hmem with horder | hnotify
          · obtain ⟨q, hq⟩ := assignLoop_cookOrders _ _ (by simp) _ horder
            cases hq
          · unfold notifyCustomer at hnotify
            split at hnotify
            · simp at hnotify
            · simp only [List.mem_singleton, Prod.mk.injEq, ServerPkt.custUpdate.injEq,
                CustUpdatePkt.mk.injEq] at hnotify
              rw [hnotify.2]
              exact printable_customerMsg _ _

theorem dispatch_printable {sv : Server} {client : Addr} {pkt : Pkt}
    {result : Server × List Write} (hresult : handlerFuncDispatch sv client pkt = some result)
    {a : Addr} {text : Text} (hmem : (a, ServerPkt.custUpdate ⟨text⟩) ∈ result.2) :
    Printable text := by
  cases pkt with
  | custOrder p => exact custOrderHandler_printable hresult hmem
  | cookUpdate p =>
      simp only [handlerFuncDispatch, Option.some.injEq] at hresult
      rw [← hresult] at hmem
      rw [cookUpdate_message hmem]
      exact printable_complete
  | regCook | regCustomer | other =>
      simp only [handlerFuncDispatch, Option.some.injEq] at hresult
      rw [← hresult] at hmem
      simp at hmem

/--
In every state and for every packet whose handler stays inside `menu_items`, whatever
`outpkt` and `update_pkt` held before, the programs make of the bytes that the handler
writes just the orders and the messages that it meant: no leftover byte is taken for a
part of them.
-/
theorem written_packets_received (host : ByteOrder) (l : Locals) {sv : Server}
    {client : Addr} {pkt : Pkt} {result : Server × List Write}
    (hresult : handlerFuncDispatch sv client pkt = some result) :
    (writeAll host (l.message pkt) l.pkt result.2).map (RawPkt.received host) =
      result.2.map fun w => some w.2 :=
  writeAll_received host l pkt (fun _ _ hmem => dispatch_printable hresult hmem) l.pkt

def oneCookServer : Server where
  heap := Function.update (fun _ => .zeroed) 1
    { Client.zeroed with
      state := .cookFree
      menuItems := fun i => if i.val = 1 then .capable else .undefined }
  clientTailq := [1, 2]

theorem written_packets_received_oneCookServer :
    ∃ result, handlerFuncDispatch oneCookServer 2 (.custOrder (.ofCodes [1, 2])) =
        some result ∧ result.2.length = 2 ∧
      (writeAll .little ((Locals.fill 255).message (.custOrder (.ofCodes [1, 2])))
          (Locals.fill 255).pkt result.2).map (RawPkt.received .little) =
        result.2.map fun w => some w.2 := by
  obtain ⟨result, hresult, hlength⟩ :
      ∃ result, handlerFuncDispatch oneCookServer 2 (.custOrder (.ofCodes [1, 2])) =
        some result ∧ result.2.length = 2 := exists_of_any (by decide)
  exact ⟨result, hresult, hlength, written_packets_received .little _ hresult⟩

end SysprogTeam3.FoodSys
