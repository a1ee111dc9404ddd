import SysprogTeam3.FoodSys.HandlerSpecs
import SysprogTeam3.FoodSys.Prompt

/-!
# From a typed line to the record

The order and the registration have no length field: the server scans an order up to
the first `0`.  A line has room for 31 tokens, so a `0` is always left.  The cook's
program writes outside its registration before it reads a line.
-/

namespace SysprogTeam3.FoodSys

open SysprogTeam3.Foundation

/-! ## Orders as lists of codes -/

theorem entries_ofCodes {codes : List UInt8} (hlength : codes.length ≤ 32) :
    (CustOrderPkt.ofCodes codes).entries =
      codes ++ List.replicate (32 - codes.length) 0 := by
  apply List.ext_getElem
  · simp [CustOrderPkt.entries, menuIndices]
    omega
  · intro n hn hn'
    simp only [CustOrderPkt.entries, CustOrderPkt.ofCodes, menuIndices, List.getElem_map,
      List.getElem_finRange, Fin.val_cast]
    by_cases hlt : n < codes.length
    · rw [List.getD_eq_getElem _ _ hlt, List.getElem_append_left hlt]
    · rw [List.getD_eq_default _ _ (Nat.le_of_not_lt hlt),
        List.getElem_append_right (Nat.le_of_not_lt hlt), List.getElem_replicate]

theorem codes_ofCodes {codes : List UInt8} (hne : ∀ code ∈ codes, code ≠ 0)
    (hlength : codes.length ≤ 32) : (CustOrderPkt.ofCodes codes).codes = codes := by
  rw [CustOrderPkt.codes, entries_ofCodes hlength,
    List.takeWhile_append_of_pos fun code hcode => by simpa using hne code hcode]
  cases 32 - codes.length with
  | zero => simp
  | succ n => simp [List.replicate_succ]

/-! ## The line -/

/-- The token loop accepts the line, and no token is negative. -/
structure GoodLine {σ : Type} (p : Prompt σ) (line : Bytes) : Prop where
  accepted : allPass (p.tokens line) = true
  nonNegative : ∀ tok ∈ p.tokens line, 0 ≤ atoi tok

def Typed {σ : Type} (p : Prompt σ) (line : Bytes) (i : Item) : Prop :=
  ∃ tok ∈ p.tokens line, atoi tok = i.val

def lineCodes {σ : Type} (p : Prompt σ) (line : Bytes) : List UInt8 :=
  (passing (p.tokens line)).map UInt8.ofInt

section GoodLine

variable {σ : Type} {p : Prompt σ} {line : Bytes}

theorem passing_eq (h : GoodLine p line) :
    passing (p.tokens line) = (p.tokens line).map atoi :=
  Prompt.passing_of_allPass h.accepted

theorem GoodLine.menuNumber (h : GoodLine p line) :
    ∀ order ∈ passing (p.tokens line), MenuNumber order := by
  apply Prompt.menuNumber_of_passing
  rw [passing_eq h]
  simpa using h.nonNegative

theorem GoodLine.length_codes (h : GoodLine p line) :
    (lineCodes p line).length = (p.tokens line).length := by
  rw [lineCodes, passing_eq h, List.length_map, List.length_map]

theorem GoodLine.code_lt (h : GoodLine p line) :
    ∀ code ∈ lineCodes p line, code ≠ 0 ∧ code.toNat < 32 := by
  intro code hcode
  obtain ⟨order, horder, rfl⟩ := List.mem_map.mp hcode
  have hmenu := h.menuNumber order horder
  have hvalue := hmenu.toNat_ofInt
  have hbound : order < 5 := hmenu.2
  have hpos := hmenu.1
  refine ⟨fun hzero => ?_, by omega⟩
  rw [hzero] at hvalue
  have hnat : (0 : UInt8).toNat = 0 := rfl
  omega

theorem GoodLine.any_codes (h : GoodLine p line) (i : Item) :
    (lineCodes p line).any (fun code => code.toNat == i.val) = true ↔ Typed p line i := by
  have hmenu := h.menuNumber
  rw [lineCodes, passing_eq h] at *
  simp only [List.any_eq_true, List.mem_map, beq_iff_eq, Typed]
  constructor
  · rintro ⟨-, ⟨-, ⟨tok, htok, rfl⟩, rfl⟩, hval⟩
    have hvalue := (hmenu _ (List.mem_map_of_mem htok)).toNat_ofInt
    exact ⟨tok, htok, by rw [← hvalue, hval]⟩
  · rintro ⟨tok, htok, hval⟩
    have hvalue := (hmenu _ (List.mem_map_of_mem htok)).toNat_ofInt
    refine ⟨_, ⟨_, ⟨tok, htok, rfl⟩, rfl⟩, ?_⟩
    rw [hval] at hvalue ⊢
    exact_mod_cast hvalue

end GoodLine

/-! ## The customer -/

theorem lineCodes_length_le {line : Bytes} (hline : line.length ≤ Prompt.room) :
    (lineCodes customerPrompt line).length ≤ 31 := by
  rw [lineCodes, List.length_map]
  exact (Prompt.passing_length_le _).trans (customerPrompt_stores.tokens_length hline)

theorem customerPrompt_round (old : OrderData) {line : Bytes}
    (hline : line.length ≤ Prompt.room) :
    customerPrompt.round old line = some
      ⟨⟨(CustOrderPkt.ofCodes (lineCodes customerPrompt line)).orders,
        (lineCodes customerPrompt line).length⟩,
        passing (customerPrompt.tokens line), allPass (customerPrompt.tokens line)⟩ := by
  have hlength := lineCodes_length_le hline
  have hput := @foldlM_put (lineCodes customerPrompt line) ⟨fun _ => 0, 0⟩
    (show 0 + _ ≤ 32 by omega)
  rw [Prompt.round_eq (customerPrompt_stores.reset old)]
  change Option.map _ (List.foldlM OrderData.put _ (lineCodes customerPrompt line)) = _
  rw [hput]
  simp [CustOrderPkt.ofCodes]

theorem acceptOrder_lineCodes {line : Bytes} (h : GoodLine customerPrompt line)
    (hline : line.length ≤ Prompt.room) :
    ∃ c, acceptOrder .zeroed (.ofCodes (lineCodes customerPrompt line)) = some (some c) ∧
      c.numOfOrders = (customerPrompt.tokens line).length ∧
      ∀ i, c.menuItems i = .new ↔ Typed customerPrompt line i := by
  have hlength := (lineCodes_length_le hline).trans (by decide : 31 ≤ 32)
  have hcodes := codes_ofCodes (fun code hcode => (h.code_lt code hcode).1) hlength
  have hrange : (CustOrderPkt.ofCodes (lineCodes customerPrompt line)).inRange := by
    intro code hcode
    rw [hcodes] at hcode
    exact (h.code_lt code hcode).2
  refine ⟨_, acceptOrder_eq hrange (.inl rfl), ?_, fun i => ?_⟩
  · rw [orderedClient, hcodes, h.length_codes]
  · rw [← h.any_codes i]
    unfold orderedClient CustOrderPkt.names
    rw [hcodes]
    by_cases hany : (lineCodes customerPrompt line).any (fun code => code.toNat == i.val) = true
    · simp only [hany, if_true]
    · simp only [hany, if_false, Client.zeroed_menuItems, reduceCtorEq]

/-- The order of the line is sent, and marks what was typed on a fresh record. -/
def OrderArrives (host : ByteOrder) (pkt : RawPkt) (old : OrderData) (line : Bytes) : Prop :=
  ∃ r p c, customerPrompt.round old line = some r ∧ r.accepted = true ∧
    (custOrderRaw host pkt ⟨r.data.orders⟩).decode host = .custOrder p ∧
    acceptOrder .zeroed p = some (some c) ∧
    c.numOfOrders = (customerPrompt.tokens line).length ∧
    ∀ i, c.menuItems i = .new ↔ Typed customerPrompt line i

theorem orderArrives_of_goodLine (host : ByteOrder) (pkt : RawPkt) (old : OrderData)
    {line : Bytes} (hline : line.length ≤ Prompt.room) (h : GoodLine customerPrompt line) :
    OrderArrives host pkt old line := by
  obtain ⟨c, haccept, hcount, hnew⟩ := acceptOrder_lineCodes h hline
  exact ⟨_, _, c, customerPrompt_round old hline, h.accepted, decode_custOrderRaw host pkt _,
    haccept, hcount, hnew⟩

/-! ## The cook -/

/-- The registration of the line is sent, and marks what was typed on a fresh record. -/
def RegistrationArrives (p : Prompt Capability) (host : ByteOrder) (pkt : RawPkt)
    (regData : RegData) (line : Bytes) : Prop :=
  ∃ r q, p.round regData.capability line = some r ∧ r.accepted = true ∧
    (regCookRaw host pkt { regData with capability := r.data }).decode host = .regCook q ∧
    ∀ (sv : Server) (a : Addr), sv.heap a = .zeroed →
      ∀ i, ((regCookHandler sv a q).heap a).menuItems i = .capable ↔ Typed p line i

theorem not_registrationArrives (host : ByteOrder) (pkt : RawPkt) (regData : RegData)
    (line : Bytes) : ¬ RegistrationArrives cookPrompt host pkt regData line := by
  rintro ⟨r, q, hround, -⟩
  rw [Prompt.round, cookPrompt_reset] at hround
  cases hround

theorem cookLoop_round (old : Capability) {line : Bytes} (h : GoodLine cookLoop line) :
    cookLoop.round old line = some
      ⟨fun i =>
          if (lineCodes cookLoop line).any (fun code => code.toNat == i.val) then
            MenuState.capable.code
          else 0,
        passing (cookLoop.tokens line), true⟩ := by
  have hput := foldlM_putCapable (fun code hcode => (h.code_lt code hcode).2) fun _ => 0
  rw [Prompt.round_eq (cookLoop_stores.reset old), h.accepted]
  change Option.map _ (List.foldlM putCapable _ (lineCodes cookLoop line)) = _
  rw [hput]
  rfl

theorem registrationArrives_of_goodLine (host : ByteOrder) (pkt : RawPkt)
    (regData : RegData) {line : Bytes} (h : GoodLine cookLoop line) :
    RegistrationArrives cookLoop host pkt regData line := by
  refine ⟨_, _, cookLoop_round _ h, rfl, decode_regCookRaw host pkt _,
    fun sv a hfresh i => ?_⟩
  rw [← h.any_codes i]
  simp only [regCookHandler, Server.modify_heap_self, hfresh, RegCookPkt.declares]
  by_cases hany : (lineCodes cookLoop line).any (fun code => code.toNat == i.val) = true
  · simp [hany]
  · simp [hany, MenuState.code]

/--
Of whatever is typed, a line gives at most 31 tokens, so the order ends in a `0`; and
the server marks for a good line what was typed.  No registration arrives, but it would
if the cook's program only cleared its array.
-/
theorem typed_line_survives (host : ByteOrder) (pkt : RawPkt) (orderData : OrderData)
    (regData : RegData) (input : Bytes) :
    (fgets Prompt.room input).1.length ≤ 62 ∧
    (customerPrompt.tokens (fgets Prompt.room input).1).length ≤ 31 ∧
    (∃ r, customerPrompt.round orderData (fgets Prompt.room input).1 = some r ∧
      r.data.i ≤ 31 ∧ r.data.orders 31 = 0) ∧
    (GoodLine customerPrompt (fgets Prompt.room input).1 →
      OrderArrives host pkt orderData (fgets Prompt.room input).1) ∧
    ¬ RegistrationArrives cookPrompt host pkt regData (fgets Prompt.room input).1 ∧
    (GoodLine cookLoop (fgets Prompt.room input).1 →
      RegistrationArrives cookLoop host pkt regData (fgets Prompt.room input).1) := by
  have hline := fgets_length_le Prompt.room input
  have hlength := lineCodes_length_le hline
  exact ⟨hline, customerPrompt_stores.tokens_length hline,
    ⟨_, customerPrompt_round orderData hline, hlength, List.getD_eq_default _ _ hlength⟩,
    orderArrives_of_goodLine host pkt orderData hline,
    not_registrationArrives host pkt regData _,
    registrationArrives_of_goodLine host pkt regData⟩

theorem typed_line_survives_two :
    OrderArrives .little .zeroed ⟨fun _ => 0, 0⟩ (fgets Prompt.room [49, 32, 50, newline]).1 ∧
      RegistrationArrives cookLoop .little .zeroed ⟨List.replicate 64 0, rfl, fun _ => 0⟩
        (fgets Prompt.room [49, 32, 50, newline]).1 :=
  have h := typed_line_survives .little .zeroed ⟨fun _ => 0, 0⟩
    ⟨List.replicate 64 0, rfl, fun _ => 0⟩ [49, 32, 50, newline]
  ⟨h.2.2.2.1 ⟨by decide, by decide⟩, h.2.2.2.2.2 ⟨by decide, by decide⟩⟩

/-- `1` is a good line at the cook's prompt. -/
theorem good_registration_does_not_arrive :
    GoodLine cookPrompt (fgets Prompt.room [49, newline]).1 ∧
      ¬ RegistrationArrives cookPrompt .little .zeroed
        ⟨List.replicate 64 0, rfl, fun _ => 0⟩ (fgets Prompt.room [49, newline]).1 :=
  ⟨⟨by decide, by decide⟩, not_registrationArrives _ _ _ _⟩

end SysprogTeam3.FoodSys
