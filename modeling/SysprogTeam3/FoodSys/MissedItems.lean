import Mathlib.Data.List.TakeWhile
import SysprogTeam3.FoodSys.Verdict

/-!
# The list of missed items

The list is built in 64 bytes without a check and the whole message is cut to 63
characters.  The first words, the shortest list and the last words are longer
than that, so the message is never complete.
-/

namespace SysprogTeam3.FoodSys

def itemText (i : Item) : Text := Nat.toDigits 10 i.val ++ [' ']

def stillNew (c : Client) : List Item :=
  menuIndices.filter fun i => c.menuItems i == .new

def itemNames (c : Client) : Text := (stillNew c).flatMap itemText

theorem itemText_length (i : Item) :
    (itemText i).length = if i.val < 10 then 2 else 3 := by
  decide +revert

theorem snprintf_itemText (i : Item) : snprintf 5 (itemText i) = itemText i := by
  rw [snprintf, List.take_of_length_le]
  rw [itemText_length]
  split <;> decide

theorem missedOrders_eq (c : Client) : missedOrders c = itemNames c := by
  rw [missedOrders, itemNames, stillNew]
  induction menuIndices with
  | nil => rfl
  | cons i items ih =>
      have htext : snprintf 5 (Nat.toDigits 10 i.val ++ [' ']) = itemText i :=
        snprintf_itemText i
      rw [List.flatMap_cons, ih, htext]
      by_cases hi : c.menuItems i = .new <;> simp [hi]

theorem flatMap_itemText_length (items : List Item) :
    (items.flatMap itemText).length =
      2 * items.countP (·.val < 10) + 3 * items.countP (10 ≤ ·.val) := by
  induction items with
  | nil => rfl
  | cons i items ih =>
      rw [List.flatMap_cons, List.length_append, ih, itemText_length, List.countP_cons,
        List.countP_cons]
      by_cases hi : i.val < 10
      · simp [hi, Nat.not_le.mpr hi]
        omega
      · simp [hi, Nat.le_of_not_lt hi]
        omega

/-- The list and its terminator fit into the 64 bytes of `missed_orders` exactly
when the numbers of one and of two digits are few enough. -/
theorem missedOrders_fits_iff (c : Client) :
    (missedOrders c).length < 64 ↔
      2 * (stillNew c).countP (·.val < 10) + 3 * (stillNew c).countP (10 ≤ ·.val) < 64 := by
  rw [missedOrders_eq, itemNames, flatMap_itemText_length]

/-! ## Orders of small items -/

/-- The items of the order are below 25, so that the numbers of all of them fit. -/
def CustOrderPkt.fits (p : CustOrderPkt) : Prop := ∀ code ∈ p.codes, code.toNat < 25

instance (p : CustOrderPkt) : Decidable p.fits :=
  inferInstanceAs (Decidable (∀ code ∈ p.codes, code.toNat < 25))

theorem CustOrderPkt.fits.inRange {p : CustOrderPkt} (h : p.fits) : p.inRange :=
  fun code hcode => Nat.lt_trans (h code hcode) (by decide)

def Pkt.fits : Pkt → Prop
  | .custOrder p => p.fits
  | .regCook _ | .regCustomer | .cookUpdate _ | .other _ => True

instance : DecidablePred Pkt.fits
  | .custOrder p => inferInstanceAs (Decidable p.fits)
  | .regCook _ | .regCustomer | .cookUpdate _ | .other _ => isTrue trivial

theorem Pkt.fits.inRange {pkt : Pkt} (h : pkt.fits) : pkt.inRange := by
  cases pkt with
  | custOrder p => exact CustOrderPkt.fits.inRange h
  | regCook | regCustomer | cookUpdate | other => trivial

abbrev Item.isSmall (i : Item) : Prop := 0 < i.val ∧ i.val < 25

theorem names_isSmall {p : CustOrderPkt} (h : p.fits) {i : Item} (hi : p.names i = true) :
    i.isSmall := by
  obtain ⟨code, hcode, hval⟩ := names_eq_true.mp hi
  have hnonzero : code ≠ 0 := by simpa using List.mem_takeWhile_imp hcode
  refine ⟨Nat.pos_of_ne_zero fun hzero => hnonzero (UInt8.toNat_inj.mp ?_), hval ▸ h code hcode⟩
  rw [hval, hzero]
  rfl

def Server.NewSmall (sv : Server) : Prop :=
  ∀ a i, (sv.heap a).menuItems i = .new → i.isSmall

theorem missedOrders_fits {c : Client} (h : ∀ i, c.menuItems i = .new → i.isSmall) :
    (missedOrders c).length < 64 := by
  have hcount : ∀ f : Item → Bool, (stillNew c).countP f ≤
      menuIndices.countP fun i => f i && decide i.isSmall := by
    intro f
    rw [stillNew, List.countP_filter]
    refine List.countP_mono_left fun i _ hi => ?_
    simp only [Bool.and_eq_true, beq_iff_eq, decide_eq_true_eq] at hi ⊢
    exact ⟨hi.1, h i hi.2⟩
  have hone : (stillNew c).countP (·.val < 10) ≤ 9 := (hcount _).trans (by decide)
  have htwo : (stillNew c).countP (10 ≤ ·.val) ≤ 15 := (hcount _).trans (by decide)
  rw [missedOrders_fits_iff]
  omega

namespace Server.NewSmall

variable {sv : Server}

theorem modify (h : sv.NewSmall) (a : Addr) {f : Client → Client}
    (hf : ∀ i, (f (sv.heap a)).menuItems i = .new → i.isSmall) : (sv.modify a f).NewSmall := by
  intro b i hi
  by_cases hb : b = a
  · subst hb
    rw [Server.modify_heap_self] at hi
    exact hf i hi
  · rw [Server.modify_heap_of_ne hb] at hi
    exact h b i hi

theorem assignCook {client clientItem : Addr} {st : LoopState}
    (h : ∀ a i, (st.heap a).menuItems i = .new → i.isSmall) (a : Addr) (i : Item)
    (hi : ((assignCook client clientItem st).heap a).menuItems i = .new) : i.isSmall := by
  refine h a i ?_
  by_cases hsome : ∃ i, taken (st.heap client) (st.heap clientItem) i = true
  · rw [assignCook_serve hsome] at hi
    dsimp only at hi
    by_cases hitem : a = clientItem
    · subst hitem
      rw [serveHeap_self] at hi
      simp only [servedCook] at hi
      split at hi
      · cases hi
      · exact hi
    · by_cases hclient : a = client
      · subst hclient
        exact (serveHeap_client_new (Ne.symm hitem) hi).2
      · rwa [serveHeap_of_ne hitem hclient] at hi
  · rw [assignCook_idle (by simpa using hsome)] at hi
    by_cases hitem : a = clientItem
    · subst hitem
      simpa using hi
    · simpa [hitem] using hi

theorem custOrder (h : sv.NewSmall) {client : Addr} {p : CustOrderPkt} (hp : p.fits)
    {result : Server × List Write} (hresult : custOrderHandler sv client p = some result) :
    result.1.NewSmall := by
  have hrange : p.inRange := hp.inRange
  rcases (sv.heap client).state.cook_or with hstate | hcook
  · rw [custOrderHandler, acceptOrder_eq hrange hstate] at hresult
    obtain rfl := Option.some.inj hresult
    have hordered : (sv.modify client fun _ => orderedClient (sv.heap client) p).NewSmall := by
      refine h.modify client fun i hi => ?_
      by_cases hnames : p.names i = true
      · exact names_isSmall hp hnames
      · exact h client i (by simpa [orderedClient, hnames] using hi)
    exact assignLoop_invariant
      (P := fun st => ∀ a i, (st.heap a).menuItems i = .new → i.isSmall)
      (fun _ _ hst => assignCook hst) _ hordered
  · rw [custOrderHandler, acceptOrder_refused p hcook] at hresult
    obtain rfl := Option.some.inj hresult
    exact h

theorem finishUpdate (h : sv.NewSmall) (client : Addr) : (finishUpdate sv client).1.NewSmall := by
  unfold FoodSys.finishUpdate
  split
  · exact h
  · next cust _ =>
      have hcompleted : (sv.modify cust
          (completeItems (sv.heap client).menuItems)).NewSmall := by
        refine h.modify cust fun i hi => h cust i ?_
        simp only [completeItems] at hi
        split at hi
        · cases hi
        · exact hi
      refine hcompleted.modify client (f := fun c => { c with state := .cookFree }) ?_
      exact hcompleted client

theorem dispatch (h : sv.NewSmall) {client : Addr} {pkt : Pkt} (hpkt : pkt.fits)
    {result : Server × List Write} (hresult : handlerFuncDispatch sv client pkt = some result) :
    result.1.NewSmall := by
  cases pkt with
  | custOrder p => exact h.custOrder hpkt hresult
  | regCook p =>
      obtain rfl := Option.some.inj hresult
      change (regCookHandler sv client p).NewSmall
      unfold regCookHandler
      refine h.modify client fun i hi => ?_
      dsimp only at hi
      split at hi
      · cases hi
      · exact h client i hi
  | cookUpdate m =>
      obtain rfl := Option.some.inj hresult
      rw [cookUpdateHandler]
      split
      · exact h.finishUpdate client
      · exact h
  | regCustomer | other =>
      obtain rfl := Option.some.inj hresult
      exact h

end Server.NewSmall

/-! ## The message -/

def restServiced : Text := ", rest of the orders will be serviced".toList

namespace OpenServer

open SysprogTeam3.Foundation

/-- The list was built within its bytes, and the customer at `a` is sent the names
of all items that are still `NEW` and the last words. -/
structure MissedToldInFull (a : Addr) (result : Server × List Write) : Prop where
  fits : (missedOrders (result.1.heap a)).length < 64
  told : ∃ first, (a, .custUpdate ⟨first ++ itemNames (result.1.heap a) ++ restServiced⟩) ∈
    result.2

theorem comma_not_mem_unserviceablePrefix : ',' ∉ unserviceablePrefix := by decide

theorem restServiced_length : restServiced.length = 37 := by decide

/-- A text of at most 63 characters that starts with the first words does not end
with the last words: the comma would be among the first words. -/
theorem not_restServiced {first rest : Text} (hrest : rest.length ≤ 32) :
    first ++ restServiced ≠ unserviceablePrefix ++ rest := by
  intro heq
  have hlength := congrArg List.length heq
  simp only [List.length_append, restServiced_length, unserviceablePrefix_length] at hlength
  have hcomma : first ++ [','] <+: unserviceablePrefix ++ rest := by
    rw [← heq]
    exact List.prefix_append_right_inj first |>.mpr (by decide)
  have hfirst : first ++ [','] <+: unserviceablePrefix := by
    refine List.prefix_of_prefix_length_le hcomma (List.prefix_append _ _) ?_
    rw [List.length_append, List.length_singleton, unserviceablePrefix_length]
    omega
  exact comma_not_mem_unserviceablePrefix (hfirst.subset (by simp))

variable {s : OpenServer} {a : Addr} {p : CustOrderPkt}

theorem not_missedToldInFull (hgiven : ∃ i, GivenItem (s.orderResult a p).2 i) :
    ¬ MissedToldInFull a (s.orderResult a p) := by
  rintro ⟨-, first, hsent⟩
  obtain ⟨i, hi⟩ := hgiven
  have hcount : madeCount s.server.heap a p (s.cooksSearched a p) ≠ 0 :=
    fun hzero => made_eq_false_of_count hzero i (givenItem_iff_made.mp hi)
  obtain ⟨-, -, hmessage⟩ := mem_orderResult_custUpdate.mp hsent
  rw [customerMsg_of_ne_zero _ hcount, CustUpdatePkt.mk.injEq] at hmessage
  exact not_restServiced (List.length_take_le _ _) hmessage

/--
In every reachable state and for every accepted order of which some item is given
away, the customer is not told in full what is missing, whatever that is.
-/
theorem missed_never_told_in_full {events : List Arrival} {s : OpenServer}
    (hrun : run step initial events = some s) {a : Addr}
    (hstate : (s.record a).state = .unknown ∨ (s.record a).state = .customer)
    {p : CustOrderPkt} (hrange : p.inRange) {result : Server × List Write}
    (hresult : custOrderHandler s.server a p = some result)
    (hgiven : ∃ i, p.names i = true ∧ GivenItem result.2 i) :
    ¬ MissedToldInFull a result := by
  have horder : custOrderHandler s.server a p = some (s.orderResult a p) :=
    custOrderHandler_passed hrange (valid_of_run hrun).nodup hstate
  obtain rfl := Option.some.inj (horder.symm.trans hresult)
  obtain ⟨i, -, hi⟩ := hgiven
  exact not_missedToldInFull ⟨i, hi⟩

theorem missedOrder_isSome :
    (custOrderHandler oneCookState.server 2 (.ofCodes [1, 2])).isSome := by
  decide +kernel

theorem missed_never_told_in_full_oneCookState :
    ¬ MissedToldInFull 2 ((custOrderHandler oneCookState.server 2 (.ofCodes [1, 2])).get
      missedOrder_isSome) :=
  missed_never_told_in_full (Option.some_get oneCookRun_isSome).symm (.inl (by decide +kernel))
    (by decide +kernel) (Option.some_get missedOrder_isSome).symm
    ⟨1, by decide, by decide +kernel⟩

def everyItem : CustOrderPkt := .ofCodes ((List.range 31).map fun n => UInt8.ofNat (n + 1))

/-- With one item missing the message is cut, and with 30 missing items the list
does not fit either. -/
theorem missed_items_cut :
    run step initial oneCookRun = some oneCookState ∧
      (∃ result, custOrderHandler oneCookState.server 2 (.ofCodes [1, 2]) = some result ∧
        (2, .custUpdate
          ⟨"Orders unserviceable currently 2 , rest of the orders will be s".toList⟩) ∈
            result.2 ∧
        ¬ MissedToldInFull 2 result) ∧
      ∃ result, custOrderHandler oneCookState.server 2 everyItem = some result ∧
        ¬ (missedOrders (result.1.heap 2)).length < 64 := by
  have hvalid : oneCookState.Valid := valid_of_run (Option.some_get oneCookRun_isSome).symm
  have hunknown : (oneCookState.record 2).state = .unknown := by decide +kernel
  refine ⟨(Option.some_get oneCookRun_isSome).symm,
    ⟨oneCookState.orderResult 2 (.ofCodes [1, 2]), ?_, ?_, ?_⟩,
    oneCookState.orderResult 2 everyItem, ?_, ?_⟩
  · exact custOrderHandler_passed (by decide +kernel) hvalid.nodup (.inl hunknown)
  · decide +kernel
  · exact not_missedToldInFull ⟨1, by decide +kernel⟩
  · exact custOrderHandler_passed (by decide +kernel) hvalid.nodup (.inl hunknown)
  · decide +kernel

end OpenServer

end SysprogTeam3.FoodSys
