import SysprogTeam3.FoodSys.Announcement

/-!
# The receive loop of the customer's program

The loop at `read` in `client.c`.  The result of `read` is not looked at: when the
server has closed the connection, each round handles what is still in `pkt`.
-/

namespace SysprogTeam3.FoodSys

/-- What the loop goes on with: what was sent and is not yet read, `pkt` (`none` when
it is cleared), `retval`, and the messages that were printed. -/
structure ReceiveState where
  unread : List CustUpdatePkt
  pkt : Option CustUpdatePkt
  retval : Nat
  printed : List CustUpdatePkt

namespace ReceiveState

def start (packets : List CustUpdatePkt) : ReceiveState :=
  { unread := packets, pkt := none, retval := 0, printed := [] }

def read (s : ReceiveState) : ReceiveState :=
  match s.unread with
  | [] => s
  | pktData :: rest => { s with unread := rest, pkt := some pktData }

/-- `switch(pkt.type)`; a cleared packet has the type of no case. -/
def dispatch (s : ReceiveState) : ReceiveState :=
  match s.pkt with
  | none => s
  | some pktData =>
      { s with
        retval := custUpdateHandler pktData
        printed := s.printed ++ [pktData] }

/-- The state in which the loop is left, if that is within so many rounds. -/
def receive : Nat → ReceiveState → Option ReceiveState
  | 0, _ => none
  | fuel + 1, s =>
      let s' := s.read.dispatch
      if s'.retval = 0 then some s' else receive fuel s'

end ReceiveState

def CustUpdatePkt.Terminal (pktData : CustUpdatePkt) : Prop :=
  pktData.message = orderCompleteMessage ∨ pktData.message = orderUnservMessage

instance (pktData : CustUpdatePkt) : Decidable pktData.Terminal :=
  inferInstanceAs (Decidable (_ ∨ _))

/-- The loop is left at the first terminal message, or at the end of the file. -/
def LoopEnds (packets : List CustUpdatePkt) : Prop :=
  ∃ fuel s, ReceiveState.receive fuel (.start packets) = some s ∧
    ((∃ first pktData rest, packets = first ++ pktData :: rest ∧
        (∀ q ∈ first, ¬ q.Terminal) ∧ pktData.Terminal ∧
        s.unread = rest ∧ s.printed = first ++ [pktData]) ∨
      (∀ q ∈ packets, ¬ q.Terminal) ∧ s.unread = [] ∧ s.printed = packets)

theorem custUpdateHandler_eq_zero {pktData : CustUpdatePkt} :
    custUpdateHandler pktData = 0 ↔ pktData.Terminal := by
  unfold custUpdateHandler CustUpdatePkt.Terminal
  split
  · simp [*]
  · split <;> simp [*]

theorem exists_first_terminal {packets : List CustUpdatePkt}
    (h : ∃ pktData ∈ packets, pktData.Terminal) :
    ∃ first pktData rest, packets = first ++ pktData :: rest ∧
      (∀ q ∈ first, ¬ q.Terminal) ∧ pktData.Terminal := by
  induction packets with
  | nil => simp at h
  | cons head packets ih =>
      by_cases hhead : head.Terminal
      · exact ⟨[], head, packets, rfl, by simp, hhead⟩
      · obtain ⟨pktData, hmem, hterminal⟩ := h
        have hrest : pktData ∈ packets := by
          rcases List.mem_cons.mp hmem with rfl | hmem
          · exact absurd hterminal hhead
          · exact hmem
        obtain ⟨first, last, rest, heq, hfirst, hlast⟩ := ih ⟨pktData, hrest, hterminal⟩
        refine ⟨head :: first, last, rest, by rw [heq]; rfl, ?_, hlast⟩
        intro q hq
        rcases List.mem_cons.mp hq with rfl | hq
        · exact hhead
        · exact hfirst q hq

namespace ReceiveState

theorem receive_to_terminal {first rest : List CustUpdatePkt} {pktData : CustUpdatePkt}
    (hfirst : ∀ q ∈ first, ¬ q.Terminal) (hterminal : pktData.Terminal)
    {s : ReceiveState} (hunread : s.unread = first ++ pktData :: rest) :
    receive (first.length + 1) s =
      some ⟨rest, some pktData, 0, s.printed ++ (first ++ [pktData])⟩ := by
  induction first generalizing s with
  | nil =>
      have hzero := custUpdateHandler_eq_zero.mpr hterminal
      simp [receive, read, hunread, dispatch, hzero]
  | cons q first ih =>
      have hmore : custUpdateHandler q ≠ 0 := fun hzero =>
        hfirst q List.mem_cons_self (custUpdateHandler_eq_zero.mp hzero)
      have hround : s.read.dispatch =
          ⟨first ++ pktData :: rest, some q, custUpdateHandler q, s.printed ++ [q]⟩ := by
        simp [read, hunread, dispatch]
      have hrest := ih (fun q' hq' => hfirst q' (List.mem_cons_of_mem q hq'))
        (s := s.read.dispatch) (by rw [hround])
      rw [hround] at hrest
      rw [List.length_cons, receive, hround]
      simp only [hmore, if_false, hrest, List.append_assoc, List.cons_append,
        List.nil_append]

/-- No terminal message is left, and one message at least is or was there. -/
structure Stuck (s : ReceiveState) : Prop where
  unread : ∀ q ∈ s.unread, ¬ q.Terminal
  pkt : s.unread = [] → ∃ q ∈ s.pkt, ¬ q.Terminal

theorem Stuck.round {s : ReceiveState} (h : s.Stuck) :
    s.read.dispatch.retval ≠ 0 ∧ s.read.dispatch.Stuck := by
  have hhandled : ∃ q, s.read.pkt = some q ∧ ¬ q.Terminal ∧
      ∀ q' ∈ s.read.unread, ¬ q'.Terminal := by
    unfold read
    cases hunread : s.unread with
    | nil =>
        obtain ⟨q, hq, hnot⟩ := h.pkt hunread
        exact ⟨q, hq, hnot, by simp [hunread]⟩
    | cons q rest =>
        have hall := h.unread
        rw [hunread] at hall
        exact ⟨q, rfl, hall q List.mem_cons_self,
          fun q' hq' => hall q' (List.mem_cons_of_mem q hq')⟩
  obtain ⟨q, hpkt, hnot, hunread⟩ := hhandled
  have hround : s.read.dispatch =
      ⟨s.read.unread, some q, custUpdateHandler q, s.read.printed ++ [q]⟩ := by
    simp [dispatch, hpkt]
  rw [hround]
  exact ⟨fun hzero => hnot (custUpdateHandler_eq_zero.mp hzero), hunread,
    fun _ => ⟨q, rfl, hnot⟩⟩

theorem Stuck.receive_eq_none {s : ReceiveState} (h : s.Stuck) (fuel : Nat) :
    receive fuel s = none := by
  induction fuel generalizing s with
  | zero => rfl
  | succ fuel ih =>
      have hround := h.round
      rw [receive, if_neg hround.1, ih hround.2]

theorem receive_printed {fuel : Nat} {s s' : ReceiveState} (hunread : s.unread ≠ [])
    (h : receive fuel s = some s') : s'.printed = s.printed ++ readLoop s.unread := by
  induction fuel generalizing s with
  | zero => simp [receive] at h
  | succ fuel ih =>
      obtain ⟨q, rest, hcons⟩ := List.exists_cons_of_ne_nil hunread
      have hround : s.read.dispatch =
          ⟨rest, some q, custUpdateHandler q, s.printed ++ [q]⟩ := by
        simp [read, hcons, dispatch]
      rw [receive, hround] at h
      rw [hcons, readLoop]
      by_cases hzero : custUpdateHandler q = 0
      · simp only [hzero, if_true, Option.some.injEq] at h ⊢
        rw [← h]
      · simp only [hzero, if_false] at h ⊢
        cases rest with
        | nil =>
            have hstuck : Stuck ⟨[], some q, custUpdateHandler q, s.printed ++ [q]⟩ :=
              ⟨by simp, fun _ => ⟨q, rfl, fun hq => hzero (custUpdateHandler_eq_zero.mpr hq)⟩⟩
            rw [hstuck.receive_eq_none] at h
            simp at h
        | cons q' rest =>
            rw [ih (by simp) h, List.append_assoc]
            rfl

end ReceiveState

/--
The loop ends as it should exactly when the server sent nothing or a terminal
message; after other messages only it handles the last one for ever.
-/
theorem receive_loop_ends_iff (packets : List CustUpdatePkt) :
    LoopEnds packets ↔ packets = [] ∨ ∃ pktData ∈ packets, pktData.Terminal := by
  constructor
  · rintro ⟨fuel, s, hreceive, -⟩
    by_contra hnone
    rw [not_or, not_exists] at hnone
    have hstuck : (ReceiveState.start packets).Stuck :=
      ⟨fun q hq hterminal => hnone.2 q ⟨hq, hterminal⟩, fun hnil => absurd hnil hnone.1⟩
    rw [hstuck.receive_eq_none] at hreceive
    simp at hreceive
  · rintro (rfl | hterminal)
    · exact ⟨1, _, rfl, .inr ⟨by simp, rfl, rfl⟩⟩
    · obtain ⟨first, pktData, rest, rfl, hfirst, hlast⟩ := exists_first_terminal hterminal
      exact ⟨_, _, ReceiveState.receive_to_terminal hfirst hlast rfl,
        .inl ⟨first, pktData, rest, rfl, hfirst, hlast, rfl, rfl⟩⟩

/-- One message about missed items, and the server closes the connection. -/
theorem receive_loop_stuck :
    ¬ LoopEnds [⟨"Orders unserviceable currently 2 , rest of the orders will be s".toList⟩] := by
  rintro ⟨fuel, s, hreceive, -⟩
  have hstuck : (ReceiveState.start
      [⟨"Orders unserviceable currently 2 , rest of the orders will be s".toList⟩]).Stuck :=
    ⟨by decide +kernel, fun hnil => absurd hnil (List.cons_ne_nil _ _)⟩
  rw [hstuck.receive_eq_none] at hreceive
  simp at hreceive

end SysprogTeam3.FoodSys
