import SysprogTeam3.FoodSys.Prompt

/-!
# Sessions of the cook's program

`cook-client.c` reads the cook's input with two calls of `fgets`: at the prompt with
room for 62 characters, and for the `message` of a `COOK_UPDATE` with room for 30.  A
line that does not fit is read by the calls that come after.

This file is about what is read only: the `memset` at the prompt, which runs past
`reg_data`, is taken to do no harm, so the reads are those of `cookLoop`.
-/

namespace SysprogTeam3.FoodSys

open SysprogTeam3.Foundation

structure Line where
  text : Bytes
  noNewline : newline ∉ text

namespace Line

def bytes (line : Line) : Bytes := line.text ++ [newline]

def typed (lines : List Line) : Bytes := (lines.map bytes).flatten

@[simp] theorem typed_nil : typed [] = [] := rfl

@[simp] theorem typed_cons (line : Line) (lines : List Line) :
    typed (line :: lines) = line.bytes ++ typed lines := rfl

theorem length_bytes (line : Line) : line.bytes.length = line.text.length + 1 := by
  simp [bytes]

theorem bytes_append (line : Line) (rest : Bytes) :
    line.bytes ++ rest = line.text ++ newline :: rest := by
  simp [bytes]

end Line

/-! ## The program -/

/-- `fgets` on a terminal or a pipe; `none` when it waits for more input. -/
def await (closed : Bool) (room : Nat) (unread : Bytes) : Option (Bytes × Bytes) :=
  let result := fgets room unread
  if closed = false ∧ newline ∉ result.1 ∧ result.1.length < room then none
  else some result

/-- `sizeof(pkt.u.cook_update_pkt.message)-1` counts the NUL. -/
def messageRoom : Nat := 32 - 1 - 1

/-- A `COOK_UPDATE` that was sent: its message, and what was unread before. -/
structure Answer where
  message : Bytes
  unread : Bytes
  deriving DecidableEq

def cookOrderHandler (closed : Bool) (unread : Bytes) (_pktData : CookOrderPkt) :
    Option (Answer × Bytes) :=
  (await closed messageRoom unread).map fun result => (⟨result.1, unread⟩, result.2)

/-- The loop at `wait_for_order`: the updates that are sent for these orders. -/
def waitForOrder (closed : Bool) : Bytes → List CookOrderPkt → List Answer
  | _, [] => []
  | unread, pktData :: orders =>
      match cookOrderHandler closed unread pktData with
      | none => []
      | some (answer, unread) => answer :: waitForOrder closed unread orders

/-- What is left of the lines that `fgets` returns after the first one that passes. -/
def Prompt.after {σ : Type} (p : Prompt σ) : List Bytes → Option (List Bytes)
  | [] => none
  | line :: lines => if allPass (p.tokens line) then some lines else p.after lines

/-- At the end of a closed input the prompt takes an empty line. -/
def cookSession (closed : Bool) (stdin : Bytes) (orders : List CookOrderPkt) : List Answer :=
  match cookPrompt.after (reads Prompt.room stdin) with
  | some rest => waitForOrder closed rest.flatten orders
  | none => if closed then waitForOrder closed [] orders else []

theorem Prompt.after_of_rounds {σ : Type} {p : Prompt σ} {old : σ} {lines rest : List Bytes}
    {rounds : List (TokenLoop σ)} (hrounds : p.rounds old lines = some rounds)
    (hafter : p.after lines = some rest) : lines.drop rounds.length = rest := by
  induction lines generalizing old rounds with
  | nil => simp [Prompt.after] at hafter
  | cons line lines ih =>
      rw [Prompt.after] at hafter
      obtain ⟨r, hr, hcases⟩ := Prompt.rounds_cons.mp hrounds
      rw [← (Prompt.round_eq_some hr).2] at hafter
      obtain ⟨hpass, rfl⟩ | ⟨hpass, more, hmore, rfl⟩ := hcases
      · rw [if_pos hpass, Option.some.injEq] at hafter
        exact hafter
      · rw [hpass, if_neg Bool.false_ne_true] at hafter
        exact ih hmore hafter

/-! ## Lines and reads -/

theorem await_line (closed : Bool) {room : Nat} {line : Line}
    (hlength : line.bytes.length ≤ room) (rest : Bytes) :
    await closed room (line.bytes ++ rest) = some (line.bytes, rest) := by
  rw [line.length_bytes] at hlength
  have hread := fgets_short rest line.noNewline hlength
  rw [← line.bytes_append] at hread
  rw [await, hread]
  simp [Line.bytes]

theorem await_long (closed : Bool) {room : Nat} {line : Line}
    (hlength : room < line.bytes.length) (rest : Bytes) :
    await closed room (line.bytes ++ rest) =
      some (line.text.take room, line.text.drop room ++ newline :: rest) := by
  rw [line.length_bytes] at hlength
  have hle : room ≤ line.text.length := Nat.le_of_lt_succ hlength
  have hread := fgets_long (newline :: rest) line.noNewline hle
  rw [← line.bytes_append] at hread
  have hfull : (line.text.take room).length = room := by
    rw [List.length_take, Nat.min_eq_left hle]
  rw [await, hread]
  simp [hfull]

theorem await_isSome (closed : Bool) (room : Nat) {unread : Bytes}
    (h : newline ∈ unread) : ∃ result, await closed room unread = some result := by
  have hnot : ¬ (closed = false ∧ newline ∉ (fgets room unread).1 ∧
      (fgets room unread).1.length < room) := by
    rintro ⟨-, hline, hshort⟩
    rcases fgets_newline_or_full room h with hmem | hfull
    · exact hline hmem
    · exact hshort.ne hfull
  exact ⟨_, if_neg hnot⟩

theorem flatMap_reads_typed (lines : List Line) :
    reads Prompt.room (Line.typed lines) =
      lines.flatMap fun line => reads Prompt.room line.bytes := by
  induction lines with
  | nil => rfl
  | cons line lines ih =>
      rw [Line.typed_cons, line.bytes_append, reads_newline, ih, List.flatMap_cons]
      rfl

theorem Prompt.after_append {σ : Type} {p : Prompt σ} {first rest : List Bytes} {line : Bytes}
    (hfirst : ∀ l ∈ first, allPass (p.tokens l) = false)
    (hline : allPass (p.tokens line) = true) :
    p.after (first ++ line :: rest) = some rest := by
  induction first with
  | nil => simp [Prompt.after, hline]
  | cons l first ih =>
      have hl := hfirst l List.mem_cons_self
      rw [List.cons_append, Prompt.after, hl, if_neg Bool.false_ne_true]
      exact ih fun l' hl' => hfirst l' (List.mem_cons_of_mem l hl')

/-! ## Answers and lines -/

structure Registers (lines before : List Line) (line : Line) (after : List Line)
    (refused : List Bytes) (accepted : Bytes) (left : List Bytes) : Prop where
  lines : lines = before ++ line :: after
  pieces : reads Prompt.room line.bytes = refused ++ accepted :: left
  refused : ∀ read ∈ (before.flatMap fun l => reads Prompt.room l.bytes) ++ refused,
    allPass (cookPrompt.tokens read) = false
  accepted : allPass (cookPrompt.tokens accepted) = true

/-- The update for each order is sent on reading from the start of a line of its own. -/
def OneLineEach (closed : Bool) (lines after : List Line) (orders : List CookOrderPkt) :
    Prop :=
  ∀ n answer, (cookSession closed (Line.typed lines) orders)[n]? = some answer →
    n < after.length ∧ answer.unread = Line.typed (after.drop n)

theorem Registers.session {lines before : List Line} {line : Line} {after : List Line}
    {refused : List Bytes} {accepted : Bytes} {left : List Bytes}
    (h : Registers lines before line after refused accepted left) (closed : Bool)
    (orders : List CookOrderPkt) :
    cookSession closed (Line.typed lines) orders =
      waitForOrder closed (left.flatten ++ Line.typed after) orders := by
  have hreads : reads Prompt.room (Line.typed lines) =
      ((before.flatMap fun l => reads Prompt.room l.bytes) ++ refused) ++
        accepted :: (left ++ reads Prompt.room (Line.typed after)) := by
    rw [flatMap_reads_typed, flatMap_reads_typed, h.lines, List.flatMap_append,
      List.flatMap_cons, h.pieces]
    simp
  rw [cookSession, hreads, Prompt.after_append h.refused h.accepted]
  simp

theorem Registers.newline_mem_left {lines before : List Line} {line : Line}
    {after : List Line} {refused : List Bytes} {accepted : Bytes} {left : List Bytes}
    (h : Registers lines before line after refused accepted left) (hleft : left ≠ []) :
    newline ∈ left.flatten := by
  obtain ⟨read, left', rfl⟩ := List.exists_cons_of_ne_nil hleft
  have hread : read ≠ [] := by
    refine ne_nil_of_mem_readsFrom Prompt.room [] line.bytes read ?_
    change read ∈ reads Prompt.room line.bytes
    rw [h.pieces]
    simp
  have hbytes : line.bytes = (refused.flatten ++ accepted) ++ (read :: left').flatten := by
    have hflatten := flatten_reads Prompt.room line.bytes
    rw [h.pieces] at hflatten
    simpa using hflatten.symm
  have hlast := congrArg List.getLast? hbytes
  rw [List.getLast?_append_of_ne_nil _ (by simp [hread]), Line.bytes,
    List.getLast?_concat] at hlast
  exact List.mem_of_getLast? hlast.symm

def Aligned (closed : Bool) (after : List Line) (unread : Bytes) (orders : List CookOrderPkt) :
    Prop :=
  ∀ n answer, (waitForOrder closed unread orders)[n]? = some answer →
    n < after.length ∧ answer.unread = Line.typed (after.drop n)

def LinesFit (closed : Bool) (after : List Line) (orders : Nat) : Prop :=
  (∀ n, n + 1 < orders → ∀ line ∈ after[n]?, line.bytes.length ≤ messageRoom) ∧
    (closed = true → orders ≤ after.length)

section Aligned

variable {closed : Bool} {line : Line} {after : List Line} {unread taken rest : Bytes}
  {pktData : CookOrderPkt} {orders : List CookOrderPkt}

theorem aligned_nil_orders : Aligned closed after unread [] := by
  intro n answer hanswer
  simp [waitForOrder] at hanswer

theorem waitForOrder_cons (h : await closed messageRoom unread = some (taken, rest)) :
    waitForOrder closed unread (pktData :: orders) =
      ⟨taken, unread⟩ :: waitForOrder closed rest orders := by
  simp [waitForOrder, cookOrderHandler, h]

theorem aligned_cons (h : await closed messageRoom unread = some (taken, rest)) :
    Aligned closed (line :: after) unread (pktData :: orders) ↔
      unread = Line.typed (line :: after) ∧ Aligned closed after rest orders := by
  unfold Aligned
  rw [waitForOrder_cons h]
  constructor
  · intro hall
    refine ⟨(hall 0 _ rfl).2, fun n answer hanswer => ?_⟩
    obtain ⟨hlt, hunread⟩ := hall (n + 1) answer (by simpa using hanswer)
    exact ⟨Nat.lt_of_succ_lt_succ hlt, hunread⟩
  · rintro ⟨hunread, hrest⟩ n answer hanswer
    cases n with
    | zero =>
        obtain rfl : ⟨taken, unread⟩ = answer := by simpa using hanswer
        exact ⟨Nat.zero_lt_succ _, hunread⟩
    | succ n =>
        obtain ⟨hlt, hunread'⟩ := hrest n answer (by simpa using hanswer)
        exact ⟨Nat.succ_lt_succ hlt, hunread'⟩

theorem not_aligned_of_ne (hline : newline ∈ unread) (hne : unread ≠ Line.typed after) :
    ¬ Aligned closed after unread (pktData :: orders) := by
  obtain ⟨⟨taken, rest⟩, hawait⟩ := await_isSome closed messageRoom hline
  intro h
  exact hne (h 0 ⟨taken, unread⟩ (by rw [waitForOrder_cons hawait]; rfl)).2

theorem linesFit_cons {orders : Nat} :
    LinesFit closed (line :: after) (orders + 1) ↔
      (0 < orders → line.bytes.length ≤ messageRoom) ∧ LinesFit closed after orders := by
  unfold LinesFit
  constructor
  · rintro ⟨hfit, hall⟩
    refine ⟨fun hpos => hfit 0 (Nat.succ_lt_succ hpos) line rfl,
      fun n hn => hfit (n + 1) (Nat.succ_lt_succ hn), fun hclosed => ?_⟩
    exact Nat.le_of_succ_le_succ (hall hclosed)
  · rintro ⟨hfirst, hrest, hall⟩
    refine ⟨fun n hn l hl => ?_, fun hclosed => Nat.succ_le_succ (hall hclosed)⟩
    cases n with
    | zero =>
        obtain rfl : line = l := by simpa using hl
        exact hfirst (Nat.lt_of_succ_lt_succ hn)
    | succ n => exact hrest n (Nat.lt_of_succ_lt_succ hn) l (by simpa using hl)

theorem linesFit_zero : LinesFit closed after 0 :=
  ⟨fun _ hn => absurd hn (Nat.not_lt_zero _), fun _ => Nat.zero_le _⟩

theorem aligned_typed_iff :
    Aligned closed after (Line.typed after) orders ↔ LinesFit closed after orders.length := by
  induction orders generalizing after with
  | nil => exact iff_of_true aligned_nil_orders linesFit_zero
  | cons pktData orders ih =>
      cases after with
      | nil =>
          cases closed with
          | false =>
              refine iff_of_true (fun n answer hanswer => ?_) ⟨by simp, by simp⟩
              simp [waitForOrder, cookOrderHandler, await, messageRoom, fgets] at hanswer
          | true =>
              refine iff_of_false (fun h => ?_) fun h => absurd (h.2 rfl) (by simp)
              exact absurd (h 0 ⟨[], []⟩ rfl).1 (Nat.not_lt_zero _)
      | cons line after =>
          rw [List.length_cons, linesFit_cons]
          rcases Nat.lt_or_ge messageRoom line.bytes.length with hlong | hfits
          · have hawait := await_long closed hlong (Line.typed after)
            rw [← Line.typed_cons] at hawait
            rw [aligned_cons hawait]
            cases orders with
            | nil => simp [aligned_nil_orders, linesFit_zero]
            | cons pktData' orders =>
                refine iff_of_false (fun h => ?_) fun h => ?_
                · refine not_aligned_of_ne (by simp) (fun heq => ?_) h.2
                  have hlength := congrArg List.length heq
                  simp at hlength
                  omega
                · exact absurd (h.1 (Nat.zero_lt_succ _)) (Nat.not_le_of_lt hlong)
          · have hawait := await_line closed hfits (Line.typed after)
            rw [← Line.typed_cons] at hawait
            rw [aligned_cons hawait, ih]
            simp [hfits]

end Aligned

/--
After a registration, each update takes a line of its own exactly when no order comes
or: nothing of the registration line is left over, every line but the last order's fits
into the message, and an input that is closed has a line for every order.
-/
theorem one_line_each_iff (closed : Bool) (orders : List CookOrderPkt)
    {lines before : List Line} {line : Line} {after : List Line} {refused : List Bytes}
    {accepted : Bytes} {left : List Bytes}
    (h : Registers lines before line after refused accepted left) :
    OneLineEach closed lines after orders ↔
      orders = [] ∨ left = [] ∧ LinesFit closed after orders.length := by
  unfold OneLineEach
  rw [h.session]
  change Aligned closed after _ orders ↔ _
  cases orders with
  | nil => simp [aligned_nil_orders]
  | cons pktData orders =>
      by_cases hleft : left = []
      · rw [hleft, List.flatten_nil, List.nil_append, aligned_typed_iff]
        simp
      · refine iff_of_false (not_aligned_of_ne ?_ ?_) (by simp [hleft])
        · exact List.mem_append_left _ (h.newline_mem_left hleft)
        · intro heq
          have hnil := List.append_left_eq_self.mp heq
          have hmem := h.newline_mem_left hleft
          rw [hnil] at hmem
          simp at hmem

def registrationLine : Line := ⟨[49], by decide⟩

def longLine : Line := ⟨List.replicate 31 97, by decide⟩

theorem registrationLine_registers (after : List Line) :
    Registers (registrationLine :: after) [] registrationLine after [] [49, newline] [] :=
  ⟨rfl, by decide, by simp, by decide⟩

theorem one_line_each_two_orders :
    OneLineEach true [registrationLine, registrationLine, longLine]
      [registrationLine, longLine] [⟨fun _ => 0⟩, ⟨fun _ => 0⟩] :=
  (one_line_each_iff true [⟨fun _ => 0⟩, ⟨fun _ => 0⟩]
    (registrationLine_registers [registrationLine, longLine])).mpr
    (.inr ⟨rfl, fun n hn => by
      obtain rfl : n = 0 := Nat.lt_one_iff.mp (Nat.lt_of_succ_lt_succ hn)
      decide, by decide⟩)

/-- What is left of the line for the first order acknowledges the second. -/
theorem long_line_answers_twice :
    Registers [registrationLine, longLine] [] registrationLine [longLine] []
        [49, newline] [] ∧
      ¬ OneLineEach false [registrationLine, longLine] [longLine]
        [⟨fun _ => 0⟩, ⟨fun _ => 0⟩] := by
  refine ⟨registrationLine_registers [longLine], fun h => ?_⟩
  have hsecond := h 1 ⟨[97, newline], [97, newline]⟩ (by decide +kernel)
  exact absurd hsecond.1 (by decide)

end SysprogTeam3.FoodSys
