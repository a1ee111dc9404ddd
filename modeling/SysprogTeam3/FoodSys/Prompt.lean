import SysprogTeam3.FoodSys.WireFormat

/-!
# The prompts of the client programs

`client.c` and `cook-client.c` ask for menu numbers with the same loop: a line is
read and cut into tokens, each token is checked and stored, and the first one that
fails the check sends the user back to the prompt.  The programs differ in what they
store, and in how they clear it.

The lines here are what `fgets` returns.  A typed line that is longer than the buffer
gives several of them, and only the last one has the newline.
-/

namespace SysprogTeam3.FoodSys

open SysprogTeam3.Foundation

abbrev Bytes := List UInt8

inductive OrderType where
  | biryani
  | dosa
  | vegCurry
  | rice

def orderTypes : List OrderType := [.biryani, .dosa, .vegCurry, .rice]

/-- `max_num_orders` after the menu was printed. -/
def maxNumOrders : Nat := 1 + orderTypes.length

def MenuNumber (order : Int) : Prop := 1 ≤ order ∧ order < maxNumOrders

/-- `order == 0 || order >= max_num_orders` -/
def refused (order : Int) : Bool := order == 0 || decide (order ≥ maxNumOrders)

/-! ## The token loop -/

/-- Where the token loop has come to when it is left. -/
structure TokenLoop (σ : Type) where
  data : σ
  /-- The orders that were stored. -/
  passed : List Int
  accepted : Bool

/-- `put` stores the `(uint8_t) order`; `none` is a write outside the array. -/
def readTokens {σ : Type} (put : σ → UInt8 → Option σ) :
    σ → List Bytes → Option (TokenLoop σ)
  | data, [] => some ⟨data, [], true⟩
  | data, tok :: toks =>
      let order := atoi tok
      if refused order then some ⟨data, [], false⟩
      else
        match put data (UInt8.ofInt order) with
        | none => none
        | some data =>
            (readTokens put data toks).map fun r => { r with passed := order :: r.passed }

/-- The orders before the first one that is refused. -/
def passing (toks : List Bytes) : List Int :=
  (toks.map atoi).takeWhile fun order => !refused order

def allPass (toks : List Bytes) : Bool := toks.all fun tok => !refused (atoi tok)

theorem readTokens_eq {σ : Type} (put : σ → UInt8 → Option σ) (data : σ)
    (toks : List Bytes) :
    readTokens put data toks =
      (((passing toks).map UInt8.ofInt).foldlM put data).map
        fun data => ⟨data, passing toks, allPass toks⟩ := by
  induction toks generalizing data with
  | nil => rfl
  | cons tok toks ih =>
      cases hrefused : refused (atoi tok) with
      | true => simp [readTokens, passing, allPass, hrefused]
      | false =>
          have hpassing : passing (tok :: toks) = atoi tok :: passing toks := by
            simp [passing, hrefused]
          have hall : allPass (tok :: toks) = allPass toks := by
            simp [allPass, hrefused]
          rw [readTokens, hpassing, hall, List.map_cons, List.foldlM_cons]
          simp only [hrefused, Bool.false_eq_true, if_false]
          cases put data (UInt8.ofInt (atoi tok)) with
          | none => rfl
          | some next =>
              simp only [ih next, Option.map_map, Option.bind_eq_bind, Option.bind_some]
              rfl

/-! ## The prompt -/

structure Prompt (σ : Type) where
  /-- The part of a line that is cut into tokens. -/
  text : Bytes → Bytes
  /-- What the statements after the label do to the data; `none` is a write
  outside it. -/
  reset : σ → Option σ
  put : σ → UInt8 → Option σ

namespace Prompt

variable {σ : Type} (p : Prompt σ)

def tokens (line : Bytes) : List Bytes := words (p.text line)

def round (old : σ) (line : Bytes) : Option (TokenLoop σ) :=
  (p.reset old).bind fun data => readTokens p.put data (p.tokens line)

/-- The rounds from the label on, over the lines that `fgets` returns.  At the end of
the input `order` stays empty. -/
def rounds : σ → List Bytes → Option (List (TokenLoop σ))
  | old, [] => (p.round old []).map fun r => [r]
  | old, line :: lines =>
      match p.round old line with
      | none => none
      | some r =>
          if r.accepted then some [r]
          else (rounds r.data lines).map (r :: ·)

/-- `order` has 64 bytes, and `fgets` is given one less. -/
def room : Nat := 64 - 1 - 1

end Prompt

/-! ## The customer's prompt -/

/-- `order_data` and the `i` that counts its entries. -/
structure OrderData where
  orders : Item → UInt8
  i : Nat

def OrderData.put (d : OrderData) (code : UInt8) : Option OrderData :=
  if h : d.i < 32 then
    some { orders := Function.update d.orders ⟨d.i, h⟩ code, i := d.i + 1 }
  else none

/-- `renter_order` of `client.c`. -/
def customerPrompt : Prompt OrderData where
  text := beforeNul
  reset := fun _ => some { orders := fun _ => 0, i := 0 }
  put := OrderData.put

def OrderData.names (d : OrderData) (code : Nat) : Prop :=
  ∃ i, d.orders i ≠ 0 ∧ (d.orders i).toNat = code

/-! ## The cook's prompt -/

abbrev Capability := Item → UInt8

def putCapable (capability : Capability) (code : UInt8) : Option Capability :=
  if h : code.toNat < 32 then
    some (Function.update capability ⟨code.toNat, h⟩ MenuState.capable.code)
  else none

/-- The loop at `renter_items` of `cook-client.c`, from an array that is cleared. -/
def cookLoop : Prompt Capability where
  text := fun line => (beforeNul line).takeWhile (· != newline)
  reset := fun _ => some fun _ => 0
  put := putCapable

/-- `memset` of `n` bytes from an offset in an object of that size. -/
def memset {σ : Type} (size offset n : Nat) (cleared : σ) : Option σ :=
  if offset + n ≤ size then some cleared else none

/-- `renter_items` of `cook-client.c`, which clears `sizeof(reg_data)` bytes from
`reg_data.capability` on. -/
def cookPrompt : Prompt Capability :=
  { cookLoop with
    reset := fun _ => memset regCookPktSize capabilityOffset regCookPktSize fun _ => 0 }

def Capability.names (capability : Capability) (item : Nat) : Prop :=
  ∃ i : Item, capability i ≠ 0 ∧ i.val = item

/-! ## What is stored -/

theorem MenuNumber.toNat_ofInt {order : Int} (h : MenuNumber order) :
    ((UInt8.ofInt order).toNat : Int) = order := by
  have hlt : order < 5 := h.2
  have hcases : order = 1 ∨ order = 2 ∨ order = 3 ∨ order = 4 := by
    have hge := h.1
    omega
  rcases hcases with rfl | rfl | rfl | rfl <;> decide

theorem menuNumber_iff {order : Int} :
    MenuNumber order ↔ refused order = false ∧ 0 ≤ order := by
  simp only [MenuNumber, refused, Bool.or_eq_false_iff, beq_eq_false_iff_ne,
    decide_eq_false_iff_not]
  omega

theorem foldlM_put {codes : List UInt8} {d : OrderData}
    (hlength : d.i + codes.length ≤ 32) :
    codes.foldlM OrderData.put d = some
      { orders := fun j =>
          if j.val < d.i then d.orders j else codes.getD (j.val - d.i) (d.orders j)
        i := d.i + codes.length } := by
  induction codes generalizing d with
  | nil => simp
  | cons code codes ih =>
      rw [List.length_cons] at hlength
      have hlt : d.i < 32 := by omega
      have hput : OrderData.put d code = some
          { orders := Function.update d.orders ⟨d.i, hlt⟩ code, i := d.i + 1 } := by
        rw [OrderData.put, dif_pos hlt]
      rw [List.foldlM_cons, hput, Option.bind_eq_bind, Option.bind_some,
        ih (show d.i + 1 + codes.length ≤ 32 by omega)]
      congr 2
      · funext j
        rcases Nat.lt_trichotomy j.val d.i with hj | hj | hj
        · have hne : j ≠ ⟨d.i, hlt⟩ := fun h => absurd (congrArg Fin.val h) hj.ne
          simp [hj, hne, Nat.lt_succ_of_lt hj]
        · have heq : j = ⟨d.i, hlt⟩ := Fin.ext hj
          simp [heq]
        · have hne : j ≠ ⟨d.i, hlt⟩ := fun h => absurd (congrArg Fin.val h) hj.ne'
          obtain ⟨k, hk⟩ : ∃ k, j.val - d.i = k + 1 := ⟨j.val - d.i - 1, by omega⟩
          have hk' : j.val - (d.i + 1) = k := by omega
          simp [hne, hk, hk', Nat.not_lt_of_lt hj, Nat.not_lt_of_le (Nat.succ_le_of_lt hj)]
      · rw [List.length_cons]
        exact Nat.succ_add_eq_add_succ ..

theorem foldlM_putCapable {codes : List UInt8} (hcodes : ∀ code ∈ codes, code.toNat < 32)
    (capability : Capability) :
    codes.foldlM putCapable capability = some fun i =>
      if codes.any (fun code => code.toNat == i.val) then MenuState.capable.code
      else capability i := by
  induction codes generalizing capability with
  | nil => simp
  | cons code codes ih =>
      have hlt : code.toNat < 32 := hcodes code List.mem_cons_self
      have hput : putCapable capability code = some
          (Function.update capability ⟨code.toNat, hlt⟩ MenuState.capable.code) := by
        rw [putCapable, dif_pos hlt]
      rw [List.foldlM_cons, hput, Option.bind_eq_bind, Option.bind_some,
        ih fun c hc => hcodes c (List.mem_cons_of_mem code hc)]
      congr 1
      funext i
      by_cases hi : i = ⟨code.toNat, hlt⟩
      · simp [hi]
      · have hne : code.toNat ≠ i.val := fun h => hi (Fin.ext h.symm)
        simp [hi, hne]

/-- The orders of one line fit, and what is sent names only menu numbers. -/
structure Prompt.Stores {σ : Type} (p : Prompt σ) (names : σ → Nat → Prop) (start : σ) :
    Prop where
  reset : ∀ old, p.reset old = some start
  text : ∀ line, (p.text line).length ≤ line.length
  put : ∀ codes : List UInt8, (∀ code ∈ codes, MenuNumber code.toNat) →
    codes.length ≤ 31 → ∃ data, codes.foldlM p.put start = some data ∧
      ∀ code, names data code → MenuNumber code

theorem customerPrompt_stores : customerPrompt.Stores OrderData.names ⟨fun _ => 0, 0⟩ where
  reset _ := rfl
  text _ := (List.takeWhile_prefix _).length_le
  put codes hcodes hlength := by
    have hput := @foldlM_put codes ⟨fun _ => 0, 0⟩ (show 0 + codes.length ≤ 32 by omega)
    refine ⟨_, hput, ?_⟩
    rintro code ⟨i, hne, rfl⟩
    apply hcodes
    simp only [Nat.not_lt_zero, if_false, Nat.sub_zero] at hne ⊢
    by_cases hi : i.val < codes.length
    · rw [List.getD_eq_getElem _ _ hi]
      exact List.getElem_mem hi
    · rw [List.getD_eq_default _ _ (Nat.le_of_not_lt hi)] at hne
      exact absurd rfl hne

theorem cookLoop_stores : cookLoop.Stores Capability.names fun _ => 0 where
  reset _ := rfl
  text _ := (List.takeWhile_prefix _).length_le.trans (List.takeWhile_prefix _).length_le
  put codes hcodes hlength := by
    have hput := @foldlM_putCapable codes
      (fun code hcode => lt_trans (Int.ofNat_lt.mp (hcodes code hcode).2) (by decide))
      fun _ => 0
    refine ⟨_, hput, ?_⟩
    rintro item ⟨i, hne, rfl⟩
    dsimp only at hne
    split at hne
    · rename_i hany
      obtain ⟨code, hcode, heq⟩ := List.any_eq_true.mp hany
      rw [← beq_iff_eq.mp heq]
      exact hcodes code hcode
    · exact absurd rfl hne

/-! ## Validation -/

namespace Prompt

variable {σ : Type} {p : Prompt σ} {names : σ → Nat → Prop} {start : σ}

/-- Only menu numbers were accepted and stored, and nothing came from other lines. -/
structure RoundValid (p : Prompt σ) (r : TokenLoop σ) : Prop where
  passed : ∀ order ∈ r.passed, MenuNumber order
  stored : ∀ order ∈ r.passed, MenuNumber (UInt8.ofInt order).toNat
  own : ∀ old, ((p.reset old).bind fun data =>
    (r.passed.map UInt8.ofInt).foldlM p.put data) = some r.data

/-- Every round is valid, what is sent names menu numbers, and it has nothing of a
typed line of which a part was refused. -/
structure Validated (p : Prompt σ) (names : σ → Nat → Prop) (lines : List Bytes)
    (rounds : List (TokenLoop σ)) : Prop where
  valid : ∀ r ∈ rounds, p.RoundValid r
  sent : ∃ r ∈ rounds.getLast?, r.accepted = true ∧
    ∀ code, names r.data code → MenuNumber code
  fresh : ∀ n line r, lines[n]? = some line → newline ∉ line →
    rounds[n + 1]? = some r → r.accepted = true → r.passed = []

/-- The program comes to an end of the prompt, and validates what was typed. -/
def Validates (p : Prompt σ) (names : σ → Nat → Prop) (old : σ) (lines : List Bytes) :
    Prop :=
  ∃ rounds, p.rounds old lines = some rounds ∧ p.Validated names lines rounds

/-- On no line up to the first one that passes, a negative number is typed before
the first one that is refused. -/
def NoNegative (p : Prompt σ) (lines : List Bytes) : Prop :=
  ∀ before line after, lines = before ++ line :: after →
    (∀ l ∈ before, allPass (p.tokens l) = false) →
    ∀ order ∈ passing (p.tokens line), 0 ≤ order

/-- The first line that passes has no tokens, or the one before it, which is refused,
comes to the end of what was typed. -/
def OwnLine (p : Prompt σ) (lines : List Bytes) : Prop :=
  ∀ before line next after, lines = before ++ line :: next :: after →
    (∀ l ∈ before, allPass (p.tokens l) = false) → allPass (p.tokens line) = false →
    newline ∉ line → allPass (p.tokens next) = true → p.tokens next = []

theorem round_eq {old data : σ} (h : p.reset old = some data) (line : Bytes) :
    p.round old line =
      (((passing (p.tokens line)).map UInt8.ofInt).foldlM p.put data).map
        fun data => ⟨data, passing (p.tokens line), allPass (p.tokens line)⟩ := by
  rw [round, h, Option.bind_some, readTokens_eq]

theorem round_eq_some {old : σ} {line : Bytes} {r : TokenLoop σ}
    (h : p.round old line = some r) :
    r.passed = passing (p.tokens line) ∧ r.accepted = allPass (p.tokens line) := by
  obtain ⟨data, -, hloop⟩ := Option.bind_eq_some_iff.mp h
  rw [readTokens_eq, Option.map_eq_some_iff] at hloop
  obtain ⟨last, -, rfl⟩ := hloop
  exact ⟨rfl, rfl⟩

theorem noNegative_cons {line : Bytes} {lines : List Bytes} :
    p.NoNegative (line :: lines) ↔
      (∀ order ∈ passing (p.tokens line), 0 ≤ order) ∧
        (allPass (p.tokens line) = false → p.NoNegative lines) := by
  constructor
  · intro h
    refine ⟨h [] line lines rfl (by simp), fun hline before line' after heq hbefore => ?_⟩
    refine h (line :: before) line' after (by rw [heq]; rfl) fun l hl => ?_
    rcases List.mem_cons.mp hl with rfl | hl
    · exact hline
    · exact hbefore l hl
  · rintro ⟨hfirst, hrest⟩ before line' after heq hbefore
    cases before with
    | nil =>
        obtain ⟨rfl, -⟩ := List.cons.inj heq
        exact hfirst
    | cons l before =>
        obtain ⟨rfl, hlines⟩ := List.cons.inj heq
        exact hrest (hbefore line List.mem_cons_self) before line' after hlines
          fun l hl => hbefore l (List.mem_cons_of_mem _ hl)

theorem ownLine_cons {line : Bytes} {lines : List Bytes} :
    p.OwnLine (line :: lines) ↔
      (allPass (p.tokens line) = false →
        (newline ∉ line → ∀ next ∈ lines.head?, allPass (p.tokens next) = true →
          p.tokens next = []) ∧ p.OwnLine lines) := by
  constructor
  · intro h hline
    constructor
    · intro hend next hnext
      obtain ⟨after, rfl⟩ := List.head?_eq_some_iff.mp hnext
      exact h [] line next after rfl (by simp) hline hend
    · intro before line' next after heq hbefore
      refine h (line :: before) line' next after (by rw [heq]; rfl) fun l hl => ?_
      rcases List.mem_cons.mp hl with rfl | hl
      · exact hline
      · exact hbefore l hl
  · intro h before line' next after heq hbefore hline' hend
    cases before with
    | nil =>
        obtain ⟨rfl, rfl⟩ := List.cons.inj heq
        exact (h hline').1 hend next rfl
    | cons l before =>
        obtain ⟨rfl, hlines⟩ := List.cons.inj heq
        exact (h (hbefore line List.mem_cons_self)).2 before line' next after hlines
          (fun l hl => hbefore l (List.mem_cons_of_mem _ hl)) hline' hend

theorem rounds_cons {old : σ} {line : Bytes} {lines : List Bytes}
    {rounds : List (TokenLoop σ)} :
    p.rounds old (line :: lines) = some rounds ↔
      ∃ r, p.round old line = some r ∧
        (r.accepted = true ∧ rounds = [r] ∨
          r.accepted = false ∧ ∃ rest, p.rounds r.data lines = some rest ∧
            rounds = r :: rest) := by
  rw [Prompt.rounds]
  cases p.round old line with
  | none => simp
  | some r =>
      simp only [Option.some.injEq, exists_eq_left']
      cases r.accepted <;> simp [eq_comm]

theorem rounds_head {old : σ} {lines : List Bytes} {rounds : List (TokenLoop σ)}
    {r : TokenLoop σ} (h : p.rounds old lines = some rounds) (hr : rounds[0]? = some r) :
    p.round old (lines.headD []) = some r := by
  cases lines with
  | nil =>
      obtain ⟨first, hfirst, rfl⟩ := Option.map_eq_some_iff.mp h
      obtain rfl : first = r := by simpa using hr
      exact hfirst
  | cons line lines =>
      obtain ⟨first, hfirst, ⟨-, rfl⟩ | ⟨-, rest, -, rfl⟩⟩ := rounds_cons.mp h
      all_goals
        obtain rfl : first = r := by simpa using hr
        exact hfirst

theorem passing_of_allPass {toks : List Bytes} (h : allPass toks = true) :
    passing toks = toks.map atoi := by
  unfold allPass at h
  rw [passing, List.takeWhile_eq_self_iff]
  simpa using h

/-! ### What is validated was typed well -/

theorem noNegative_of_rounds {old : σ} {lines : List Bytes} {rounds : List (TokenLoop σ)}
    (hrounds : p.rounds old lines = some rounds)
    (hpassed : ∀ r ∈ rounds, ∀ order ∈ r.passed, MenuNumber order) :
    p.NoNegative lines := by
  induction lines generalizing old rounds with
  | nil =>
      intro before line after heq
      simp at heq
  | cons line lines ih =>
      obtain ⟨r, hr, hcases⟩ := rounds_cons.mp hrounds
      obtain ⟨heq, haccepted⟩ := round_eq_some hr
      have hmem : r ∈ rounds := by
        rcases hcases with ⟨-, rfl⟩ | ⟨-, rest, -, rfl⟩ <;> simp
      refine noNegative_cons.mpr ⟨fun order horder => ?_, fun hrefused => ?_⟩
      · exact (menuNumber_iff.mp (hpassed r hmem order (heq ▸ horder))).2
      · rcases hcases with ⟨hpass, -⟩ | ⟨-, rest, hrest, rfl⟩
        · simp [haccepted, hrefused] at hpass
        · exact ih hrest fun r' hr' => hpassed r' (List.mem_cons_of_mem _ hr')

theorem ownLine_of_rounds {old : σ} {lines : List Bytes} {rounds : List (TokenLoop σ)}
    (hrounds : p.rounds old lines = some rounds)
    (hfresh : ∀ n line r, lines[n]? = some line → newline ∉ line →
      rounds[n + 1]? = some r → r.accepted = true → r.passed = []) : p.OwnLine lines := by
  induction lines generalizing old rounds with
  | nil =>
      intro before line next after heq
      simp at heq
  | cons line lines ih =>
      obtain ⟨r, hr, hcases⟩ := rounds_cons.mp hrounds
      refine ownLine_cons.mpr fun hrefused => ?_
      rcases hcases with ⟨hpass, -⟩ | ⟨-, rest, hrest, rfl⟩
      · simp [(round_eq_some hr).2, hrefused] at hpass
      refine ⟨fun hend next hnext hpass => ?_, ih hrest fun n l r' hl => ?_⟩
      · obtain ⟨after, rfl⟩ := List.head?_eq_some_iff.mp hnext
        obtain ⟨first, hfirst, -⟩ := rounds_cons.mp hrest
        obtain ⟨hpassed, haccepted⟩ := round_eq_some hfirst
        have hhead : rest[0]? = some first := by
          obtain ⟨first', hfirst', hcases⟩ := rounds_cons.mp hrest
          obtain rfl : first = first' := Option.some.inj (hfirst.symm.trans hfirst')
          rcases hcases with ⟨-, rfl⟩ | ⟨-, more, -, rfl⟩ <;> rfl
        have hnil := hfresh 0 line first rfl hend hhead (haccepted.trans hpass)
        rw [hpassed, passing_of_allPass hpass] at hnil
        simpa using hnil
      · exact hfresh (n + 1) l r' hl

theorem menuNumber_of_passing {toks : List Bytes} (h : ∀ order ∈ passing toks, 0 ≤ order) :
    ∀ order ∈ passing toks, MenuNumber order := by
  intro order horder
  have hrefused := List.mem_takeWhile_imp horder
  exact menuNumber_iff.mpr ⟨by simpa using hrefused, h order horder⟩

theorem passing_length_le (toks : List Bytes) : (passing toks).length ≤ toks.length := by
  have hstart := (List.takeWhile_prefix (l := toks.map atoi)
    fun order => !refused order).length_le
  rwa [List.length_map] at hstart

/-! ### What is typed well is validated -/

theorem Stores.tokens_length (hp : p.Stores names start) {line : Bytes}
    (hline : line.length ≤ room) : (p.tokens line).length ≤ 31 := by
  have htext := hp.text line
  have hwords : 2 * (p.tokens line).length ≤ (p.text line).length + 1 := words_length _
  have hroom : room = 62 := rfl
  omega

theorem Stores.round (hp : p.Stores names start) {line : Bytes}
    (hline : line.length ≤ room) (hpassing : ∀ order ∈ passing (p.tokens line), 0 ≤ order)
    (old : σ) :
    ∃ r, p.round old line = some r ∧ p.RoundValid r ∧
      ∀ code, names r.data code → MenuNumber code := by
  have hmenu := menuNumber_of_passing hpassing
  have hstored : ∀ order ∈ passing (p.tokens line),
      MenuNumber (UInt8.ofInt order).toNat := by
    intro order horder
    rw [(hmenu order horder).toNat_ofInt]
    exact hmenu order horder
  obtain ⟨data, hdata, hnames⟩ := hp.put ((passing (p.tokens line)).map UInt8.ofInt)
    (by simpa using hstored)
    (by
      rw [List.length_map]
      exact (passing_length_le _).trans (hp.tokens_length hline))
  refine ⟨⟨data, passing (p.tokens line), allPass (p.tokens line)⟩, ?_,
    ⟨hmenu, hstored, fun old' => ?_⟩, hnames⟩
  · rw [round_eq (hp.reset old), hdata]
    rfl
  · rw [hp.reset old', Option.bind_some]
    exact hdata

theorem Stores.tokens_nil (hp : p.Stores names start) : p.tokens [] = [] := by
  have htext : p.text [] = [] := List.eq_nil_of_length_eq_zero (Nat.le_zero.mp (hp.text []))
  rw [tokens, htext]
  rfl

theorem Stores.fresh_head (hp : p.Stores names start) {lines : List Bytes} {old : σ}
    {rounds : List (TokenLoop σ)} {r : TokenLoop σ}
    (hnext : ∀ next ∈ lines.head?, allPass (p.tokens next) = true → p.tokens next = [])
    (hrounds : p.rounds old lines = some rounds) (hr : rounds[0]? = some r)
    (haccepted : r.accepted = true) : r.passed = [] := by
  obtain ⟨hpassed, heq⟩ := round_eq_some (rounds_head hrounds hr)
  rw [hpassed]
  cases lines with
  | nil =>
      rw [List.headD_nil, hp.tokens_nil]
      rfl
  | cons next lines =>
      rw [List.headD_cons, hnext next rfl (heq.symm.trans haccepted)]
      rfl

theorem Stores.validates (hp : p.Stores names start) {lines : List Bytes}
    (hlines : ∀ line ∈ lines, line.length ≤ room) (hneg : p.NoNegative lines)
    (hown : p.OwnLine lines) (old : σ) : p.Validates names old lines := by
  induction lines generalizing old with
  | nil =>
      have htokens := hp.tokens_nil
      obtain ⟨r, hr, hvalid, hnames⟩ : ∃ r, p.round old [] = some r ∧ p.RoundValid r ∧
          ∀ code, names r.data code → MenuNumber code :=
        hp.round (Nat.zero_le _) (by simp [htokens, passing]) old
      refine ⟨[r], ?_, by simpa using hvalid, ⟨r, rfl, ?_, hnames⟩, by simp⟩
      · rw [Prompt.rounds, hr]
        rfl
      · rw [(round_eq_some hr).2, htokens]
        rfl
  | cons line lines ih =>
      obtain ⟨hpassing, hrest⟩ := noNegative_cons.mp hneg
      obtain ⟨r, hr, hvalid, hnames⟩ :=
        hp.round (hlines line List.mem_cons_self) hpassing old
      have haccepted := (round_eq_some hr).2
      cases hpass : allPass (p.tokens line) with
      | true =>
          exact ⟨[r], rounds_cons.mpr ⟨r, hr, .inl ⟨haccepted.trans hpass, rfl⟩⟩,
            by simpa using hvalid, ⟨r, rfl, haccepted.trans hpass, hnames⟩, by simp⟩
      | false =>
          obtain ⟨hnext, hown⟩ := ownLine_cons.mp hown hpass
          obtain ⟨rounds, hrounds, hvalidated⟩ :=
            ih (fun l hl => hlines l (List.mem_cons_of_mem _ hl)) (hrest hpass) hown r.data
          refine ⟨r :: rounds,
            rounds_cons.mpr ⟨r, hr, .inr ⟨haccepted.trans hpass, rounds, hrounds, rfl⟩⟩,
            ?_, ?_, ?_⟩
          · simpa using ⟨hvalid, hvalidated.valid⟩
          · obtain ⟨last, hlast, hsent⟩ := hvalidated.sent
            refine ⟨last, ?_, hsent⟩
            rw [List.getLast?_cons, Option.mem_def.mp hlast]
            rfl
          · intro n l r' hl hend hr'
            cases n with
            | zero =>
                obtain rfl : line = l := by simpa using hl
                exact hp.fresh_head (hnext hend) hrounds hr'
            | succ n => exact hvalidated.fresh n l r' hl hend hr'

theorem Stores.validates_iff (hp : p.Stores names start) (old : σ) (stdin : Bytes) :
    p.Validates names old (reads room stdin) ↔
      p.NoNegative (reads room stdin) ∧ p.OwnLine (reads room stdin) := by
  constructor
  · rintro ⟨rounds, hrounds, hvalidated⟩
    exact ⟨noNegative_of_rounds hrounds fun r hr => (hvalidated.valid r hr).passed,
      ownLine_of_rounds hrounds hvalidated.fresh⟩
  · rintro ⟨hneg, hown⟩
    exact hp.validates (fun line => reads_length_le (by decide)) hneg hown old

theorem not_validates_of_reset (h : ∀ old, p.reset old = none) (old : σ)
    (lines : List Bytes) : ¬ p.Validates names old lines := by
  rintro ⟨rounds, hrounds, -⟩
  cases lines with
  | nil => simp [Prompt.rounds, Prompt.round, h] at hrounds
  | cons line lines =>
      obtain ⟨r, hr, -⟩ := rounds_cons.mp hrounds
      simp [Prompt.round, h] at hr

end Prompt

/-- The `memset` at the cook's prompt runs past `reg_data`. -/
theorem cookPrompt_reset (old : Capability) : cookPrompt.reset old = none := rfl

def longOrder : Bytes :=
  57 :: (List.replicate 31 [blank, 49]).flatten ++ [blank, 50, newline]

def orderTail : Bytes := [49, blank, 50, newline]

theorem reads_longOrder :
    reads Prompt.room longOrder = [longOrder.take Prompt.room, orderTail] := by
  decide

end SysprogTeam3.FoodSys
