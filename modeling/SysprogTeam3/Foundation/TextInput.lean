import Mathlib.Data.Int.Notation
import Mathlib.Data.List.TakeWhile

/-!
# Typed text

Standard input as a list of characters, and the functions of the C library that
cut it into lines, strings, words and numbers.
-/

namespace SysprogTeam3.Foundation

def newline : UInt8 := 10

def blank : UInt8 := 32

/-! ## Lines -/

/-- `fgets(buf, room + 1, stream)`: the characters it takes, and the rest. -/
def fgets : Nat → List UInt8 → List UInt8 × List UInt8
  | 0, input => ([], input)
  | _ + 1, [] => ([], [])
  | room + 1, c :: input =>
      if c = newline then ([c], input)
      else (c :: (fgets room input).1, (fgets room input).2)

/-- What the successive calls of `fgets` return, when `read` is what the call under
way has taken. -/
def readsFrom (room : Nat) (read : List UInt8) : List UInt8 → List (List UInt8)
  | [] => if read = [] then [] else [read]
  | c :: input =>
      if c = newline ∨ read.length + 1 = room then
        (read ++ [c]) :: readsFrom room [] input
      else readsFrom room (read ++ [c]) input

def reads (room : Nat) (input : List UInt8) : List (List UInt8) :=
  readsFrom room [] input

theorem fgets_length_le (room : Nat) (input : List UInt8) :
    (fgets room input).1.length ≤ room := by
  induction input generalizing room with
  | nil => cases room <;> simp [fgets]
  | cons c input ih =>
      cases room with
      | zero => simp [fgets]
      | succ room =>
          have hrest := ih room
          by_cases hend : c = newline <;> simp [fgets, hend, hrest]

theorem fgets_short {room : Nat} {text : List UInt8} (rest : List UInt8)
    (htext : newline ∉ text) (hlength : text.length < room) :
    fgets room (text ++ newline :: rest) = (text ++ [newline], rest) := by
  induction text generalizing room with
  | nil =>
      obtain ⟨room, rfl⟩ := Nat.exists_eq_succ_of_ne_zero (Nat.ne_of_gt hlength)
      simp [fgets]
  | cons c text ih =>
      obtain ⟨room, rfl⟩ := Nat.exists_eq_succ_of_ne_zero (Nat.ne_zero_of_lt hlength)
      simp only [List.mem_cons, not_or] at htext
      have hrest := ih htext.2 (Nat.lt_of_succ_lt_succ hlength)
      rw [List.cons_append, fgets, if_neg (Ne.symm htext.1), hrest]
      rfl

theorem fgets_long {room : Nat} {text : List UInt8} (rest : List UInt8)
    (htext : newline ∉ text) (hlength : room ≤ text.length) :
    fgets room (text ++ rest) = (text.take room, text.drop room ++ rest) := by
  induction text generalizing room with
  | nil =>
      have hzero : room = 0 := Nat.le_zero.mp hlength
      simp [hzero, fgets]
  | cons c text ih =>
      cases room with
      | zero => simp [fgets]
      | succ room =>
          simp only [List.mem_cons, not_or] at htext
          have hrest := ih htext.2 (Nat.le_of_succ_le_succ hlength)
          rw [List.cons_append, fgets, if_neg (Ne.symm htext.1), hrest]
          rfl

theorem fgets_newline_or_full (room : Nat) {input : List UInt8} (h : newline ∈ input) :
    newline ∈ (fgets room input).1 ∨ (fgets room input).1.length = room := by
  induction input generalizing room with
  | nil => simp at h
  | cons c input ih =>
      cases room with
      | zero => exact .inr rfl
      | succ room =>
          by_cases hend : c = newline
          · exact .inl (by simp [fgets, hend])
          · have hmem : newline ∈ input :=
              (List.mem_cons.mp h).resolve_left (Ne.symm hend)
            rw [fgets, if_neg hend]
            rcases ih room hmem with hline | hfull
            · exact .inl (List.mem_cons_of_mem c hline)
            · exact .inr (by rw [List.length_cons, hfull])

theorem readsFrom_fgets {room : Nat} {read input : List UInt8}
    (hread : read.length < room) (hne : read ++ input ≠ []) :
    readsFrom room read input =
      (read ++ (fgets (room - read.length) input).1) ::
        reads room (fgets (room - read.length) input).2 := by
  induction input generalizing read with
  | nil =>
      rw [List.append_nil] at hne
      obtain ⟨left, hleft⟩ : ∃ left, room - read.length = left + 1 :=
        ⟨room - read.length - 1, by omega⟩
      rw [readsFrom, if_neg hne, hleft, fgets, List.append_nil]
      rfl
  | cons c input ih =>
      obtain ⟨left, hleft⟩ : ∃ left, room - read.length = left + 1 :=
        ⟨room - read.length - 1, by omega⟩
      rw [readsFrom, hleft, fgets]
      by_cases hend : c = newline
      · rw [if_pos (.inl hend), if_pos hend]
        rfl
      · rw [if_neg hend]
        by_cases hfull : read.length + 1 = room
        · have hzero : left = 0 := by omega
          rw [if_pos (.inr hfull), hzero, fgets]
          rfl
        · rw [if_neg (not_or.mpr ⟨hend, hfull⟩), ih (by simp; omega) (by simp)]
          have hless : room - (read ++ [c]).length = left := by
            rw [List.length_append, List.length_singleton]
            omega
          rw [hless, List.append_assoc]
          rfl

theorem reads_eq {room : Nat} {input : List UInt8} (hroom : 0 < room)
    (hne : input ≠ []) :
    reads room input = (fgets room input).1 :: reads room (fgets room input).2 := by
  have hfirst := @readsFrom_fgets room [] input hroom hne
  rwa [List.length_nil, Nat.sub_zero, List.nil_append] at hfirst

@[simp] theorem reads_nil (room : Nat) : reads room [] = [] := rfl

theorem flatten_readsFrom (room : Nat) (read input : List UInt8) :
    (readsFrom room read input).flatten = read ++ input := by
  induction input generalizing read with
  | nil => cases read <;> simp [readsFrom]
  | cons c input ih =>
      rw [readsFrom]
      split
      · rw [List.flatten_cons, ih, List.append_assoc]
        rfl
      · rw [ih, List.append_assoc]
        rfl

@[simp] theorem flatten_reads (room : Nat) (input : List UInt8) :
    (reads room input).flatten = input := flatten_readsFrom room [] input

theorem readsFrom_newline (room : Nat) (read text rest : List UInt8) :
    readsFrom room read (text ++ newline :: rest) =
      readsFrom room read (text ++ [newline]) ++ reads room rest := by
  induction text generalizing read with
  | nil => simp [readsFrom, reads]
  | cons c text ih =>
      simp only [List.cons_append, readsFrom]
      split
      · rw [ih, List.cons_append]
      · exact ih _

theorem reads_newline (room : Nat) (text rest : List UInt8) :
    reads room (text ++ newline :: rest) =
      reads room (text ++ [newline]) ++ reads room rest :=
  readsFrom_newline room [] text rest

theorem ne_nil_of_mem_readsFrom (room : Nat) (read input : List UInt8) :
    ∀ line ∈ readsFrom room read input, line ≠ [] := by
  induction input generalizing read with
  | nil =>
      intro line hline
      rw [readsFrom] at hline
      split at hline
      · simp at hline
      · rename_i hne
        rwa [List.mem_singleton.mp hline]
  | cons c input ih =>
      intro line hline
      rw [readsFrom] at hline
      split at hline
      · rcases List.mem_cons.mp hline with rfl | hline
        · simp
        · exact ih [] line hline
      · exact ih _ line hline

theorem readsFrom_length_le {room : Nat} {read input : List UInt8}
    (hread : read.length < room) :
    ∀ line ∈ readsFrom room read input, line.length ≤ room := by
  induction input generalizing read with
  | nil =>
      intro line hline
      rw [readsFrom] at hline
      split at hline
      · simp at hline
      · rw [List.mem_singleton.mp hline]
        exact hread.le
  | cons c input ih =>
      intro line hline
      rw [readsFrom] at hline
      split at hline
      · rcases List.mem_cons.mp hline with rfl | hline
        · rw [List.length_append]
          exact hread
        · exact @ih [] (Nat.zero_lt_of_lt hread) line hline
      · rename_i hmore
        refine @ih (read ++ [c]) ?_ line hline
        rw [not_or] at hmore
        rw [List.length_append, List.length_singleton]
        omega

theorem reads_length_le {room : Nat} (hroom : 0 < room) {input line : List UInt8}
    (hline : line ∈ reads room input) : line.length ≤ room :=
  @readsFrom_length_le room [] input hroom line hline

/-! ## Words -/

def beforeNul (bytes : List UInt8) : List UInt8 := bytes.takeWhile (· != 0)

/-- One call of `strtok` with the delimiter `" "` on what is left of a string. -/
def strtok (text : List UInt8) : Option (List UInt8 × List UInt8) :=
  let text := text.dropWhile (· == blank)
  if text = [] then none
  else some (text.takeWhile (· != blank), (text.dropWhile (· != blank)).tail)

/-- The words of a text, when `word` is what was seen of the word under way. -/
def wordsFrom (word : List UInt8) : List UInt8 → List (List UInt8)
  | [] => if word = [] then [] else [word]
  | c :: text =>
      if c = blank then
        if word = [] then wordsFrom [] text else word :: wordsFrom [] text
      else wordsFrom (word ++ [c]) text

def words (text : List UInt8) : List (List UInt8) := wordsFrom [] text

theorem wordsFrom_takeWhile {word text : List UInt8} (hne : word ++ text ≠ [])
    (hstart : word = [] → ∀ c ∈ text.head?, c ≠ blank) :
    wordsFrom word text =
      (word ++ text.takeWhile (· != blank)) ::
        words (text.dropWhile (· != blank)).tail := by
  induction text generalizing word with
  | nil =>
      rw [List.append_nil] at hne
      simp [wordsFrom, hne, words]
  | cons c text ih =>
      by_cases hblank : c = blank
      · have hword : word ≠ [] := fun h => hstart h c rfl hblank
        simp [wordsFrom, hblank, hword, words]
      · rw [wordsFrom, if_neg hblank, ih (by simp) (by simp)]
        simp [hblank]

theorem words_eq (text : List UInt8) :
    words text = match strtok text with
      | none => []
      | some (word, rest) => word :: words rest := by
  induction text with
  | nil => rfl
  | cons c text ih =>
      by_cases hblank : c = blank
      · have hskip : strtok (c :: text) = strtok text := by simp [strtok, hblank]
        rw [hskip, ← ih]
        simp [words, wordsFrom, hblank]
      · have hfirst := @wordsFrom_takeWhile [] (c :: text) (by simp)
          (by simpa using hblank)
        have htok : strtok (c :: text) = some ((c :: text).takeWhile (· != blank),
            ((c :: text).dropWhile (· != blank)).tail) := by
          simp [strtok, hblank]
        rw [htok]
        exact hfirst

theorem wordsFrom_length (word text : List UInt8) :
    2 * (wordsFrom word text).length ≤ text.length + if word = [] then 1 else 2 := by
  induction text generalizing word with
  | nil => by_cases hword : word = [] <;> simp [wordsFrom, hword]
  | cons c text ih =>
      have hnone := ih []
      have hmore := ih (word ++ [c])
      rw [if_pos rfl] at hnone
      rw [if_neg (by simp)] at hmore
      rw [wordsFrom, List.length_cons]
      split
      · split
        · omega
        · rw [List.length_cons]
          omega
      · split <;> omega

theorem words_length (text : List UInt8) : 2 * (words text).length ≤ text.length + 1 := by
  have hlength := wordsFrom_length [] text
  rwa [if_pos rfl] at hlength

/-! ## Numbers -/

def isSpace (c : UInt8) : Bool := c == blank || (9 ≤ c && c ≤ 13)

def isDigit (c : UInt8) : Bool := 48 ≤ c && c ≤ 57

def digitsValue (text : List UInt8) : Nat :=
  (text.takeWhile isDigit).foldl (fun n c => 10 * n + (c.toNat - 48)) 0

/-- `atoi`.  C gives no value to a number that does not fit in an `int`; here it is
the number itself. -/
def atoi (text : List UInt8) : Int :=
  match text.dropWhile isSpace with
  | [] => 0
  | c :: rest =>
      if c = 45 then -(digitsValue rest : Int)
      else if c = 43 then digitsValue rest
      else digitsValue (c :: rest)

end SysprogTeam3.Foundation
