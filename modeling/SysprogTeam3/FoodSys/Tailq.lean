import Mathlib.Data.List.Induction
import SysprogTeam3.Foundation.LinkedList
import SysprogTeam3.FoodSys.Records

/-!
# The tail queue

The macros of `queue.h` that the server uses, on the links themselves.  A tail queue
has a pointer to its first element and, in each element, a pointer to the next one
and the address of the pointer that points to it.
-/

namespace SysprogTeam3.FoodSys

open SysprogTeam3.Foundation

/-- Where a pointer to an element is stored: `&head->tqh_first`, or
`&elm->entries.tqe_next`. -/
inductive LinkAddr where
  | first
  | next (elm : Addr)
  deriving DecidableEq

structure Entry where
  tqeNext : Option Addr
  tqePrev : Option LinkAddr

/-- `TAILQ_HEAD`, and the `entries` of the records in memory. -/
structure Tailq where
  tqhFirst : Option Addr
  tqhLast : Option LinkAddr
  entries : Addr → Entry

namespace Tailq

def nextOf (q : Tailq) (a : Addr) : Option Addr := (q.entries a).tqeNext

def prevOf (q : Tailq) (a : Addr) : Option LinkAddr := (q.entries a).tqePrev

def setNext (q : Tailq) (a : Addr) (next : Option Addr) : Tailq :=
  { q with entries := Function.update q.entries a { q.entries a with tqeNext := next } }

def setPrev (q : Tailq) (a : Addr) (prev : Option LinkAddr) : Tailq :=
  { q with entries := Function.update q.entries a { q.entries a with tqePrev := prev } }

def store (q : Tailq) (link : LinkAddr) (value : Option Addr) : Tailq :=
  match link with
  | .first => { q with tqhFirst := value }
  | .next a => q.setNext a value

def init (q : Tailq) : Tailq :=
  { q with tqhFirst := none, tqhLast := some .first }

/-- `TAILQ_INSERT_TAIL`; `none` when `tqh_last` is NULL. -/
def insertTail (q : Tailq) (elm : Addr) : Option Tailq :=
  let q := (q.setNext elm none).setPrev elm q.tqhLast
  q.tqhLast.map fun last => { q.store last (some elm) with tqhLast := some (.next elm) }

/-- `TAILQ_REMOVE`; `none` when `tqe_prev` is NULL. -/
def remove (q : Tailq) (elm : Addr) : Option Tailq :=
  let q :=
    match q.nextOf elm with
    | some next => q.setPrev next (q.prevOf elm)
    | none => { q with tqhLast := q.prevOf elm }
  (q.prevOf elm).map fun prev => q.store prev (q.nextOf elm)

/-- The elements that `TAILQ_FOREACH` visits from here on; `none` when it takes more
rounds than `fuel`. -/
def foreachFrom (q : Tailq) : Nat → Option Addr → Option (List Addr)
  | 0, _ => none
  | _ + 1, none => some []
  | fuel + 1, some elm => (q.foreachFrom fuel (q.nextOf elm)).map (elm :: ·)

/-! ## What the queue holds -/

/-- Where the pointer past these elements is, when they come after `link`. -/
def endFrom (link : LinkAddr) : List Addr → LinkAddr
  | [] => link
  | a :: items => endFrom (.next a) items

def BackLinks (prev : Addr → Option LinkAddr) : LinkAddr → List Addr → Prop
  | _, [] => True
  | link, a :: items => prev a = some link ∧ BackLinks prev (.next a) items

structure Holds (q : Tailq) (items : List Addr) : Prop where
  chain : Chain q.nextOf q.tqhFirst items
  last : q.tqhLast = some (endFrom .first items)
  back : BackLinks q.prevOf .first items

theorem endFrom_append (link : LinkAddr) (first rest : List Addr) :
    endFrom link (first ++ rest) = endFrom (endFrom link first) rest := by
  induction first generalizing link with
  | nil => rfl
  | cons b first ih => exact ih (.next b)

@[simp] theorem endFrom_concat (link : LinkAddr) (first : List Addr) (a : Addr) :
    endFrom link (first ++ [a]) = .next a :=
  endFrom_append link first [a]

theorem backLinks_append {prev : Addr → Option LinkAddr} {link : LinkAddr}
    {first rest : List Addr} :
    BackLinks prev link (first ++ rest) ↔
      BackLinks prev link first ∧ BackLinks prev (endFrom link first) rest := by
  induction first generalizing link with
  | nil => simp [BackLinks, endFrom]
  | cons a first ih => simp [BackLinks, endFrom, ih, and_assoc]

theorem BackLinks.congr {prev prev' : Addr → Option LinkAddr} {link : LinkAddr}
    {items : List Addr} (hsame : ∀ a ∈ items, prev' a = prev a)
    (h : BackLinks prev link items) : BackLinks prev' link items := by
  induction items generalizing link with
  | nil => trivial
  | cons a items ih =>
      exact ⟨(hsame a List.mem_cons_self).trans h.1,
        ih (fun b hb => hsame b (List.mem_cons_of_mem a hb)) h.2⟩

/-! ## The links after a store -/

section Stores

variable (q : Tailq) (a : Addr)

@[simp] theorem nextOf_setNext (next : Option Addr) :
    (q.setNext a next).nextOf = Function.update q.nextOf a next := by
  funext b
  by_cases hb : b = a <;> simp [setNext, nextOf, hb]

@[simp] theorem prevOf_setNext (next : Option Addr) :
    (q.setNext a next).prevOf = q.prevOf := by
  funext b
  by_cases hb : b = a <;> simp [setNext, prevOf, hb]

@[simp] theorem nextOf_setPrev (prev : Option LinkAddr) :
    (q.setPrev a prev).nextOf = q.nextOf := by
  funext b
  by_cases hb : b = a <;> simp [setPrev, nextOf, hb]

@[simp] theorem prevOf_setPrev (prev : Option LinkAddr) :
    (q.setPrev a prev).prevOf = Function.update q.prevOf a prev := by
  funext b
  by_cases hb : b = a <;> simp [setPrev, prevOf, hb]

@[simp] theorem prevOf_store (link : LinkAddr) (value : Option Addr) :
    (q.store link value).prevOf = q.prevOf := by
  cases link with
  | first => rfl
  | next b => exact prevOf_setNext q b value

@[simp] theorem tqhLast_store (link : LinkAddr) (value : Option Addr) :
    (q.store link value).tqhLast = q.tqhLast := by
  cases link <;> rfl

end Stores

theorem holds_init (q : Tailq) : q.init.Holds [] := ⟨rfl, rfl, trivial⟩

theorem insertTail_spec {q : Tailq} {items : List Addr} {elm : Addr} (h : q.Holds items)
    (hnew : elm ∉ items) : ∃ q', q.insertTail elm = some q' ∧ q'.Holds (items ++ [elm]) := by
  have hlast : ((q.setNext elm none).setPrev elm q.tqhLast).tqhLast =
      some (endFrom .first items) := h.last
  refine ⟨_, by rw [insertTail, hlast, Option.map_some], ?_, ?_, ?_⟩
  · cases items using List.reverseRecOn with
    | nil =>
        refine ⟨rfl, ?_⟩
        change ((q.setNext elm none).setPrev elm q.tqhLast).nextOf elm = none
        simp
    | append_singleton first a _ =>
        have hchain := h.chain.insertAfter hnew
        have hend : q.nextOf a = none := h.chain.link
        rw [hend] at hchain
        rw [endFrom_concat, List.append_assoc]
        change Chain (((q.setNext elm none).setPrev elm q.tqhLast).setNext a (some elm)).nextOf
          q.tqhFirst (first ++ [a, elm])
        simpa using hchain
  · change some (LinkAddr.next elm) = _
    rw [endFrom_concat]
  · change BackLinks (((q.setNext elm none).setPrev elm q.tqhLast).store _ _).prevOf _ _
    rw [prevOf_store, prevOf_setPrev, prevOf_setNext]
    refine backLinks_append.mpr ⟨h.back.congr fun a ha => ?_, ?_, trivial⟩
    · exact Function.update_of_ne (ne_of_mem_of_not_mem ha hnew) _ _
    · rw [Function.update_self, h.last]

theorem remove_spec {q : Tailq} {first rest : List Addr} {elm : Addr}
    (h : q.Holds (first ++ elm :: rest)) :
    ∃ q', q.remove elm = some q' ∧ q'.Holds (first ++ rest) := by
  have hnodup := h.chain.nodup
  obtain ⟨hbackFirst, hbackElm, hbackRest⟩ := backLinks_append.mp h.back
  have hnext : q.nextOf elm = rest.head? := h.chain.link
  -- the element behind the removed one, or the head, gets its `tqe_prev`
  obtain ⟨q₁, hq₁, hfirst₁, hnext₁, hprev₁, hlast₁, hback₁⟩ : ∃ q₁ : Tailq,
      (match q.nextOf elm with
        | some next => q.setPrev next (q.prevOf elm)
        | none => { q with tqhLast := q.prevOf elm }) = q₁ ∧
      q₁.tqhFirst = q.tqhFirst ∧ q₁.nextOf = q.nextOf ∧ q₁.prevOf elm = q.prevOf elm ∧
      q₁.tqhLast = some (endFrom .first (first ++ rest)) ∧
      BackLinks q₁.prevOf .first (first ++ rest) := by
    cases rest with
    | nil =>
        rw [hnext, List.append_nil]
        exact ⟨_, rfl, rfl, rfl, rfl, hbackElm, hbackFirst⟩
    | cons b rest =>
        rw [List.nodup_append, List.nodup_cons, List.nodup_cons] at hnodup
        obtain ⟨-, ⟨helm, hb, -⟩, hdisjoint⟩ := hnodup
        have hbfirst : b ∉ first := fun hmem =>
          hdisjoint b hmem b (List.mem_cons_of_mem elm List.mem_cons_self) rfl
        have hbelm : elm ≠ b := fun heq => helm (heq ▸ List.mem_cons_self)
        rw [hnext]
        refine ⟨q.setPrev b (q.prevOf elm), rfl, rfl, nextOf_setPrev q b _, ?_, ?_, ?_⟩
        · rw [prevOf_setPrev, Function.update_of_ne hbelm]
        · change q.tqhLast = _
          rw [h.last, endFrom_append, endFrom_append]
          rfl
        · rw [prevOf_setPrev]
          refine backLinks_append.mpr ⟨hbackFirst.congr fun a ha => ?_, ?_, ?_⟩
          · exact Function.update_of_ne (ne_of_mem_of_not_mem ha hbfirst) _ _
          · rw [Function.update_self, hbackElm]
          · refine hbackRest.2.congr fun a ha => ?_
            exact Function.update_of_ne (ne_of_mem_of_not_mem ha hb) _ _
  refine ⟨q₁.store (endFrom .first first) rest.head?, ?_, ?_, ?_, ?_⟩
  · rw [remove, hq₁, hprev₁, hbackElm, hnext₁, hnext, Option.map_some]
  · cases first using List.reverseRecOn with
    | nil =>
        change Chain q₁.nextOf rest.head? rest
        rw [hnext₁, ← hnext]
        exact h.chain.2
    | append_singleton first c _ =>
        rw [endFrom_concat]
        change Chain (q₁.setNext c rest.head?).nextOf q₁.tqhFirst _
        rw [nextOf_setNext, hnext₁, hfirst₁, ← hnext, List.append_assoc]
        have hchain := h.chain
        rw [List.append_assoc] at hchain
        exact hchain.unlink
  · rw [tqhLast_store, hlast₁]
  · rw [prevOf_store]
    exact hback₁

theorem foreachFrom_spec {q : Tailq} {link : Option Addr} {items : List Addr} {fuel : Nat}
    (h : Chain q.nextOf link items) (hfuel : items.length < fuel) :
    q.foreachFrom fuel link = some items := by
  induction items generalizing link fuel with
  | nil =>
      obtain ⟨fuel, rfl⟩ := Nat.exists_eq_succ_of_ne_zero (Nat.ne_zero_of_lt hfuel)
      rw [show link = none from h, foreachFrom]
  | cons a items ih =>
      obtain ⟨fuel, rfl⟩ := Nat.exists_eq_succ_of_ne_zero (Nat.ne_zero_of_lt hfuel)
      rw [h.1, foreachFrom, ih h.2 (by simpa using hfuel), Option.map_some]

end Tailq

end SysprogTeam3.FoodSys
