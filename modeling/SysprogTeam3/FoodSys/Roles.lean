import SysprogTeam3.FoodSys.OpenServer

/-!
# The roles of a connection

A client that ordered should stay a customer and a client that registered should
stay a cook, and `menu_items` should hold the marks of its owner's role.  This
file says which packets keep that, and proves that a run keeps the roles exactly
when it handles no other.
-/

namespace SysprogTeam3.FoodSys.OpenServer

open SysprogTeam3.Foundation

/-- How the state of the client at `b` may change when a packet of `a` is handled. -/
inductive RoleMove (a b : Addr) (pkt : Pkt) (writes : List Write) :
    UserState → UserState → Prop
  | stay (u : UserState) : RoleMove a b pkt writes u u
  | orders : RoleMove a b pkt writes .unknown .customer
  | registers : RoleMove a b pkt writes .unknown .cookFree
  | given (o : CookOrderPkt) (hsent : (b, .cookOrder o) ∈ writes) :
      RoleMove a b pkt writes .cookFree .cookBusy
  | updates (m : CookUpdatePkt) (hpkt : pkt = .cookUpdate m) (hown : a = b) :
      RoleMove a b pkt writes .cookBusy .cookFree

def MovesRoles (s : OpenServer) : Arrival → Prop
  | .packet a pkt => ∀ result, handlerFuncDispatch s.server a pkt = some result →
      ∀ b, s.Connected b →
        RoleMove a b pkt result.2 (s.record b).state (result.1.heap b).state
  | _ => True

def RoleMenu (c : Client) : Prop :=
  (c.state = .customer → ∀ i, c.menuItems i ≠ .capable) ∧
    (c.state = .cookFree ∨ c.state = .cookBusy →
      ∀ i, c.menuItems i ≠ .new ∧ c.menuItems i ≠ .completed)

def RoleMenus (s : OpenServer) : Prop := ∀ a, s.Connected a → RoleMenu (s.record a)

/--
The packets that keep the roles.  `reg_cook_handler` does not look at the state,
and `cook_update_handler` not at whose record `assigned_client` points to.
-/
def KeepsRoles (s : OpenServer) : Arrival → Prop
  | .packet a (.regCook p) =>
      ((s.record a).state = .unknown ∨ (s.record a).state = .cookFree) ∧
        ∀ i, (s.record a).menuItems i = .completed → p.declares i = true
  | .packet a (.cookUpdate _) =>
      ∀ cust, (s.record a).assignedClient = some cust → s.Connected cust →
        (∃ i, (s.record a).menuItems i = .assigned) →
          (s.record cust).state = .unknown ∨ (s.record cust).state = .customer
  | _ => True

instance (s : OpenServer) (e : Arrival) : Decidable (s.KeepsRoles e) :=
  match e with
  | .packet a (.regCook p) => inferInstanceAs (Decidable
      (((s.record a).state = .unknown ∨ (s.record a).state = .cookFree) ∧
        ∀ i, (s.record a).menuItems i = .completed → p.declares i = true))
  | .packet a (.cookUpdate _) => inferInstanceAs (Decidable
      (∀ cust ∈ (s.record a).assignedClient, s.Connected cust →
        (∃ i, (s.record a).menuItems i = .assigned) →
          (s.record cust).state = .unknown ∨ (s.record cust).state = .customer))
  | .accept _ | .disconnect _ | .packet _ .regCustomer | .packet _ (.custOrder _)
  | .packet _ (.other _) => isTrue trivial

/-- Before it registers or orders, a client has nothing to cook and no order. -/
def FreshMenu (c : Client) : Prop :=
  c.state = .unknown → ∀ i, c.menuItems i ≠ .capable ∧ c.menuItems i ≠ .new

structure RolesKept (s : OpenServer) : Prop where
  valid : s.Valid
  roles : s.RoleMenus
  fresh : ∀ a, s.Connected a → FreshMenu (s.record a)

theorem initial_rolesKept : initial.RolesKept where
  valid := initial_valid
  roles := by simp [RoleMenus, initial, Connected]
  fresh := by simp [initial, Connected]

def Keeps (c c' : Client) : Prop := RoleMenu c → FreshMenu c → RoleMenu c' ∧ FreshMenu c'

theorem Keeps.refl (c : Client) : Keeps c c := fun hrole hfresh => ⟨hrole, hfresh⟩

section Packet

variable {s : OpenServer} {a b : Addr}

theorem madeCustomer_ne_capable {h : Heap} {p : CustOrderPkt} {cooks : List Addr}
    {i : Item} (hold : (h a).menuItems i ≠ .capable) :
    (madeCustomer h a p cooks).menuItems i ≠ .capable := by
  simp only [madeCustomer, orderedClient]
  split
  · simp
  · split
    · simp
    · exact hold

theorem keeps_orderResult (hs : s.Valid) {p : CustOrderPkt}
    (hstate : (s.record a).state = .unknown ∨ (s.record a).state = .customer) :
    Keeps (s.record b) ((s.orderResult a p).1.heap b) := by
  intro hrole hfresh
  by_cases hba : b = a
  · subst hba
    have hold : ∀ i, (s.record b).menuItems i ≠ .capable := by
      rcases hstate with hstate | hstate
      · exact fun i => (hfresh hstate i).1
      · exact hrole.1 hstate
    have hcustomer : ((s.orderResult b p).1.heap b).state = .customer := by
      rw [orderResult_self]
      rfl
    refine ⟨⟨fun _ i => ?_, by simp [hcustomer]⟩, by simp [FreshMenu, hcustomer]⟩
    rw [orderResult_self]
    exact madeCustomer_ne_capable (hold i)
  · rcases orderResult_of_ne hs hba p with hsame | ⟨-, hfree, hlooked | ⟨o, -, hserved⟩⟩
    · rw [hsame]
      exact ⟨hrole, hfresh⟩
    · rw [hlooked]
      exact ⟨hrole, hfresh⟩
    · have hold := hrole.2 (.inl hfree)
      rw [hserved]
      refine ⟨⟨by simp [servedCook], fun _ i => ?_⟩, by simp [FreshMenu, servedCook]⟩
      by_cases hgives : o.gives i = true
      · simp [servedCook, hgives]
      · simpa [servedCook, hgives] using hold i

theorem moves_orderResult (hs : s.Valid) {p : CustOrderPkt}
    (hstate : (s.record a).state = .unknown ∨ (s.record a).state = .customer) :
    RoleMove a b (.custOrder p) (s.orderResult a p).2 (s.record b).state
      ((s.orderResult a p).1.heap b).state := by
  by_cases hba : b = a
  · subst hba
    have hcustomer : ((s.orderResult b p).1.heap b).state = .customer := by
      rw [orderResult_self]
      rfl
    rw [hcustomer]
    rcases hstate with hstate | hstate <;> rw [hstate]
    · exact .orders
    · exact .stay _
  · rcases orderResult_of_ne hs hba p with hsame | ⟨-, hfree, hlooked | ⟨o, hsent, hserved⟩⟩
    · rw [hsame]
      exact .stay _
    · rw [hlooked]
      exact .stay _
    · rw [hserved, hfree]
      exact .given o hsent

theorem keeps_registered {p : RegCookPkt} (hkeeps : s.KeepsRoles (.packet a (.regCook p))) :
    Keeps (s.record b) ((regCookHandler s.server a p).heap b) := by
  by_cases hba : b = a
  · subst hba
    obtain ⟨hstate, hcompleted⟩ := hkeeps
    intro hrole hfresh
    have hnew : ∀ i, (s.record b).menuItems i ≠ .new := by
      rcases hstate with hstate | hstate
      · exact fun i => (hfresh hstate i).2
      · exact fun i => (hrole.2 (.inl hstate) i).1
    rw [registered_self]
    refine ⟨⟨by simp, fun _ i => ?_⟩, by simp [FreshMenu]⟩
    by_cases hdeclares : p.declares i = true
    · simp [hdeclares]
    · simpa [hdeclares] using ⟨hnew i, mt (hcompleted i) hdeclares⟩
  · rw [registered_of_ne hba]
    exact .refl _

theorem moves_registered {p : RegCookPkt}
    (hstate : (s.record a).state = .unknown ∨ (s.record a).state = .cookFree) :
    RoleMove a b (.regCook p) [] (s.record b).state
      ((regCookHandler s.server a p).heap b).state := by
  by_cases hba : b = a
  · subst hba
    rw [registered_self]
    rcases hstate with hstate | hstate <;> rw [hstate]
    · exact .registers
    · exact .stay _
  · rw [registered_of_ne hba]
    exact .stay _

theorem cook_of_assigned (hs : s.Valid) (ha : s.Connected a) {cust : Addr}
    (hassigned : (s.record a).assignedClient = some cust) :
    (s.record a).state = .cookFree ∨ (s.record a).state = .cookBusy := by
  refine (UserState.cook_or _).resolve_left fun hidle => ?_
  rw [(hs.record a ha).idle hidle] at hassigned
  exact absurd hassigned (by simp)

theorem keeps_updateResult
    (hcook : (s.record a).state = .cookFree ∨ (s.record a).state = .cookBusy)
    {cust : Addr} (hne : a ≠ cust)
    (hkeeps : (∃ i, (s.record a).menuItems i = .assigned) →
      (s.record cust).state = .unknown ∨ (s.record cust).state = .customer) :
    Keeps (s.record b) ((s.updateResult a cust).1.heap b) := by
  by_cases hba : b = a
  · subst hba
    rw [updateResult_self]
    exact fun hrole _ => ⟨⟨by simp, fun _ => hrole.2 hcook⟩, by simp [FreshMenu]⟩
  by_cases hbc : b = cust
  · subst hbc
    rw [updateResult_cust hne]
    by_cases hmarks : ∃ i, (s.record a).menuItems i = .assigned
    · intro hrole hfresh
      refine ⟨⟨fun hstate i => ?_, fun hstate => ?_⟩, fun hstate i => ?_⟩
      · have hold := hrole.1 hstate i
        simp only [completedCustomer, completeItems]
        split <;> simp [hold]
      · -- a cook's record gets no completed item
        change (s.record b).state = .cookFree ∨ (s.record b).state = .cookBusy at hstate
        rcases hkeeps hmarks with hcust | hcust <;> simp [hcust] at hstate
      · have hold := hfresh hstate i
        simp only [completedCustomer, completeItems]
        split <;> simp [hold]
    · have hsame : s.completedCustomer a b = s.record b := by
        rw [not_exists] at hmarks
        simp [completedCustomer, completeItems, hmarks]
      rw [hsame]
      exact .refl _
  · rw [updateResult_of_ne hba hbc]
    exact .refl _

theorem moves_updateResult (m : CookUpdatePkt)
    (hcook : (s.record a).state = .cookFree ∨ (s.record a).state = .cookBusy)
    {cust : Addr} (hne : a ≠ cust) :
    RoleMove a b (.cookUpdate m) (s.updateResult a cust).2 (s.record b).state
      ((s.updateResult a cust).1.heap b).state := by
  by_cases hba : b = a
  · subst hba
    rw [updateResult_self]
    rcases hcook with hcook | hcook <;> rw [hcook]
    · exact .stay _
    · exact .updates m rfl rfl
  by_cases hbc : b = cust
  · subst hbc
    rw [updateResult_cust hne]
    exact .stay _
  · rw [updateResult_of_ne hba hbc]
    exact .stay _

def RolesAfter (s : OpenServer) (a : Addr) (pkt : Pkt) (result : Server × List Write) :
    Prop :=
  ∀ b, s.Connected b →
    RoleMove a b pkt result.2 (s.record b).state (result.1.heap b).state ∧
      Keeps (s.record b) (result.1.heap b)

theorem rolesAfter_unchanged (s : OpenServer) (a : Addr) (pkt : Pkt) :
    s.RolesAfter a pkt (s.server, []) := fun _ _ => ⟨.stay _, .refl _⟩

theorem Handled.rolesAfter (hs : s.Valid) (ha : s.Connected a) {pkt : Pkt}
    {result : Server × List Write} (h : s.Handled a pkt result)
    (hkeeps : s.KeepsRoles (.packet a pkt)) : s.RolesAfter a pkt result := by
  cases h with
  | registered p => exact fun b _ => ⟨moves_registered hkeeps.1, keeps_registered hkeeps⟩
  | ordered p hrange hstate =>
      exact fun b _ => ⟨moves_orderResult hs hstate, keeps_orderResult hs hstate⟩
  | updated m cust hassigned hcust hne =>
      have hcook := cook_of_assigned hs ha hassigned
      exact fun b _ => ⟨moves_updateResult m hcook hne,
        keeps_updateResult hcook hne (hkeeps cust hassigned hcust)⟩
  | customer | refused | missed | other => exact rolesAfter_unchanged s a _

theorem Handled.keepsRoles (ha : s.Connected a) {pkt : Pkt}
    {result : Server × List Write} (h : s.Handled a pkt result)
    (hmove : ∀ b, s.Connected b →
      RoleMove a b pkt result.2 (s.record b).state (result.1.heap b).state)
    (hrole : ∀ b, s.Connected b → RoleMenu (result.1.heap b)) :
    s.KeepsRoles (.packet a pkt) := by
  cases h with
  | registered p =>
      have hmove := hmove a ha
      have hrole := hrole a ha
      rw [registered_self] at hmove hrole
      constructor
      · generalize (s.record a).state = u at hmove
        cases hmove with
        | stay => exact .inr rfl
        | registers => exact .inl rfl
        | updates m hpkt => cases hpkt
      · intro i hcompleted
        by_contra hdeclares
        have hnot := (hrole.2 (.inl rfl) i).2
        simp [hdeclares, hcompleted] at hnot
  | updated m cust hassigned hcust hne =>
      intro cust' hassigned' hcust' hmarks
      obtain rfl : cust = cust' := Option.some.inj (hassigned.symm.trans hassigned')
      obtain ⟨i, hi⟩ := hmarks
      refine (UserState.cook_or _).resolve_right fun hcook => ?_
      have hrole := hrole cust hcust
      rw [updateResult_cust hne] at hrole
      have hnot := (hrole.2 hcook i).2
      simp [completedCustomer, completeItems, hi] at hnot
  | missed m hmiss => exact fun cust hassigned hcust => absurd hcust (hmiss cust hassigned)
  | customer | refused | ordered | other => trivial

end Packet

/-! ## Runs -/

theorem rolesKept_step {s s' : OpenServer} (hs : s.RolesKept) {e : Arrival}
    (hkeeps : s.KeepsRoles e) (hstep : s.step e = some s') : s'.RolesKept := by
  have hvalid := valid_step hs.valid hstep
  cases transition_of_step hs.valid hstep with
  | packet hconn _ hhandled =>
      have hafter := hhandled.rolesAfter hs.valid hconn hkeeps
      have hrecord : ∀ b, s.Connected b → _ := fun b hb =>
        (hafter b hb).2 (hs.roles b hb) (hs.fresh b hb)
      exact ⟨hvalid, fun b hb => (hrecord b (hhandled.connected.mp hb)).1,
        fun b hb => (hrecord b (hhandled.connected.mp hb)).2⟩
  | @accept a hfree =>
      have hrecord : ∀ b, (s.accept a).Connected b →
          RoleMenu ((s.accept a).record b) ∧ FreshMenu ((s.accept a).record b) := by
        intro b hb
        by_cases hba : b = a
        · subst hba
          rw [record_accept_self]
          simp [RoleMenu, FreshMenu]
        · rw [record_accept_of_ne hba]
          rw [connected_accept_of_ne hba] at hb
          exact ⟨hs.roles b hb, hs.fresh b hb⟩
      exact ⟨hvalid, fun b hb => (hrecord b hb).1, fun b hb => (hrecord b hb).2⟩
  | disconnect hconn =>
      exact ⟨hvalid, fun b hb => hs.roles b (List.mem_of_mem_erase hb),
        fun b hb => hs.fresh b (List.mem_of_mem_erase hb)⟩

theorem moves_and_menus_iff {s s' : OpenServer} (hs : s.RolesKept) {e : Arrival}
    (hstep : s.step e = some s') :
    s.MovesRoles e ∧ s'.RoleMenus ↔ s.KeepsRoles e := by
  have hafter : s.KeepsRoles e → s.step e = some s' → s'.RolesKept := rolesKept_step hs
  cases transition_of_step hs.valid hstep with
  | accept | disconnect =>
      exact ⟨fun _ => trivial, fun hkeeps => ⟨trivial, (hafter hkeeps hstep).roles⟩⟩
  | packet hconn hresult hhandled =>
      constructor
      · rintro ⟨hmove, hroles⟩
        exact hhandled.keepsRoles hconn (hmove _ hresult)
          fun b hb => hroles b (hhandled.connected.mpr hb)
      · refine fun hkeeps => ⟨fun result' hresult' b hb => ?_, (hafter hkeeps hstep).roles⟩
        obtain rfl := Option.some.inj (hresult.symm.trans hresult')
        exact (hhandled.rolesAfter hs.valid hconn hkeeps b hb).1

/--
A run moves every state along the state machine, and has marks of the role
alone in every record, exactly when each of its packets keeps the roles.
-/
theorem roles_kept_iff {events : List Arrival} {s : OpenServer}
    (hrun : run step initial events = some s) :
    AllStates step RoleMenus initial events ∧ AllSteps step MovesRoles initial events ↔
      AllSteps step KeepsRoles initial events :=
  allStates_and_allSteps_iff (fun _ hs => hs.roles)
    (fun _ _ _ hs hkeeps hstep => rolesKept_step hs hkeeps hstep)
    (fun _ _ _ hs hstep => moves_and_menus_iff hs hstep) initial_rolesKept hrun

def steadyRun : List Arrival :=
  [.accept 1, .accept 2, .packet 1 (.regCook (.ofItems [1])),
    .packet 2 (.custOrder (.ofCodes [1, 2])), .packet 1 (.cookUpdate ⟨[]⟩),
    .packet 1 (.regCook (.ofItems [2]))]

theorem steadyRun_isSome : (run step initial steadyRun).isSome := by
  decide +kernel

theorem roles_kept_iff_steadyRun :
    AllStates step RoleMenus initial steadyRun ∧
      AllSteps step MovesRoles initial steadyRun :=
  (roles_kept_iff (Option.some_get steadyRun_isSome).symm).mpr (by decide +kernel)

def orderedRun : List Arrival := [.accept 1, .packet 1 (.custOrder (.ofCodes [1]))]

theorem orderedRun_isSome : (run step initial orderedRun).isSome := by
  decide +kernel

def orderedState : OpenServer := (run step initial orderedRun).get orderedRun_isSome

/-- A customer orders item 1 and then registers as a cook of item 2. -/
def turncoatRun : List Arrival := orderedRun ++ [.packet 1 (.regCook (.ofItems [2]))]

theorem turncoatRun_isSome : (run step initial turncoatRun).isSome := by
  decide +kernel

def turncoatState : OpenServer := (run step initial turncoatRun).get turncoatRun_isSome

theorem turncoatRun_turns :
    run step initial turncoatRun = some turncoatState ∧
      ¬ AllSteps step MovesRoles initial turncoatRun ∧ ¬ turncoatState.RoleMenus := by
  refine ⟨(Option.some_get turncoatRun_isSome).symm, fun hmoves => ?_, fun hroles => ?_⟩
  · have hrun : run step initial orderedRun = some orderedState :=
      (Option.some_get orderedRun_isSome).symm
    have hmove := hmoves.after orderedRun hrun _ rfl 1 (by decide +kernel)
    have hcustomer : (orderedState.record 1).state = .customer := by decide +kernel
    rw [registered_self, hcustomer] at hmove
    cases hmove
  · have hcook := (hroles 1 (by decide +kernel)).2 (.inl (by decide +kernel)) 1
    exact hcook.1 (by decide +kernel)

end SysprogTeam3.FoodSys.OpenServer
