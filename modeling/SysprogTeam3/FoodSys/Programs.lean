import SysprogTeam3.Foundation.Composition
import SysprogTeam3.Foundation.Threads
import SysprogTeam3.FoodSys.Atomicity
import SysprogTeam3.FoodSys.ByteSystem
import SysprogTeam3.FoodSys.Exclusive

/-!
# The shipped programs and the workers

`client` and `cook-client` run against workers whose handlers take several steps.  A
program has at most one packet on its way, wherever that is: not yet read, waiting for a
worker, or in an update that has found its customer.  So the workers do what a server
does whose handlers are one step each.
-/

namespace SysprogTeam3.FoodSys

open SysprogTeam3.Foundation
open scoped List

/-- The programs at the other ends of the open connections, and what is in flight. -/
structure Programs where
  program : Addr → Option Peer
  /-- Sent, and not read by `buffered_on_read`. -/
  toServer : Addr → List Pkt
  toClient : Addr → List ServerPkt
  /-- All that the server wrote on the connection so far. -/
  sent : Addr → List ServerPkt

inductive ProgramEvent where
  | sendOrder (a : Addr) (p : CustOrderPkt)
  | sendReg (a : Addr) (p : RegCookPkt)
  /-- The program reads the oldest packet; a cook answers an order with what it types. -/
  | read (a : Addr) (message : Text)
  deriving DecidableEq

namespace Programs

def initial : Programs :=
  { program := fun _ => none
    toServer := fun _ => []
    toClient := fun _ => []
    sent := fun _ => [] }

/-- What a step of the server does to the connections.  `buffered_on_read` gets the
packets in the order in which they were sent. -/
def react (k : Programs) : ServerAction → Option Programs
  | .accepted a =>
      some
        { program := Function.update k.program a (some .silent)
          toServer := Function.update k.toServer a []
          toClient := Function.update k.toClient a []
          sent := Function.update k.sent a [] }
  | .closed a =>
      some { k with
        program := Function.update k.program a none
        toServer := Function.update k.toServer a []
        toClient := Function.update k.toClient a [] }
  | .read a pkt =>
      if (k.toServer a).head? = some pkt then
        some { k with toServer := Function.update k.toServer a (k.toServer a).tail }
      else none
  | .wrote writes =>
      some { k with
        toClient := fun b => k.toClient b ++ writesTo writes b
        sent := fun b => k.sent b ++ writesTo writes b }

def introduce (k : Programs) (a : Addr) (peer : Peer) (pkt : Pkt) : Programs :=
  { k with
    program := Function.update k.program a (some peer)
    toServer := Function.update k.toServer a (k.toServer a ++ [pkt]) }

def reply (message : Text) : Peer → ServerPkt → List Pkt
  | .cook _, .cookOrder _ => [.cookUpdate ⟨message⟩]
  | _, _ => []

def step (k : Programs) : ProgramEvent → Option Programs
  | .sendOrder a p =>
      if k.program a = some .silent ∧ p.inRange then
        some (k.introduce a (.customer p) (.custOrder p))
      else none
  | .sendReg a p =>
      if k.program a = some .silent then some (k.introduce a (.cook p) (.regCook p))
      else none
  | .read a message =>
      match k.program a, k.toClient a with
      | some peer, p :: rest =>
          some { k with
            toClient := Function.update k.toClient a rest
            toServer := Function.update k.toServer a
              (k.toServer a ++ reply message peer p) }
      | _, _ => none

end Programs

def PoolEvent.StandsFor : PoolEvent → Event → Prop
  | .accept, .accept _ | .error _, .disconnect _ => True
  | .start _, .handle _ | .finish _, .handle _ => True
  | _, _ => False

def ProgramEvent.packet : ProgramEvent → Event
  | .sendOrder a p => .sendOrder a p
  | .sendReg a p => .sendReg a p
  | .read a message => .read a message

abbrev WorkerPool.withPrograms : WorkerPool × Programs → PoolEvent ⊕ ProgramEvent →
    Option (WorkerPool × Programs) :=
  composed WorkerPool.step WorkerPool.actions Programs.react Programs.step

def jobsOf (jobs : List (Addr × Pkt)) (a : Addr) : List Pkt :=
  jobs.filterMap fun job => if job.1 = a then some job.2 else none

/-- The packets of a connection: in updates that have found their customer, waiting for
a worker, and not read. -/
def InTransit (w : WorkerPool) (k : Programs) (a : Addr) (pkts : List Pkt) : Prop :=
  ∃ updates : List CookUpdatePkt, updates.length = w.running.count a ∧
    pkts ~ updates.map .cookUpdate ++ (jobsOf w.jobs a ++ k.toServer a)

/-- The system in which handlers are one step that the workers and the programs are
a run of. -/
structure Serves (w : WorkerPool) (k : Programs) (s : System) : Prop where
  inUse : w.InUse
  wellFormed : s.WellFormed
  server : s.server = w.server
  program : ∀ a, k.program a = if w.Connected a then some (s.peer a) else none
  toServer : ∀ a, w.Connected a → InTransit w k a ((s.toServer a).map Request.pkt)
  toClient : ∀ a, (s.toClient a).map Delivery.pkt = k.toClient a
  sent : s.sent = k.sent
  handedOut : ∀ a ∈ s.handedOut, a < w.nextRecord

/-! ## One packet for each connection -/

section Transit

variable {w w' : WorkerPool} {k k' : Programs} {a b : Addr} {pkts : List Pkt} {pkt : Pkt}

theorem InTransit.congr (h : InTransit w k a pkts)
    (hrunning : w'.running.count a = w.running.count a)
    (hjobs : jobsOf w'.jobs a ++ k'.toServer a ~ jobsOf w.jobs a ++ k.toServer a) :
    InTransit w' k' a pkts := by
  obtain ⟨updates, hlength, hperm⟩ := h
  exact ⟨updates, hlength.trans hrunning.symm, hperm.trans (hjobs.symm.append_left _)⟩

theorem inTransit_nil (hrunning : w.running.count a = 0) (hjobs : jobsOf w.jobs a = [])
    (hunread : k.toServer a = []) : InTransit w k a [] :=
  ⟨[], hrunning.symm, by rw [hjobs, hunread]; exact .nil⟩

theorem InTransit.length (h : InTransit w k a pkts) :
    w.running.count a + (jobsOf w.jobs a).length + (k.toServer a).length = pkts.length := by
  obtain ⟨updates, hlength, hperm⟩ := h
  have htotal := hperm.length_eq
  simp only [List.length_append, List.length_map] at htotal
  omega

theorem jobsOf_eraseIdx {jobs : List (Addr × Pkt)} {job : Nat}
    (hjob : jobs[job]? = some (a, pkt)) :
    jobsOf jobs b ~ (if a = b then [pkt] else []) ++ jobsOf (jobs.eraseIdx job) b := by
  have hperm := (perm_cons_eraseIdx hjob).filterMap fun job =>
    if job.1 = b then some job.2 else none
  refine hperm.trans ?_
  by_cases hab : a = b
  · simp [hab, jobsOf]
  · simp [hab, jobsOf]

theorem jobsOf_eraseIdx_of_ne {jobs : List (Addr × Pkt)} {job : Nat}
    (hjob : jobs[job]? = some (a, pkt)) (hab : a ≠ b) :
    jobsOf (jobs.eraseIdx job) b ~ jobsOf jobs b := by
  have hperm := jobsOf_eraseIdx (b := b) hjob
  rw [if_neg hab] at hperm
  exact hperm.symm

theorem InTransit.of_job (h : InTransit w k a pkts) (hone : pkts.length ≤ 1) {job : Nat}
    (hjob : w.jobs[job]? = some (a, pkt)) :
    pkts = [pkt] ∧ w.running.count a = 0 ∧ jobsOf (w.jobs.eraseIdx job) a = [] ∧
      k.toServer a = [] := by
  have htotal := h.length
  have hsplit := jobsOf_eraseIdx (b := a) hjob
  rw [if_pos rfl] at hsplit
  have hjobs := hsplit.length_eq
  rw [List.length_append, List.length_singleton] at hjobs
  have hrunning : w.running.count a = 0 := by omega
  have hrest : jobsOf (w.jobs.eraseIdx job) a = [] := List.length_eq_zero_iff.mp (by omega)
  have hunread : k.toServer a = [] := List.length_eq_zero_iff.mp (by omega)
  obtain ⟨updates, hlength, hperm⟩ := h
  rw [hrunning, List.length_eq_zero_iff] at hlength
  rw [hrest] at hsplit
  rw [hlength, hunread, List.append_nil] at hperm
  exact ⟨List.perm_singleton.mp (hperm.trans hsplit), hrunning, hrest, hunread⟩

theorem InTransit.of_running (h : InTransit w k a pkts) (hone : pkts.length ≤ 1)
    {handler : Nat} (hsender : w.running[handler]? = some a) :
    (∃ m, pkts = [.cookUpdate m]) ∧ (w.running.eraseIdx handler).count a = 0 ∧
      jobsOf w.jobs a = [] ∧ k.toServer a = [] := by
  have htotal := h.length
  have hcount := (perm_cons_eraseIdx hsender).count_eq a
  rw [List.count_cons_self] at hcount
  have hjobs : jobsOf w.jobs a = [] := List.length_eq_zero_iff.mp (by omega)
  have hunread : k.toServer a = [] := List.length_eq_zero_iff.mp (by omega)
  have hrest : (w.running.eraseIdx handler).count a = 0 := by omega
  obtain ⟨updates, hlength, hperm⟩ := h
  rw [hcount, hrest] at hlength
  obtain ⟨m, rfl⟩ := List.length_eq_one_iff.mp hlength
  rw [hjobs, hunread] at hperm
  exact ⟨⟨m, List.perm_singleton.mp hperm⟩, hrest, hjobs, hunread⟩

end Transit

namespace Serves

variable {w w' : WorkerPool} {k k' : Programs} {s : System} {a : Addr}

theorem connected_iff (h : Serves w k s) (a : Addr) : s.Connected a ↔ w.Connected a := by
  rw [System.Connected, h.server]

theorem one_request (h : Serves w k s) (hconn : w.Connected a) :
    ((s.toServer a).map Request.pkt).length ≤ 1 := by
  have hphase := h.wellFormed.phase a ((h.connected_iff a).mpr hconn)
  have hlength := hphase.inFlight_le
  rw [List.length_map]
  omega

theorem connected_of_program (h : Serves w k s) {peer : Peer}
    (hprogram : k.program a = some peer) : w.Connected a ∧ s.peer a = peer := by
  rw [h.program a] at hprogram
  split at hprogram
  · next hconn => exact ⟨hconn, Option.some.inj hprogram⟩
  · cases hprogram

/-- The system takes these steps and writes the same; no record is handed out twice. -/
abbrev Matched (w' : WorkerPool) (k' : Programs) (s : System) (writes : List Write)
    (packets : List Event) : Prop :=
  ∃ s', run System.step s packets = some s' ∧
    AllSteps System.step System.FreshAccept s packets ∧
    observed System.step System.writes s packets = writes ∧ Serves w' k' s'

theorem matched_nil (h : Serves w' k' s) : Matched w' k' s [] [] :=
  ⟨s, rfl, trivial, rfl, h⟩

theorem matched_singleton {e : Event} {s' : System} {writes : List Write}
    (hstep : s.step e = some s') (hfresh : s.FreshAccept e) (hwrites : s.writes e = writes)
    (h : Serves w' k' s') : Matched w' k' s writes [e] :=
  ⟨s', run_cons_eq_some.mpr ⟨s', hstep, rfl⟩, ⟨hfresh, fun _ _ => trivial⟩,
    (observed_singleton s e).trans hwrites, h⟩

theorem handle (h : Serves w k s) (hconn : w.Connected a) {r : Request}
    (hrequest : s.toServer a = [r]) {result : Server × List Write}
    (hresult : handlerFuncDispatch w.server a r.pkt = some result) (hinUse : w'.InUse)
    (hserver : w'.server = result.1) (hnext : w'.nextRecord = w.nextRecord)
    (hrunning : w'.running.count a = 0) (hjobs : jobsOf w'.jobs a = [])
    (hunread : k.toServer a = [])
    (hothers : ∀ b, b ≠ a → w'.running.count b = w.running.count b ∧
      jobsOf w'.jobs b ~ jobsOf w.jobs b)
    (hreact : run Programs.react k [.wrote result.2] = some k') :
    Matched w' k' s result.2 [.handle a] := by
  have hsconn := (h.connected_iff a).mpr hconn
  have hhandled : s.handled a = some result := by
    rw [System.handled, hrequest, h.server]
    exact hresult
  have hstep : s.step (.handle a) = some (s.afterHandler a result) := by
    rw [System.step, if_pos hsconn, hhandled, Option.map_some]
  have hqueue : w'.server.clientTailq = w.server.clientTailq := by
    rw [hserver]
    exact dispatch_clientTailq hresult
  have hsame : ∀ b, w'.Connected b ↔ w.Connected b := fun b => by
    rw [WorkerPool.Connected, hqueue]
  have hwrites : s.writes (.handle a) = result.2 := by simp [System.writes, hhandled]
  obtain rfl : k' = _ := (Option.some.inj hreact).symm
  refine matched_singleton hstep trivial hwrites ⟨hinUse,
    System.wellFormed_step h.wellFormed hstep, hserver.symm, fun b => ?_, fun b hb => ?_,
    fun b => ?_, ?_, fun b hb => ?_⟩
  · rw [h.program b]
    exact if_congr (hsame b).symm rfl rfl
  · by_cases hba : b = a
    · subst hba
      simp only [System.afterHandler, Function.update_self, hrequest]
      exact inTransit_nil hrunning hjobs hunread
    · simp only [System.afterHandler, Function.update_of_ne hba]
      exact (h.toServer b ((hsame b).mp hb)).congr (hothers b hba).1
        ((hothers b hba).2.append_right _)
  · simp only [System.afterHandler, List.map_append, List.map_map, h.toClient b]
    congr 1
    exact List.map_id'' (fun p => System.delivery_pkt s a p) _
  · funext b
    simp only [System.afterHandler, h.sent]
  · rw [hnext]
    exact h.handedOut b hb

theorem accept (h : Serves w k s) (hspares : w.SparesUsed .accept)
    (hreact : run Programs.react k [.accepted w.nextRecord] = some k') :
    Matched { w with
      server := onAccept w.server w.nextRecord
      nextRecord := w.nextRecord + 1 } k' s [] [.accept w.nextRecord] := by
  obtain rfl : k' = _ := (Option.some.inj hreact).symm
  have hnew : ¬ w.Connected w.nextRecord := fun hconn =>
    Nat.lt_irrefl _ (h.inUse.fresh _ hconn)
  have hstep : s.step (.accept w.nextRecord) = some (s.accept w.nextRecord) :=
    if_neg (mt (h.connected_iff _).mp hnew)
  have hfresh : w.nextRecord ∉ s.handedOut := fun hmem =>
    Nat.lt_irrefl _ (h.handedOut _ hmem)
  -- no job and no update is left of an earlier client
  have hjobs : jobsOf w.jobs w.nextRecord = [] := by
    refine List.filterMap_eq_nil_iff.mpr fun job hjob => if_neg fun heq => ?_
    exact Nat.lt_irrefl _ (heq ▸ h.inUse.senders job hjob)
  have hrunning : w.running.count w.nextRecord = 0 :=
    List.count_eq_zero.mpr fun hmem => hnew (h.inUse.running _ hmem).1
  refine matched_singleton hstep hfresh rfl ⟨WorkerPool.inUse_accept h.inUse hspares,
    System.wellFormed_step h.wellFormed hstep, ?_, fun b => ?_, fun b hb => ?_, fun b => ?_, ?_,
    fun b hb => ?_⟩
  · rw [System.accept, h.server]
  · by_cases hb : b = w.nextRecord
    · subst hb
      simp [System.accept, onAccept, WorkerPool.Connected]
    · simpa [System.accept, onAccept, WorkerPool.Connected, hb] using h.program b
  · by_cases hbn : b = w.nextRecord
    · subst hbn
      simp only [System.accept, Function.update_self, List.map_nil]
      exact inTransit_nil hrunning hjobs (Function.update_self ..)
    · have hold : w.Connected b := by simpa [WorkerPool.Connected, onAccept, hbn] using hb
      simp only [System.accept, Function.update_of_ne hbn]
      refine (h.toServer b hold).congr rfl ?_
      simp only [Function.update_of_ne hbn]
      exact .rfl
  · by_cases hb : b = w.nextRecord
    · simp [System.accept, hb]
    · simpa [System.accept, hb] using h.toClient b
  · simp only [System.accept, h.sent]
  · rcases List.mem_cons.mp hb with rfl | hold
    · exact Nat.lt_succ_self _
    · exact Nat.lt_succ_of_lt (h.handedOut b hold)

theorem close (h : Serves w k s) (hconn : w.Connected a) (hspares : w.SparesUsed (.error a))
    (hreact : run Programs.react k [.closed a] = some k') :
    Matched { w with server := bufferedOnError w.server a } k' s [] [.disconnect a] := by
  obtain rfl : k' = _ := (Option.some.inj hreact).symm
  have hstep : s.step (.disconnect a) = some (s.disconnect a) :=
    if_pos ((h.connected_iff a).mpr hconn)
  have hleft : ∀ b, b ∈ (bufferedOnError w.server a).clientTailq ↔ b ≠ a ∧ w.Connected b :=
    fun b => h.inUse.nodup.mem_erase_iff
  refine matched_singleton hstep trivial rfl ⟨WorkerPool.inUse_error h.inUse hspares,
    System.wellFormed_step h.wellFormed hstep, ?_, fun b => ?_, fun b hb => ?_, fun b => ?_,
    h.sent, h.handedOut⟩
  · rw [System.disconnect, h.server]
  · by_cases hb : b = a
    · simp [WorkerPool.Connected, hleft, hb]
    · simpa [WorkerPool.Connected, hleft, hb, System.disconnect] using h.program b
  · obtain ⟨hba, hold⟩ := (hleft b).mp hb
    simp only [System.disconnect, Function.update_of_ne hba]
    refine (h.toServer b hold).congr rfl ?_
    simp only [Function.update_of_ne hba]
    exact .rfl
  · by_cases hb : b = a
    · simp [System.disconnect, hb]
    · simpa [System.disconnect, hb] using h.toClient b

theorem moved (h : Serves w k s) (hinUse : w'.InUse) (hserver : w'.server = w.server)
    (hnext : w'.nextRecord = w.nextRecord) (hprogram : k'.program = k.program)
    (htransit : ∀ b pkts, w.Connected b → pkts.length ≤ 1 → InTransit w k b pkts →
      InTransit w' k' b pkts)
    (htoClient : k'.toClient = k.toClient) (hsent : k'.sent = k.sent) : Serves w' k' s where
  inUse := hinUse
  wellFormed := h.wellFormed
  server := h.server.trans hserver.symm
  program b := by
    have hsame : w'.Connected b ↔ w.Connected b := by rw [WorkerPool.Connected, hserver]
    rw [hprogram, h.program b]
    exact if_congr hsame.symm rfl rfl
  toServer b hb := by
    have hconn : w.Connected b := by rwa [WorkerPool.Connected, hserver] at hb
    exact htransit b _ hconn (h.one_request hconn) (h.toServer b hconn)
  toClient b := by rw [htoClient, h.toClient b]
  sent := h.sent.trans hsent.symm
  handedOut b hb := hnext ▸ h.handedOut b hb

theorem start (h : Serves w k s) {job : Nat} {client : Addr} {pkt : Pkt}
    {result : Server × List Write} (hjob : w.jobs[job]? = some (client, pkt))
    (hconn : w.Connected client)
    (hresult : handlerFuncDispatch w.server client pkt = some result)
    (hinUse : WorkerPool.InUse { w with server := result.1, jobs := w.jobs.eraseIdx job })
    (hreact : run Programs.react k [.wrote result.2] = some k') :
    Matched { w with server := result.1, jobs := w.jobs.eraseIdx job } k' s result.2
      [.handle client] := by
  obtain ⟨hpkts, hrunning, hrest, hunread⟩ :=
    (h.toServer client hconn).of_job (h.one_request hconn) hjob
  obtain ⟨r, hrequest, rfl⟩ := List.map_eq_singleton_iff.mp hpkts
  exact h.handle hconn hrequest hresult hinUse rfl rfl hrunning hrest hunread
    (fun b hb => ⟨rfl, jobsOf_eraseIdx_of_ne hjob (Ne.symm hb)⟩) hreact

theorem finish (h : Serves w k s) {handler : Nat} {client : Addr}
    {result : Server × List Write} (hsender : w.running[handler]? = some client)
    (hconn : w.Connected client)
    (hresult : ∀ m, handlerFuncDispatch w.server client (.cookUpdate m) = some result)
    (hinUse : WorkerPool.InUse { w with server := result.1, running := w.running.eraseIdx handler })
    (hreact : run Programs.react k [.wrote result.2] = some k') :
    Matched { w with server := result.1, running := w.running.eraseIdx handler } k' s
      result.2 [.handle client] := by
  obtain ⟨⟨m, hpkts⟩, hrunning, hjobs, hunread⟩ :=
    (h.toServer client hconn).of_running (h.one_request hconn) hsender
  obtain ⟨r, hrequest, hpkt⟩ := List.map_eq_singleton_iff.mp hpkts
  have hothers : ∀ b, b ≠ client → (w.running.eraseIdx handler).count b = w.running.count b ∧
      jobsOf w.jobs b ~ jobsOf w.jobs b := by
    intro b hb
    have hcount := (perm_cons_eraseIdx hsender).count_eq b
    rw [List.count_cons_of_ne (Ne.symm hb)] at hcount
    exact ⟨hcount.symm, .rfl⟩
  exact h.handle hconn hrequest (hpkt ▸ hresult m) hinUse rfl rfl hrunning hjobs hunread
    hothers hreact

theorem workers (h : Serves w k s) {e : PoolEvent} (hspares : w.SparesUsed e)
    (hstep : w.step e = some w') (hreact : run Programs.react k (w.actions e) = some k') :
    ∃ packets, Matched w' k' s (w.writes e) packets ∧
      ∀ packet ∈ packets, e.StandsFor packet := by
  unfold WorkerPool.writes
  have hinUse := WorkerPool.inUse_step h.inUse hspares hstep
  have htransition := WorkerPool.transition_of_step h.inUse hstep
  generalize w.actions e = actions at htransition hreact
  cases htransition with
  | accept => exact ⟨_, h.accept hspares hreact, by simp [PoolEvent.StandsFor]⟩
  | error hconn => exact ⟨_, h.close hconn hspares hreact, by simp [PoolEvent.StandsFor]⟩
  | handled hjob hconn _ hresult =>
      have hmatched := h.start hjob hconn hresult hinUse hreact
      exact ⟨_, by simpa [ServerAction.writes] using hmatched, by simp [PoolEvent.StandsFor]⟩
  | finish hsender hconn hresult =>
      have hmatched := h.finish hsender hconn hresult hinUse hreact
      exact ⟨_, by simpa [ServerAction.writes] using hmatched, by simp [PoolEvent.StandsFor]⟩
  | @read client pkt hconn =>
      obtain ⟨k₁, hread, hk₁⟩ := run_cons_eq_some.mp hreact
      obtain rfl : k₁ = k' := Option.some.inj hk₁
      simp only [Programs.react, Option.ite_none_right_eq_some, Option.some.injEq] at hread
      obtain ⟨hhead, rfl⟩ := hread
      obtain ⟨rest, hunread⟩ := List.head?_eq_some_iff.mp hhead
      refine ⟨[], matched_nil (h.moved hinUse rfl rfl rfl (fun b pkts _ _ htransit => ?_)
        rfl rfl), by simp⟩
      refine htransit.congr rfl ?_
      by_cases hb : b = client
      · subst hb
        simp [jobsOf, hunread]
      · simp [jobsOf, hb, Ne.symm hb]
  | @found job client m hjob hconn _ =>
      obtain rfl : k' = _ := (Option.some.inj hreact).symm
      refine ⟨[], matched_nil (h.moved hinUse rfl rfl rfl (fun b pkts _ hone htransit => ?_)
        (by simp [writesTo]) (by simp [writesTo])), by simp⟩
      by_cases hb : client = b
      · subst hb
        obtain ⟨rfl, hrunning, hrest, hunread⟩ := htransit.of_job hone hjob
        exact ⟨[m], by simp [hrunning], by simp [hrest, hunread]⟩
      · refine htransit.congr ?_ ((jobsOf_eraseIdx_of_ne hjob hb).append_right _)
        simp [List.count_append, hb]
  | @left job client pkt hjob hgone =>
      obtain rfl : k' = _ := (Option.some.inj hreact).symm
      refine ⟨[], matched_nil (h.moved hinUse rfl rfl rfl (fun b pkts hb _ htransit => ?_)
        (by simp [writesTo]) (by simp [writesTo])), by simp⟩
      have hne : client ≠ b := fun heq => hgone (heq ▸ hb)
      exact htransit.congr rfl ((jobsOf_eraseIdx_of_ne hjob hne).append_right _)

theorem introduce (h : Serves w k s) (hconn : w.Connected a) {e : Event} {peer : Peer}
    {r : Request} (hstep : s.step e = some (s.introduce a peer r)) (hfresh : s.FreshAccept e) :
    Matched w (k.introduce a peer r.pkt) s (s.writes e) [e] := by
  refine matched_singleton hstep hfresh rfl ⟨h.inUse, System.wellFormed_step h.wellFormed hstep,
    h.server, fun b => ?_, fun b hb => ?_, h.toClient, h.sent, h.handedOut⟩
  · by_cases hb : b = a
    · subst hb
      simp [Programs.introduce, System.introduce, hconn]
    · simpa [Programs.introduce, System.introduce, hb] using h.program b
  · obtain ⟨updates, hlength, hperm⟩ := h.toServer b hb
    by_cases hba : b = a
    · subst hba
      refine ⟨updates, hlength, ?_⟩
      simp only [System.introduce, Programs.introduce, Function.update_self, List.map_append,
        List.map_singleton]
      rw [← List.append_assoc, ← List.append_assoc]
      rw [← List.append_assoc] at hperm
      exact hperm.append_right _
    · exact ⟨updates, hlength, by
        simpa [System.introduce, Programs.introduce, hba] using hperm⟩

theorem reply_pkt (message : Text) (peer : Peer) (d : Delivery) :
    (System.reply message peer d).map Request.pkt = Programs.reply message peer d.pkt := by
  cases peer <;> cases d <;> rfl

theorem consume (h : Serves w k s) (hconn : w.Connected a) (message : Text) {d : Delivery}
    {rest : List Delivery} (hread : s.toClient a = d :: rest) :
    Matched w
      { k with
        toClient := Function.update k.toClient a (rest.map Delivery.pkt)
        toServer := Function.update k.toServer a
          (k.toServer a ++ Programs.reply message (s.peer a) d.pkt) } s [] [.read a message] := by
  have hstep : s.step (.read a message) = some (s.consume a message d rest) := by
    rw [System.step, if_pos ((h.connected_iff a).mpr hconn), hread]
  refine matched_singleton hstep trivial rfl ⟨h.inUse, System.wellFormed_step h.wellFormed hstep,
    h.server, h.program, fun b hb => ?_, fun b => ?_, h.sent, h.handedOut⟩
  · obtain ⟨updates, hlength, hperm⟩ := h.toServer b hb
    refine ⟨updates, hlength, ?_⟩
    by_cases hba : b = a
    · subst hba
      simp only [System.consume, Function.update_self, List.map_append, reply_pkt]
      rw [← List.append_assoc, ← List.append_assoc]
      rw [← List.append_assoc] at hperm
      exact hperm.append_right _
    · simpa [System.consume, hba] using hperm
  · by_cases hba : b = a
    · simp [System.consume, hba]
    · simpa [System.consume, hba] using h.toClient b

theorem programs (h : Serves w k s) {e : ProgramEvent} (hstep : k.step e = some k') :
    Matched w k' s [] [e.packet] := by
  cases e with
  | sendOrder a p =>
      simp only [Programs.step, Option.ite_none_right_eq_some, Option.some.injEq] at hstep
      obtain ⟨⟨hprogram, hrange⟩, rfl⟩ := hstep
      obtain ⟨hconn, hpeer⟩ := h.connected_of_program hprogram
      have hsend : s.step (.sendOrder a p) =
          some (s.introduce a (.customer p) (.custOrder p)) :=
        if_pos ⟨(h.connected_iff a).mpr hconn, hpeer, hrange⟩
      exact h.introduce hconn hsend trivial
  | sendReg a p =>
      simp only [Programs.step, Option.ite_none_right_eq_some, Option.some.injEq] at hstep
      obtain ⟨hprogram, rfl⟩ := hstep
      obtain ⟨hconn, hpeer⟩ := h.connected_of_program hprogram
      have hsend : s.step (.sendReg a p) = some (s.introduce a (.cook p) (.regCook p)) :=
        if_pos ⟨(h.connected_iff a).mpr hconn, hpeer⟩
      exact h.introduce hconn hsend trivial
  | read a message =>
      simp only [Programs.step] at hstep
      split at hstep
      · next peer p rest hprogram hread =>
          obtain ⟨hconn, rfl⟩ := h.connected_of_program hprogram
          rw [← h.toClient a] at hread
          obtain ⟨d, rest, hdelivery, rfl, rfl⟩ := List.map_eq_cons_iff.mp hread
          obtain rfl := Option.some.inj hstep
          exact h.consume hconn message hdelivery
      · cases hstep

theorem initial_serves : Serves .initial .initial .initial where
  inUse := WorkerPool.initial_inUse
  wellFormed := System.initial_wellFormed
  server := rfl
  program := by simp [Programs.initial, WorkerPool.initial, WorkerPool.Connected]
  toServer := by simp [WorkerPool.initial, WorkerPool.Connected]
  toClient _ := rfl
  sent := rfl
  handedOut := by simp [System.initial]

theorem step (h : Serves w k s) {e : PoolEvent ⊕ ProgramEvent}
    (hspares : OnComponent WorkerPool.SparesUsed (w, k) e)
    (hstep : WorkerPool.withPrograms (w, k) e = some (w', k')) :
    ∃ packets, Matched w' k' s
      ((componentLabel WorkerPool.actions (w, k) e).flatMap ServerAction.writes) packets := by
  cases e with
  | inl e =>
      obtain ⟨hworkers, hreact⟩ := composed_inl.mp hstep
      obtain ⟨packets, hmatched, -⟩ := h.workers hspares hworkers hreact
      exact ⟨packets, hmatched⟩
  | inr e =>
      obtain ⟨hprograms, rfl⟩ := composed_inr.mp hstep
      exact ⟨_, h.programs hprograms⟩

/-- A run of the workers alone, whose steps stand for packets that meet `D`. -/
theorem run_workers {D : Event → Prop} (h : Serves w k s) {events : List PoolEvent}
    (hspares : AllSteps WorkerPool.step WorkerPool.SparesUsed w events)
    (hD : ∀ e ∈ events, ∀ packet, e.StandsFor packet → D packet)
    (hrun : run WorkerPool.step w events = some w')
    (hreact : run Programs.react k (observed WorkerPool.step WorkerPool.actions w events) =
      some k') :
    ∃ packets s', run System.step s packets = some s' ∧ (∀ packet ∈ packets, D packet) ∧
      Serves w' k' s' := by
  induction events generalizing w k s with
  | nil =>
      simp only [run_nil, observed_nil, Option.some.injEq] at hrun hreact
      exact ⟨[], s, rfl, by simp, hrun ▸ hreact ▸ h⟩
  | cons e events ih =>
      obtain ⟨next, hnext, hrest⟩ := run_cons_eq_some.mp hrun
      rw [observed_cons hnext] at hreact
      obtain ⟨middle, hfirst, hsecond⟩ := run_append_eq_some.mp hreact
      obtain ⟨packets, ⟨t, ht, -, -, hserves⟩, hkinds⟩ := h.workers hspares.1 hnext hfirst
      obtain ⟨more, s', hmore, hall, hend⟩ := ih hserves (hspares.2 next hnext)
        (fun e' he' => hD e' (List.mem_cons_of_mem e he')) hrest hsecond
      refine ⟨packets ++ more, s', run_append_eq_some.mpr ⟨t, ht, hmore⟩, ?_, hend⟩
      intro packet hmem
      rcases List.mem_append.mp hmem with hpacket | hpacket
      · exact hD e List.mem_cons_self packet (hkinds packet hpacket)
      · exact hall packet hpacket

end Serves

/--
In every run of the programs against the workers in which no client is removed, or added,
while that makes a worker use a record that is not in the queue, the workers do and write
what a server does that handles the packets one after the other.
-/
theorem workers_serve_programs {events : List (PoolEvent ⊕ ProgramEvent)} {w : WorkerPool}
    {k : Programs}
    (hrun : run WorkerPool.withPrograms (.initial, .initial) events = some (w, k))
    (hspares : AllSteps WorkerPool.withPrograms (OnComponent WorkerPool.SparesUsed)
      (.initial, .initial) events) :
    ∃ packets s, run System.step System.initial packets = some s ∧
      AllSteps System.step System.FreshAccept System.initial packets ∧
      observed System.step System.writes System.initial packets =
        (observed WorkerPool.withPrograms (componentLabel WorkerPool.actions)
          (.initial, .initial) events).flatMap ServerAction.writes ∧
      Serves w k s := by
  have hmatch : ∀ (x : WorkerPool × Programs) (s : System) e x', Serves x.1 x.2 s →
      OnComponent WorkerPool.SparesUsed x e → WorkerPool.withPrograms x e = some x' →
      ∃ packets s', run System.step s packets = some s' ∧
        AllSteps System.step System.FreshAccept s packets ∧
        observed System.step System.writes s packets =
          (componentLabel WorkerPool.actions x e).flatMap ServerAction.writes ∧
        Serves x'.1 x'.2 s' :=
    fun x s e x' h hspares hstep => h.step hspares hstep
  have hstart : Serves (WorkerPool.initial, Programs.initial).1
      (WorkerPool.initial, Programs.initial).2 System.initial := Serves.initial_serves
  rw [← observed_flatMap]
  exact run_matched hmatch hstart hspares hrun

end SysprogTeam3.FoodSys
