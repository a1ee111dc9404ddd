import SysprogTeam3.FoodSys.PooledPrograms
import SysprogTeam3.FoodSys.PooledProgress
import SysprogTeam3.FoodSys.Settling

/-!
# Until the whole server is at rest

While nobody leaves no worker meets the record of a client that has gone.  What the
programs, the event loop and the workers still have to do gets less with every step, and
when nothing is left every customer has been told the end of its order.  The steps are
those of `PooledServer`, so two updates for one customer do not overlap after their
searches.
-/

namespace SysprogTeam3.FoodSys

open SysprogTeam3.Foundation
open scoped List

namespace PooledServer

/-- A step of a run in which nobody leaves and every order names an item, and only items
whose numbers all fit into `missed_orders`. -/
def Stays : PooledEvent ⊕ ProgramEvent → Prop
  | .inl (.error _) => False
  | .inr (.sendOrder _ p) => p.codes ≠ [] ∧ p.fits
  | _ => True

instance : DecidablePred Stays
  | .inl (.error _) => isFalse id
  | .inr (.sendOrder _ p) => inferInstanceAs (Decidable (p.codes ≠ [] ∧ p.fits))
  | .inl .accept | .inl (.read _ _) | .inl (.pool _) | .inr (.sendReg _ _)
  | .inr (.read _ _) => isTrue trivial

/-- A packet is read by a program or by the event loop, or a thread of the server goes
on. -/
def IsDelivery : PooledEvent ⊕ ProgramEvent → Prop
  | .inl (.read _ _) | .inr (.read _ _) => True
  | .inl e => e.IsWork
  | _ => False

abbrev calm : PooledServer × Programs → PooledEvent ⊕ ProgramEvent →
    Option (PooledServer × Programs) := guarded withPrograms (OnComponent ReadsAgree)

abbrev hands (p : PooledServer) : List (Hand JobData) := (p.pool.service []).hands

/-- Nobody has left whose packet waits, and each update that has found its customer is in
the hands of the worker that has called it. -/
structure Live (p : PooledServer) : Prop extends p.KeptAlive where
  clients : p.server.clientTailq ≠ [] → p.pool.initialised = true
  senders : ∀ work ∈ p.waiting, work.1 ∈ p.server.clientTailq
  workers : (p.running.map Prod.fst).Nodup
  calling : ∀ update ∈ p.running, ∃ work, p.hands[update.1]? = some (.running work)

section Calls

variable {p p' : PooledServer} {n : Nat}

theorem call_running {client : Addr} {pkt : Pkt} (h : p.call n client pkt = some p') :
    p'.running = p.running ∨ p'.running = p.running ++ [(n, client)] := by
  cases pkt with
  | cookUpdate m =>
      simp only [call, Option.some.injEq] at h
      rw [← h]
      split
      · exact .inr rfl
      · exact .inl rfl
  | regCook | regCustomer | custOrder | other =>
      simp only [call, Option.map_eq_some_iff] at h
      obtain ⟨result, -, rfl⟩ := h
      exact .inl rfl

theorem finish_running (hworkers : (p.running.map Prod.fst).Nodup) :
    (p.finish n).running.Sublist p.running ∧
      ∀ update ∈ (p.finish n).running, update.1 ≠ n := by
  unfold finish updateOf
  cases hplace : p.running.findIdx? fun update => update.1 == n with
  | none =>
      rw [List.findIdx?_eq_none_iff] at hplace
      exact ⟨.refl _, fun update hupdate => by simpa using hplace update hupdate⟩
  | some place =>
      obtain ⟨hlt, hfound, -⟩ := List.findIdx?_eq_some_iff_getElem.mp hplace
      have hupdate : p.running[place]? = some p.running[place] :=
        List.getElem?_eq_getElem hlt
      simp only [Option.bind_some, hupdate, Option.map_some]
      refine ⟨List.eraseIdx_sublist .., fun update hmem heq => ?_⟩
      have hperm := (perm_cons_eraseIdx hupdate).map Prod.fst
      rw [List.map_cons, beq_iff_eq.mp hfound] at hperm
      have hnodup := hperm.nodup_iff.mp hworkers
      exact (List.nodup_cons.mp hnodup).1 (List.mem_map.mpr ⟨update, hmem, heq⟩)

end Calls

namespace Live

variable {p p' : PooledServer} {e : ThreadPool.Event JobData}
  {pool : ThreadPool.Thpool JobData}

theorem calls (h : p.Live) (hpool : p.pool.step e = some pool)
    (hact : act { p with pool := pool } (p.pool.actions e) = some p') :
    (p'.running.map Prod.fst).Nodup ∧
      ∀ update ∈ p'.running, ∃ work, p'.hands[update.1]? = some (.running work) := by
  obtain ⟨jobs, howns⟩ := h.inv.owns
  have hservice := ThreadPool.Thpool.service_step howns hpool
  have hsame : p'.pool = pool := (act_keeps hact).1
  have hhands : p'.hands = (pool.service (p.pool.jobsAfter jobs e)).hands := by
    rw [hands, hsame]
    rfl
  -- a worker that does not return keeps its work
  have hkept : ∀ action, p.pool.actions e = [action] → ∀ update ∈ p.running,
      (∀ work, action ≠ .finish update.1 work) →
      ∃ work, p'.hands[update.1]? = some (.running work) := by
    intro action haction update hupdate hother
    obtain ⟨work, hwork⟩ := h.calling update hupdate
    rw [haction] at hservice
    obtain ⟨t, ht, hend⟩ := run_cons_eq_some.mp hservice
    obtain rfl := Option.some.inj hend
    rw [hhands]
    exact ⟨work, (WorkService.running_step ht hwork).resolve_right (hother work)⟩
  rcases actions_cases p.pool e with
    (hnone | ⟨n, work, htake⟩) | ⟨caller, newjob, work, rfl⟩ | ⟨n, woken, work, rfl, hcall⟩ |
      ⟨n, woken, work, rfl, hfinish⟩
  · rw [hnone] at hact hservice
    obtain rfl := Option.some.inj hact
    have hsame : p.pool.service jobs = pool.service (p.pool.jobsAfter jobs e) :=
      Option.some.inj hservice
    refine ⟨h.workers, fun update hupdate => ?_⟩
    rw [hhands, ← hsame]
    exact h.calling update hupdate
  · have hrest := hkept _ htake
    rw [htake] at hact
    obtain rfl := Option.some.inj hact
    exact ⟨h.workers, fun update hupdate => hrest update hupdate fun _ => by simp⟩
  · have hrest := hkept _ rfl
    have hadd : p.pool.actions (.addWork caller newjob work) = [.add work] := rfl
    rw [hadd] at hact
    simp only [act, Option.ite_none_right_eq_some, Option.some.injEq] at hact
    obtain ⟨-, rfl⟩ := hact
    exact ⟨h.workers, fun update hupdate => hrest update hupdate fun _ => by simp⟩
  · have hrest := hkept _ hcall
    rw [hcall] at hact hservice
    obtain ⟨t, ht, hend⟩ := run_cons_eq_some.mp hservice
    obtain rfl := Option.some.inj hend
    simp only [WorkService.step, Option.ite_none_right_eq_some, Option.some.injEq] at ht
    obtain ⟨hholding, hhands'⟩ := ht
    rcases call_running hact with hrunning | hrunning
    · rw [hrunning]
      exact ⟨h.workers, fun update hupdate => hrest update hupdate fun _ => by simp⟩
    · rw [hrunning, List.map_append, List.map_singleton]
      constructor
      · refine List.nodup_append.mpr ⟨h.workers, List.nodup_singleton _, ?_⟩
        intro m hm m' hm' heq
        obtain ⟨update, hupdate, rfl⟩ := List.mem_map.mp hm
        obtain ⟨other, hother⟩ := h.calling update hupdate
        rw [heq, List.mem_singleton.mp hm'] at hother
        exact absurd (hholding.symm.trans hother) (by simp)
      · intro update hupdate
        rcases List.mem_append.mp hupdate with hold | hnew
        · exact hrest update hold fun _ => by simp
        · rw [List.mem_singleton.mp hnew, hhands, ← hhands']
          have hlt := (List.getElem?_eq_some_iff.mp hholding).1
          exact ⟨work, by simp [List.getElem?_set_self hlt]⟩
  · have hrest := hkept _ hfinish
    rw [hfinish] at hact
    obtain rfl := Option.some.inj hact
    obtain ⟨hsublist, hothers⟩ :=
      finish_running (p := { p with pool := pool }) (n := n) h.workers
    refine ⟨(hsublist.map Prod.fst).nodup h.workers, fun update hupdate => ?_⟩
    refine hrest update (hsublist.subset hupdate) fun other heq => ?_
    injection heq with hworker
    exact hothers update hupdate hworker.symm

theorem step_pool (h : p.Live) (hstep : p.step (.pool e) = some p') : p'.Live := by
  obtain ⟨-, pool, hpool, hact⟩ := step_pool_eq_some.mp hstep
  obtain ⟨jobs, howns⟩ := h.inv.owns
  obtain ⟨hworkers, hcalling⟩ := h.calls hpool hact
  have hsame : p'.pool = pool := (act_keeps hact).1
  have htailq := clientTailq_pool hstep
  refine
    { toKeptAlive := h.toKeptAlive.step hstep
      clients := fun hsome => ?_
      senders := fun work hwork => ?_
      workers := hworkers
      calling := hcalling }
  · rw [hsame]
    exact (ThreadPool.Thpool.keeps_of_step hpool).1.initialised (h.clients (htailq ▸ hsome))
  · rw [htailq]
    exact h.senders work
      ((waiting_step howns hstep).2.mem_iff.mp (List.mem_append_right _ hwork))

theorem accept (h : p.Live) (hstep : p.step .accept = some p') : p'.Live := by
  have hkept := h.toKeptAlive.step hstep
  simp only [PooledServer.step, Option.ite_none_right_eq_some, Option.some.injEq] at hstep
  obtain ⟨⟨hready, -⟩, rfl⟩ := hstep
  exact
    { toKeptAlive := hkept
      clients := fun _ => hready
      senders := fun work hwork => List.mem_append_left _ (h.senders work hwork)
      workers := h.workers
      calling := h.calling }

theorem read (h : p.Live) {client : Addr} {pkt : Pkt}
    (hstep : p.step (.read client pkt) = some p') : p'.Live := by
  have hkept := h.toKeptAlive.step hstep
  simp only [PooledServer.step, Option.ite_none_right_eq_some, Option.some.injEq] at hstep
  obtain ⟨⟨-, hconn⟩, rfl⟩ := hstep
  refine
    { toKeptAlive := hkept
      clients := h.clients
      senders := fun work hwork => ?_
      workers := h.workers
      calling := h.calling }
  rcases List.mem_append.mp hwork with hold | hnew
  · exact h.senders work (List.mem_append_left _ hold)
  · rw [List.mem_singleton.mp hnew]
    exact hconn

theorem sparesUsed (h : p.Live) {e : PooledEvent} (hstays : Stays (.inl e)) :
    p.SparesUsed e := by
  cases e with
  | accept => exact fun work hwork _ => h.senders work hwork
  | error => exact hstays.elim
  | read | pool => trivial

theorem step (h : p.Live) {e : PooledEvent} (hstays : Stays (.inl e))
    (hstep : p.step e = some p') : p'.Live := by
  cases e with
  | accept => exact h.accept hstep
  | read => exact h.read hstep
  | error => exact hstays.elim
  | pool e => exact h.step_pool hstep

end Live

theorem initial_live (numThreads : Nat) : (initial (numThreads + 1)).Live where
  toKeptAlive := initial_keptAlive numThreads
  clients := fun hsome => (hsome rfl).elim
  senders := by simp [initial_waiting]
  workers := .nil
  calling := by simp [initial]

/-! ## The packets that the server handles -/

/-- The server on its pool with the programs, and the system without workers whose run
it is. -/
structure Serving (p : PooledServer) (k : Programs) (s : System) : Prop where
  live : p.Live
  steady : s.Steady
  workers : ∃ w, p.Matches w ∧ Serves w k s

theorem initial_serving (numThreads : Nat) :
    Serving (initial (numThreads + 1)) .initial .initial where
  live := initial_live numThreads
  steady := System.initial_steady
  workers := ⟨_, initial_matches _, Serves.initial_serves⟩

theorem stays_of_isDelivery {e : PooledEvent ⊕ ProgramEvent} (h : IsDelivery e) :
    Stays e := by
  cases e with
  | inl e =>
      cases e with
      | accept | error => exact h.elim
      | read | pool => trivial
  | inr e =>
      cases e with
      | sendOrder => exact h.elim
      | sendReg | read => trivial

theorem stays_of_standsFor {e : PooledEvent} {e' : PoolEvent} {packet : Event}
    (hstays : Stays (.inl e)) (he : e.StandsFor e') (hpacket : e'.StandsFor packet) :
    packet.Stays ∧ (IsDelivery (.inl e) → packet.IsDelivery) := by
  cases e' with
  | read => cases packet <;> exact hpacket.elim
  | start | finish =>
      cases packet with
      | handle a => exact ⟨trivial, fun _ => trivial⟩
      | _ => exact hpacket.elim
  | accept =>
      cases packet with
      | accept a =>
          cases e with
          | accept => exact ⟨trivial, False.elim⟩
          | read | error => exact he.elim
          | pool e => cases e <;> exact he.elim
      | _ => exact hpacket.elim
  | error =>
      cases e with
      | accept | read => exact he.elim
      | error => exact hstays.elim
      | pool e => cases e <;> exact he.elim

namespace Serving

variable {p p' : PooledServer} {k k' : Programs} {s s' : System}
  {e : PooledEvent ⊕ ProgramEvent}

theorem server (h : Serving p k s) : s.server = p.server := by
  obtain ⟨w, hmatches, hserves⟩ := h.workers
  exact hserves.server.trans hmatches.server

theorem step (h : Serving p k s) (hstays : Stays e)
    (hstep : calm (p, k) e = some (p', k')) :
    ∃ packets s', Serving p' k' s' ∧
      (IsDelivery e → packets.length + s'.inFlight ≤ s.inFlight) ∧
      ∀ e', e = .inr e' → packets = [e'.packet] := by
  obtain ⟨hagree, hstep⟩ := guarded_eq_some.mp hstep
  obtain ⟨w, hmatches, hserves⟩ := h.workers
  have hwellFormed := h.steady.invariant.wellFormed
  cases e with
  | inl e =>
      obtain ⟨hpooled, hreact⟩ := composed_inl.mp hstep
      obtain ⟨matching, w', hmatching, hspares, hactions, hmatches', hkinds⟩ :=
        step_matches hmatches hagree hpooled
      rw [← hactions] at hreact
      obtain ⟨packets, s', hpackets, hall, hserves'⟩ :=
        hserves.run_workers (hspares (h.live.sparesUsed hstays))
          (fun e' he' packet hpacket => stays_of_standsFor hstays (hkinds e' he') hpacket)
          hmatching hreact
      refine ⟨packets, s', ⟨h.live.step hstays hpooled,
        h.steady.run (fun packet hmem => (hall packet hmem).1) hpackets, w', hmatches',
        hserves'⟩, fun hdelivery => ?_, by simp⟩
      exact System.inFlight_run hwellFormed
        (fun packet hmem => (hall packet hmem).2 hdelivery) hpackets
  | inr e =>
      obtain ⟨hprograms, rfl⟩ := composed_inr.mp hstep
      obtain ⟨s', hpacket, -, -, hserves'⟩ := hserves.programs hprograms
      have hpacketStays : e.packet.Stays := by
        cases e with
        | sendOrder a order => exact hstays.1
        | sendReg | read => trivial
      refine ⟨[e.packet], s', ⟨h.live, h.steady.run (by simpa using hpacketStays) hpacket,
        w, hmatches, hserves'⟩, fun hdelivery => ?_, fun e' he' => by rw [Sum.inr.inj he']⟩
      refine System.inFlight_run hwellFormed ?_ hpacket
      cases e with
      | read a message => simp [ProgramEvent.packet, Event.IsDelivery]
      | sendOrder | sendReg => exact hdelivery.elim

theorem exists_serving {events : List (PooledEvent ⊕ ProgramEvent)} (h : Serving p k s)
    (hstays : ∀ e ∈ events, Stays e) (hrun : run calm (p, k) events = some (p', k')) :
    ∃ s', Serving p' k' s' := by
  have hkept : ∀ (x : PooledServer × Programs) e x', (∃ s, Serving x.1 x.2 s) → Stays e →
      calm x e = some x' → ∃ s, Serving x'.1 x'.2 s := by
    rintro ⟨p, k⟩ e ⟨p', k'⟩ ⟨s, hs⟩ he hstep
    obtain ⟨-, s', hs', -⟩ := hs.step he hstep
    exact ⟨s', hs'⟩
  have hstart : ∃ s, Serving (p, k).1 (p, k).2 s := ⟨s, h⟩
  exact run_invariant hkept hstart (.of_mem hstays) hrun

end Serving

/-! ## Each step takes work away -/

def unread (p : PooledServer) (k : Programs) : Nat :=
  total (fun a => (k.toServer a).length) p.server.clientTailq

/-- A bound on the steps that are left: a packet that is read costs the server 24 steps,
and one that a program reads may make it send another. -/
def load (p : PooledServer) (k : Programs) (s : System) : Nat :=
  25 * s.inFlight + 24 * unread p k + p.workLeft

theorem actions_pool (p : PooledServer) (e : ThreadPool.Event JobData) :
    p.actions (.pool e) = [] ∨ ∃ writes, p.actions (.pool e) = [.wrote writes] := by
  rcases actions_cases p.pool e with
    (hnone | ⟨n, work, htake⟩) | ⟨caller, newjob, work, rfl⟩ | ⟨n, woken, work, rfl, hcall⟩ |
      ⟨n, woken, work, rfl, hfinish⟩
  · exact .inl (by simp [actions, hnone])
  · exact .inl (by simp [actions, htake])
  · exact .inl rfl
  · exact .inr ⟨startWrites p.server work.1 p.data, by simp only [actions, hcall]⟩
  · cases hupdate : p.updateOf n with
    | none => exact .inl (by simp [actions, hfinish, hupdate])
    | some update =>
        exact .inr ⟨(finishUpdate p.server update.2).2, by simp only [actions, hfinish, hupdate]⟩

section Load

variable {p p' : PooledServer} {k k' : Programs} {s : System}

theorem unread_pool {e : ThreadPool.Event JobData} (hstep : p.step (.pool e) = some p')
    (hreact : run Programs.react k (p.actions (.pool e)) = some k') :
    unread p' k' = unread p k := by
  have htoServer : k'.toServer = k.toServer := by
    rcases actions_pool p e with hnone | ⟨writes, hwrote⟩
    · rw [hnone, run_nil, Option.some.injEq] at hreact
      rw [hreact]
    · rw [hwrote] at hreact
      obtain rfl := Option.some.inj hreact
      rfl
  rw [unread, unread, clientTailq_pool hstep, htoServer]

theorem unread_server (hnodup : p.server.clientTailq.Nodup) {client : Addr} {pkt : Pkt}
    (hstep : p.step (.read client pkt) = some p')
    (hreact : run Programs.react k [.read client pkt] = some k') :
    unread p' k' + 1 ≤ unread p k ∧ p'.workLeft = p.workLeft + 23 := by
  simp only [step, Option.ite_none_right_eq_some, Option.some.injEq] at hstep
  obtain ⟨⟨⟨-, -, hnone⟩, hconn⟩, rfl⟩ := hstep
  obtain ⟨next, hread, hend⟩ := run_cons_eq_some.mp hreact
  obtain rfl : next = k' := Option.some.inj hend
  simp only [Programs.react, Option.ite_none_right_eq_some, Option.some.injEq] at hread
  obtain ⟨hhead, rfl⟩ := hread
  obtain ⟨rest, hunread⟩ := List.head?_eq_some_iff.mp hhead
  constructor
  · refine total_add_le hnodup hconn (fun b hb => ?_) ?_
    · simp only [Function.update_of_ne hb]
    · simp [hunread]
  · simp only [workLeft, hnone, Option.toList_some, Option.toList_none, List.length_singleton,
      List.length_nil]
    omega

theorem unread_read (hnodup : p.server.clientTailq.Nodup) {a : Addr} {message : Text}
    (hstep : k.step (.read a message) = some k') : unread p k' ≤ unread p k + 1 := by
  simp only [Programs.step] at hstep
  split at hstep
  · next peer d rest _ _ =>
      obtain rfl := Option.some.inj hstep
      have hreply : (Programs.reply message peer d).length ≤ 1 := by
        unfold Programs.reply
        split <;> simp
      refine total_le_add (a := a) hnodup (fun b hb => ?_) ?_
      · simp only [Function.update_of_ne hb]
      · simpa using hreply
  · cases hstep

theorem Serving.load_step (h : Serving p k s) {e : PooledEvent ⊕ ProgramEvent}
    (hdelivery : IsDelivery e) (hstep : calm (p, k) e = some (p', k')) :
    ∃ s', Serving p' k' s' ∧ load p' k' s' < load p k s := by
  obtain ⟨packets, s', hs', hinFlight, hpacket⟩ := h.step (stays_of_isDelivery hdelivery) hstep
  have hless := hinFlight hdelivery
  have hnodup : p.server.clientTailq.Nodup := h.server ▸ h.steady.invariant.wellFormed.nodup
  have hcomposed := (guarded_eq_some.mp hstep).2
  refine ⟨s', hs', ?_⟩
  unfold load
  cases e with
  | inl e =>
      obtain ⟨hpooled, hreact⟩ := composed_inl.mp hcomposed
      cases e with
      | accept | error => exact hdelivery.elim
      | read client pkt =>
          obtain ⟨hunread, hwork⟩ := unread_server hnodup hpooled hreact
          omega
      | pool e =>
          have hunread := unread_pool hpooled hreact
          have hwork := workLeft_step h.live.toKeptAlive hdelivery hpooled
          omega
  | inr e =>
      obtain ⟨hprograms, rfl⟩ := composed_inr.mp hcomposed
      rw [hpacket e rfl, List.length_singleton] at hless
      cases e with
      | sendOrder | sendReg => exact hdelivery.elim
      | read a message =>
          have hunread := unread_read (p := p) hnodup hprograms
          omega

def Loaded (n : Nat) (x : PooledServer × Programs) : Prop :=
  ∃ s, Serving x.1 x.2 s ∧ load x.1 x.2 s = n

theorem loaded_step (n : Nat) (x : PooledServer × Programs) (e : PooledEvent ⊕ ProgramEvent)
    (x' : PooledServer × Programs) (hx : Loaded n x) (hdelivery : IsDelivery e)
    (hstep : calm x e = some x') : ∃ m, m < n ∧ Loaded m x' := by
  obtain ⟨s, hs, rfl⟩ := hx
  obtain ⟨s', hs', hless⟩ := hs.load_step hdelivery hstep
  exact ⟨load x'.1 x'.2 s', hless, s', hs', rfl⟩

end Load

/-! ## When no step is left -/

section Rest

variable {p : PooledServer} {k : Programs} {s : System}

theorem inl_ne_none {p' : PooledServer} {k' : Programs} {e : PooledEvent}
    (hagree : p.ReadsAgree e) (hstep : p.step e = some p')
    (hreact : run Programs.react k (p.actions e) = some k') : calm (p, k) (.inl e) ≠ none :=
  Option.ne_none_iff_exists'.mpr
    ⟨(p', k'), guarded_eq_some.mpr ⟨hagree, composed_inl.mpr ⟨hstep, hreact⟩⟩⟩

theorem work_quiescent (hquiet : Quiescent calm IsDelivery (p, k)) :
    Quiescent step PooledEvent.IsWork p := by
  intro e he
  by_contra hpossible
  obtain ⟨p', hp'⟩ := Option.ne_none_iff_exists'.mp hpossible
  cases e with
  | accept | read | error => exact he.elim
  | pool e =>
      have hreact : ∃ k', run Programs.react k (p.actions (.pool e)) = some k' := by
        rcases actions_pool p e with hnone | ⟨writes, hwrote⟩
        · exact ⟨k, by rw [hnone]; rfl⟩
        · exact ⟨_, by rw [hwrote]; rfl⟩
      obtain ⟨k', hk'⟩ := hreact
      exact inl_ne_none (e := .pool e) trivial hp' hk' (hquiet (.inl (.pool e)) he)

theorem dispatch_isSome {w : WorkerPool} (h : Serves w k s) {job : Nat} {client : Addr}
    {pkt : Pkt} (hjob : w.jobs[job]? = some (client, pkt)) (hconn : w.Connected client) :
    (handlerFuncDispatch w.server client pkt).isSome := by
  obtain ⟨hpkts, -⟩ := (h.toServer client hconn).of_job (h.one_request hconn) hjob
  obtain ⟨r, hrequest, rfl⟩ := List.map_eq_singleton_iff.mp hpkts
  have hsconn := (h.connected_iff client).mpr hconn
  have hsome := System.handle_isSome h.wellFormed hsconn (by simp [hrequest])
  rw [System.step, if_pos hsconn, Option.isSome_map, System.handled, hrequest, h.server]
    at hsome
  exact hsome

theorem Serving.call_isSome (h : Serving p k s) (n : Nat) (work : JobData)
    (hwork : work ∈ p.waiting) : (p.call n work.1 p.data).isSome := by
  obtain ⟨w, hmatches, hserves⟩ := h.workers
  obtain ⟨job, hjob⟩ := List.mem_iff_getElem?.mp (hmatches.jobs.mem_iff.mpr hwork)
  have hconn : w.Connected work.1 := by
    rw [WorkerPool.Connected, hmatches.server]
    exact h.live.senders work hwork
  have hsome := dispatch_isSome hserves hjob hconn
  rw [hmatches.server] at hsome
  rw [← hmatches.intact work hwork]
  obtain ⟨client, pkt⟩ := work
  cases pkt with
  | cookUpdate m => rfl
  | _ => simpa [call] using hsome

theorem Serving.pool_quiescent (h : Serving p k s)
    (hquiet : Quiescent calm IsDelivery (p, k)) :
    Quiescent ThreadPool.Thpool.step ThreadPool.Event.IsInternal p.pool :=
  PooledServer.pool_quiescent h.live.toKeptAlive h.call_isSome (work_quiescent hquiet)

/-- What is true when nothing is left to do: the event loop has read every packet, every
handler has returned, the programs have read all that was written, each customer has been
told the end of its order, and each cook is free. -/
structure Settled (p : PooledServer) (k : Programs) : Prop where
  waiting : p.waiting = []
  running : p.running = []
  read : ∀ a ∈ p.server.clientTailq, k.toServer a = [] ∧ k.toClient a = []
  told : ∀ c ∈ p.server.clientTailq, ∀ q, k.program c = some (.customer q) →
    .custUpdate ⟨orderUnservMessage⟩ ∈ k.sent c ∨ .custUpdate ⟨orderCompleteMessage⟩ ∈ k.sent c
  free : ∀ b ∈ p.server.clientTailq, ∀ reg, k.program b = some (.cook reg) →
    (p.server.heap b).state = .cookFree

theorem Serving.idle_of_quiescent (h : Serving p k s)
    (hquiet : Quiescent calm IsDelivery (p, k)) : p.unseen = [] ∧ p.running = [] := by
  have hpool := h.pool_quiescent hquiet
  have hempty : ∀ place ∈ p.pool.threads, place.hand p.pool.memory = .empty := by
    intro place hmem
    rcases ThreadPool.Thpool.asleep_or_gone_of_quiescent h.live.inv hpool place hmem with
      rfl | rfl <;> rfl
  constructor
  · obtain ⟨jobs, howns⟩ := h.live.inv.owns
    have hlen := ThreadPool.Thpool.len_of_quiescent h.live.inv hpool h.live.keepalive
      (List.ne_nil_of_length_pos h.live.threads)
    obtain rfl : jobs = [] :=
      List.eq_nil_of_length_eq_zero (howns.holds.len.symm.trans hlen)
    have hheld : p.pool.heldWorks = [] :=
      List.filterMap_eq_nil_iff.mpr fun place hmem => by rw [hempty place hmem]; rfl
    have hcalled : p.pool.runningWorks = [] :=
      List.filterMap_eq_nil_iff.mpr fun place hmem => by rw [hempty place hmem]; rfl
    have hreading := (h.live.toKeptAlive.loop_of_quiescent hpool (work_quiescent hquiet)).2
    rw [unseen, waiting, waitingWorks_eq howns, hheld, hcalled, hreading]
    rfl
  · refine List.eq_nil_iff_forall_not_mem.mpr fun update hupdate => ?_
    obtain ⟨work, hwork⟩ := h.live.calling update hupdate
    obtain ⟨place, hplace, hhand⟩ := List.mem_map.mp (List.mem_of_getElem? hwork)
    rw [hempty place hplace] at hhand
    cases hhand

theorem Serving.read_of_quiescent (h : Serving p k s)
    (hquiet : Quiescent calm IsDelivery (p, k)) {a : Addr} (ha : a ∈ p.server.clientTailq) :
    k.toServer a = [] ∧ k.toClient a = [] := by
  constructor
  · cases hunread : k.toServer a with
    | nil => rfl
    | cons pkt rest =>
        -- the event loop is idle and no job waits, so it could read the packet
        obtain ⟨hcaller, hreading⟩ := h.live.toKeptAlive.loop_of_quiescent
          (h.pool_quiescent hquiet) (work_quiescent hquiet)
        have hidle : p.LoopIdle :=
          ⟨h.live.clients (List.ne_nil_of_mem ha), hcaller, hreading⟩
        have hagree : p.ReadsAgree (.read a pkt) := by
          simp [ReadsAgree, (h.idle_of_quiescent hquiet).1]
        have hstep : p.step (.read a pkt) =
            some { p with data := pkt, reading := some (a, pkt) } := if_pos ⟨hidle, ha⟩
        have hreact : ∃ k', run Programs.react k [.read a pkt] = some k' :=
          ⟨_, by simp [run, Programs.react, hunread]; rfl⟩
        obtain ⟨k', hk'⟩ := hreact
        exact absurd (hquiet (.inl (.read a pkt)) trivial) (inl_ne_none hagree hstep hk')
  · obtain ⟨w, hmatches, hserves⟩ := h.workers
    have hprogram : k.program a = some (s.peer a) := by
      rw [hserves.program a, if_pos (by rwa [WorkerPool.Connected, hmatches.server])]
    cases hread : k.toClient a with
    | nil => rfl
    | cons pkt rest =>
        have hnone := hquiet (.inr (.read a [])) trivial
        simp [guarded, OnComponent, composed, Programs.step, hprogram, hread] at hnone

theorem Serving.nothingInFlight (h : Serving p k s)
    (hquiet : Quiescent calm IsDelivery (p, k)) : s.NothingInFlight := by
  obtain ⟨hunseen, hrunning⟩ := h.idle_of_quiescent hquiet
  have hwaiting := (List.append_eq_nil_iff.mp hunseen).1
  obtain ⟨w, hmatches, hserves⟩ := h.workers
  intro a ha
  have hmem : a ∈ p.server.clientTailq := by rwa [System.Connected, h.server] at ha
  obtain ⟨hserver, hclient⟩ := h.read_of_quiescent hquiet hmem
  have hjobs : w.jobs = [] := List.perm_nil.mp (hwaiting ▸ hmatches.jobs)
  have hlength := (hserves.toServer a ((hserves.connected_iff a).mp ha)).length
  rw [hmatches.running, hrunning, hjobs, hserver, List.length_map] at hlength
  have hpkts := hserves.toClient a
  rw [hclient] at hpkts
  exact ⟨List.eq_nil_of_length_eq_zero hlength.symm, List.map_eq_nil_iff.mp hpkts⟩

theorem Serving.settled (h : Serving p k s) (hquiet : Quiescent calm IsDelivery (p, k)) :
    Settled p k := by
  have hnothing := h.nothingInFlight hquiet
  obtain ⟨hunseen, hrunning⟩ := h.idle_of_quiescent hquiet
  have hwaiting := (List.append_eq_nil_iff.mp hunseen).1
  obtain ⟨w, hmatches, hserves⟩ := h.workers
  have hconnected : ∀ a ∈ p.server.clientTailq, s.Connected a := fun a ha => by
    rwa [System.Connected, h.server]
  have hpeer : ∀ a peer, k.program a = some peer → s.peer a = peer := fun a peer hprogram =>
    (hserves.connected_of_program hprogram).2
  refine ⟨hwaiting, hrunning, fun a ha => h.read_of_quiescent hquiet ha,
    fun c hc q hprogram => ?_, fun b hb reg hprogram => ?_⟩
  · rw [← hserves.sent]
    exact h.steady.told hnothing (hconnected c hc) (hpeer c _ hprogram)
  · rw [← h.server]
    exact h.steady.cooks_free hnothing (hconnected b hb) (hpeer b _ hprogram)

end Rest

/-! ## Main result -/

/--
In every run of the programs against the server on its thread pool in which nobody leaves,
every order names an item and none of 25 or more, and no packet is read over a different
one that may still be looked at: the steps in which packets are read and threads go on
are bounded in number, whatever their order.  When none is possible any more every packet
has been handled, every customer has been told the end of its order, and every cook is
free; and some order of them leads there.
-/
theorem everyone_is_served {numThreads : Nat} {events : List (PooledEvent ⊕ ProgramEvent)}
    {p : PooledServer} {k : Programs}
    (hrun : run withPrograms (start (numThreads + 1)) events = some (p, k))
    (hagree : AllSteps withPrograms (OnComponent ReadsAgree) (start (numThreads + 1)) events)
    (hstays : ∀ e ∈ events, Stays e) :
    (∃ bound, ∀ more p' k', (∀ e ∈ more, IsDelivery e) →
        run withPrograms (p, k) more = some (p', k') →
        AllSteps withPrograms (OnComponent ReadsAgree) (p, k) more →
        more.length ≤ bound ∧ (Quiescent withPrograms IsDelivery (p', k') → Settled p' k')) ∧
      ∃ more p' k', (∀ e ∈ more, IsDelivery e) ∧
        run withPrograms (p, k) more = some (p', k') ∧
        AllSteps withPrograms (OnComponent ReadsAgree) (p, k) more ∧ Settled p' k' := by
  obtain ⟨s, hs⟩ := (initial_serving numThreads).exists_serving hstays
    (run_guarded.mpr ⟨hrun, hagree⟩)
  have hstart : Loaded (load p k s) (p, k) := ⟨s, hs, rfl⟩
  have hsettled : ∀ more p' k', (∀ e ∈ more, IsDelivery e) →
      run calm (p, k) more = some (p', k') → Quiescent calm IsDelivery (p', k') →
      Settled p' k' := by
    intro more p' k' hmore hrun' hquiet
    obtain ⟨s', hs'⟩ :=
      hs.exists_serving (fun e he => stays_of_isDelivery (hmore e he)) hrun'
    exact hs'.settled hquiet
  constructor
  · refine ⟨load p k s, fun more p' k' hmore hrun' hagree' => ?_⟩
    have hcalm : run calm (p, k) more = some (p', k') := run_guarded.mpr ⟨hrun', hagree'⟩
    obtain ⟨m, hm, -⟩ := length_add_bound_le loaded_step hstart hmore hcalm
    refine ⟨by omega, fun hquiet => hsettled more p' k' hmore hcalm fun e he => ?_⟩
    simp [guarded, hquiet e he]
  · obtain ⟨more, ⟨p', k'⟩, hmore, hcalm, hquiet⟩ :=
      exists_run_quiescent_of_bound loaded_step hstart
    obtain ⟨hrun', hagree'⟩ := run_guarded.mp hcalm
    exact ⟨more, p', k', hmore, hrun', hagree', hsettled more p' k' hmore hcalm hquiet⟩

def bothSentRun : List (PooledEvent ⊕ ProgramEvent) :=
  [.inl (.pool (.thread 0 0)), .inl (.pool .initialised), .inl .accept,
    .inr (.sendReg 0 (.ofItems [1])), .inl .accept, .inl (.read 0 (.regCook (.ofItems [1]))),
    .inl (.pool (.addWork 0 7 (0, .regCook (.ofItems [1])))),
    .inr (.sendOrder 1 (.ofCodes [1]))]

set_option maxRecDepth 4000 in
theorem everyone_is_served_bothSentRun :
    ∃ p k, run withPrograms (start 1) bothSentRun = some (p, k) ∧
      ∃ more p' k', (∀ e ∈ more, IsDelivery e) ∧
        run withPrograms (p, k) more = some (p', k') ∧ Settled p' k' := by
  obtain ⟨⟨p, k⟩, hrun⟩ := Option.isSome_iff_exists.mp (by decide :
    (run withPrograms (start 1) bothSentRun).isSome)
  obtain ⟨more, p', k', hmore, hrun', -, hsettled⟩ :=
    (everyone_is_served hrun (by decide) (by decide)).2
  exact ⟨p, k, hrun, more, p', k', hmore, hrun', hsettled⟩

end PooledServer

end SysprogTeam3.FoodSys
