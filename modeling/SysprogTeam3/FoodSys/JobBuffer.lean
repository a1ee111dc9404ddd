import SysprogTeam3.Foundation.Runs
import SysprogTeam3.FoodSys.Framing

/-!
# The buffer that all jobs share

`buffered_on_read` queues a pointer to its local `data`, which is the same
storage in every call.  A job is therefore handled with whatever the last read
left there, not with the packet that it was queued for.
-/

namespace SysprogTeam3.FoodSys

open SysprogTeam3.Foundation

/-- A queued `job_data_t`.  Its `pkt_data` always points to `data`; `source` and
`received` record the read that queued it, and no code looks at them. -/
structure Job where
  arg : Addr
  source : Addr
  received : Chunk

structure JobQueue where
  data : DataBuf
  jobs : List Job

inductive JobEvent where
  | read (client : Addr) (chunk : Chunk)
  | work

namespace JobQueue

def initial (data : DataBuf) : JobQueue := ⟨data, []⟩

def step (s : JobQueue) : JobEvent → Option JobQueue
  | .read client chunk =>
      some
        { data := s.data.read chunk
          jobs := if chunk.bytes.length = 0 then s.jobs
            else s.jobs ++ [⟨client, client, chunk⟩] }
  | .work =>
      match s.jobs with
      | [] => none
      | _ :: jobs => some { s with jobs := jobs }

/-- The `arg` and the `*pkt_data` that `handler_func_dispatch` gets when it runs
the job now. -/
def handed (s : JobQueue) (job : Job) : Addr × RawPkt := (job.arg, s.data.pkt)

def OwnPacket (s : JobQueue) (job : Job) : Prop :=
  (s.handed job).1 = job.source ∧
    job.received.bytes.take pktSize <+: (s.handed job).2.bytes

instance (s : JobQueue) (job : Job) : Decidable (s.OwnPacket job) :=
  inferInstanceAs (Decidable (_ ∧ _))

def HandlesOwnPacket (s : JobQueue) : JobEvent → Prop
  | .work => ∀ job ∈ s.jobs.head?, s.OwnPacket job
  | .read _ _ => True

instance (s : JobQueue) (e : JobEvent) : Decidable (s.HandlesOwnPacket e) :=
  match e with
  | .work => inferInstanceAs (Decidable (∀ job ∈ s.jobs.head?, s.OwnPacket job))
  | .read _ _ => isTrue trivial

/-- What is read agrees with the packet of every waiting job, byte by byte as far
as both go; it does when no job waits. -/
def ReadsAgree (s : JobQueue) : JobEvent → Prop
  | .read _ chunk => ∀ job ∈ s.jobs,
      ∀ pair ∈ (job.received.bytes.take pktSize).zip chunk.bytes, pair.1 = pair.2
  | .work => True

instance (s : JobQueue) (e : JobEvent) : Decidable (s.ReadsAgree e) :=
  match e with
  | .read _ chunk => inferInstanceAs (Decidable (∀ job ∈ s.jobs,
      ∀ pair ∈ (job.received.bytes.take pktSize).zip chunk.bytes, pair.1 = pair.2))
  | .work => isTrue trivial

def JobsIntact (s : JobQueue) : Prop := ∀ job ∈ s.jobs, s.OwnPacket job

theorem take_prefix_pkt_read (data : DataBuf) (chunk : Chunk) :
    chunk.bytes.take pktSize <+: (data.read chunk).pkt.bytes := by
  rw [pkt_read_bytes]
  exact List.prefix_append _ _

theorem prefix_overwrite_iff {α : Type} {xs ys old : List α} (h : xs <+: old) :
    xs <+: ys ++ old.drop ys.length ↔ ∀ pair ∈ xs.zip ys, pair.1 = pair.2 := by
  induction ys generalizing xs old with
  | nil => simpa using h
  | cons y ys ih =>
      cases xs with
      | nil => simp
      | cons x xs =>
          obtain ⟨rest, rfl⟩ := h
          have hrest := ih (List.prefix_append xs rest)
          simp [List.cons_prefix_cons, hrest]

theorem prefix_pkt_iff {data : DataBuf} {xs : List UInt8}
    (h : xs.length ≤ pktSize) : xs <+: data.pkt.bytes ↔ xs <+: data.bytes := by
  rw [DataBuf.pkt, List.prefix_take_iff]
  exact and_iff_left h

theorem ownPacket_read_iff {s : JobQueue} {job : Job} (h : s.OwnPacket job)
    (chunk : Chunk) (jobs : List Job) :
    OwnPacket ⟨s.data.read chunk, jobs⟩ job ↔
      ∀ pair ∈ (job.received.bytes.take pktSize).zip chunk.bytes,
        pair.1 = pair.2 := by
  have hle : (job.received.bytes.take pktSize).length ≤ pktSize :=
    List.length_take_le _ _
  have hold := (prefix_pkt_iff hle).mp h.2
  rw [← prefix_overwrite_iff hold]
  exact (and_iff_right h.1).trans (prefix_pkt_iff hle)

theorem jobsIntact_step {s s' : JobQueue} (h : s.JobsIntact) {e : JobEvent}
    (hC : s.ReadsAgree e) (hstep : s.step e = some s') : s'.JobsIntact := by
  cases e with
  | read client chunk =>
      simp only [step, Option.some.injEq] at hstep
      subst hstep
      intro job hjob
      have hcases : job ∈ s.jobs ∨ job = ⟨client, client, chunk⟩ := by
        by_cases hempty : chunk.bytes.length = 0
        · simp only [hempty, if_true] at hjob
          exact .inl hjob
        · simp only [hempty, if_false] at hjob
          simpa using hjob
      rcases hcases with hold | rfl
      · exact (ownPacket_read_iff (h job hold) chunk _).mpr (hC job hold)
      · exact ⟨rfl, take_prefix_pkt_read s.data chunk⟩
  | work =>
      intro job hjob
      cases hjobs : s.jobs with
      | nil => simp [step, hjobs] at hstep
      | cons first jobs =>
          simp only [step, hjobs, Option.some.injEq] at hstep
          subst hstep
          exact h job (hjobs ▸ List.mem_cons_of_mem first hjob)

theorem handlesOwnPacket_of_intact {s : JobQueue} (h : s.JobsIntact)
    (e : JobEvent) : s.HandlesOwnPacket e := by
  cases e with
  | read client chunk => trivial
  | work =>
      intro job hjob
      exact h job (List.mem_of_mem_head? hjob)

/--
In every run whose reads agree with the packets of the waiting jobs, every job is
handled with its own packet.
-/
theorem jobs_handled_with_own_packet {data : DataBuf} {events : List JobEvent}
    (hagree : AllSteps step ReadsAgree (initial data) events) :
    AllSteps step HandlesOwnPacket (initial data) events := by
  have hinit : (initial data).JobsIntact := by simp [JobsIntact, initial]
  exact .of_invariant (fun s e s' hs hC hstep => jobsIntact_step hs hC hstep)
    (fun s e hs _ => handlesOwnPacket_of_intact hs e) hinit hagree

/--
A worker may come at any later time.  The runs in which it would find every
waiting job's packet in place are exactly those whose reads agree with the jobs.
-/
theorem jobs_intact_iff {data : DataBuf} {events : List JobEvent} {s : JobQueue}
    (hrun : run step (initial data) events = some s) :
    AllStates step JobsIntact (initial data) events ↔
      AllSteps step ReadsAgree (initial data) events := by
  have hinit : (initial data).JobsIntact := by simp [JobsIntact, initial]
  refine allStates_iff_allSteps (fun _ => id)
    (fun s e s' hs hC hstep => jobsIntact_step hs hC hstep) ?_ hinit hrun
  intro s e s' hs hC hstep h
  cases e with
  | work => exact hC trivial
  | read client chunk =>
      simp only [step, Option.some.injEq] at hstep
      subst hstep
      refine hC fun job hjob => (ownPacket_read_iff (hs job hjob) chunk _).mp (h job ?_)
      by_cases hempty : chunk.bytes.length = 0 <;> simp [hempty, hjob]

def promptEvents : List JobEvent :=
  [.read 1 (uniformChunk 1), .work, .read 2 (uniformChunk 2), .work]

theorem jobs_handled_with_own_packet_promptEvents :
    AllSteps step HandlesOwnPacket (initial (.replicate 0)) promptEvents :=
  jobs_handled_with_own_packet (by decide +kernel)

def delayedEvents : List JobEvent :=
  [.read 1 (uniformChunk 1), .read 2 (uniformChunk 2)]

theorem delayedEvents_isSome :
    (run step (initial (.replicate 0)) delayedEvents).isSome := by
  decide +kernel

theorem delayedEvents_not_handlesOwnPacket :
    ∃ s, run step (initial (.replicate 0)) delayedEvents = some s ∧
      (s.step .work).isSome ∧ ¬ s.HandlesOwnPacket .work :=
  ⟨_, (Option.some_get delayedEvents_isSome).symm, by decide +kernel,
    by decide +kernel⟩

end JobQueue

end SysprogTeam3.FoodSys
