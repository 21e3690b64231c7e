/-
# `AegisWorkers.Coherence` — rows in fault-free runs

Eight columns of a row are written by `before_start`, `on_success`, `on_failure` and
`cancel_job`, each setting some of them.  When nothing fails, the columns agree with the
status (`Job.Coherent`), because the messages of a job form one chain, and the row is where
the chain is (`Phase.Fits`):

    queued, received            PENDING or CANCELLED, or RUNNING after `retries` attempts
    started … retrying          RUNNING, in attempt `retries + 1`
    completed, counted          COMPLETED
    failing, after the UPDATEs  FAILED, then DLQ
    failing, the second time    RUNNING or DLQ

A message is outstanding (`Slot.pends`) until its retry is published or its hooks have all
returned; what is then left is its acknowledgement.  `Chained` is the invariant.

    writesWork      the UPDATEs of the hooks succeed, and the SETEX
    ownless         `execute()` raises nothing of Celery's
    deliversOnce    a message is delivered once at most, and after its row is committed
    cancelsAtomic   nothing else moves while a `cancel_job` is in flight
-/
import AegisWorkers.Deliveries

namespace Aegis

open BaseTask JobService ReadCommitted

/-! ## Coherent rows -/

/-- No hook has written the row. -/
structure Job.Untouched (r : Job) : Prop where
  executionCount : r.executionCount = 0
  startedAt : r.startedAt = none
  completedAt : r.completedAt = none
  workerId : r.workerId = none
  result : r.result = none
  errorDetail : r.errorDetail = none

/-- The row has been started last, and has been neither completed nor failed. -/
structure Job.Underway (r : Job) : Prop where
  attempts : 1 ≤ r.executionCount ∧ r.executionCount ≤ 6
  startedAt : r.startedAt ≠ none
  completedAt : r.completedAt = none
  result : r.result = none
  errorDetail : r.errorDetail = none

/-- The row has been started, and then completed or failed. -/
structure Job.Ended (r : Job) : Prop where
  attempts : 1 ≤ r.executionCount ∧ r.executionCount ≤ 6
  times : ∃ s c, r.startedAt = some s ∧ r.completedAt = some c ∧ s ≤ c

/-- The row has ended, and says why. -/
structure Job.Broken (r : Job) : Prop extends r.Ended where
  result : r.result = none
  errorDetail : ∃ text, r.errorDetail = some text ∧ 1 ≤ text.length ∧ text.length ≤ 4096

/-- The columns agree with the status. -/
def Job.Coherent (r : Job) : Prop :=
  match r.status with
  | .pending => r.Untouched
  | .cancelled => r.Untouched
  | .running => r.Underway
  | .completed => r.Ended ∧ r.errorDetail = none
  | .failed => r.Broken
  | .dlq => r.Broken

/-- The row was not started after `now`. -/
def Job.StartedBy (r : Job) (now : Time) : Prop := ∀ t, r.startedAt = some t → t ≤ now

/-! ## Policies -/

/-- The next external call of the delivery is an UPDATE, or the SETEX. -/
def Phase.persists : Phase → Bool
  | .received => true
  | .returned _ => true
  | .counted _ => true
  | .failing _ _ .failed => true
  | .failing _ _ .dlq => true
  | _ => false

/-- The UPDATEs of the hooks succeed, and the SETEX. -/
def writesWork (w : World) : Event → Bool
  | .work s (.raises _) =>
      match w.slots s with
      | .delivered _ _ phase => !phase.persists
      | _ => true
  | _ => true

/-- `execute()` does not call `self.retry` itself. -/
def ownless : Event → Bool
  | .work _ (.ends (.retry _)) => false
  | _ => true

/-- A message is delivered once at most, and after its row is committed. -/
def deliversOnce (w : World) : Event → Bool
  | .take s _ =>
      match w.slots s with
      | .queued m => (w.db.find m.jobId).isSome
      | _ => true
  | .crash _ => false
  | .redeliver _ => false
  | _ => true

/-- The call is a `cancel_job` in flight. -/
def Call.inCancel : Call → Bool
  | .cancelJob _ _ => true
  | _ => false

/-- Nothing else moves while a `cancel_job` is in flight. -/
def cancelsAtomic (w : World) (e : Event) : Prop :=
  ∀ c, (w.calls c).inCancel → e.call? = some c

/-- What a fault-free run keeps to. -/
structure FaultFree (w : World) (e : Event) : Prop where
  writes : writesWork w e
  ownless : ownless e
  once : deliversOnce w e
  cancels : cancelsAtomic w e

/-! ## The row and its chain -/

/-- The delivery has handed its job over: its retry is published, or its hooks have all
returned. -/
def Phase.over : Phase → Bool
  | .retried => true
  | .handled => true
  | _ => false

/-- The slot holds a message of job `j` that is outstanding. -/
def Slot.pends (j : Uuid) : Slot → Bool
  | .empty => false
  | .queued m => m.jobId = j
  | .delivered m _ phase => m.jobId = j && !phase.over

/-- The row waits for the delivery of `m`. -/
def Job.Awaits (r : Job) (m : Message) : Prop :=
  m.retries = 0 ∧ (r.status = .pending ∨ r.status = .cancelled) ∨
    0 < m.retries ∧ r.status = .running ∧ r.executionCount = m.retries

/-- The row has the status `st` in the attempt that delivers `m`. -/
def Job.InAttempt (r : Job) (m : Message) (st : JobStatus) : Prop :=
  r.status = st ∧ r.executionCount = m.retries + 1

/-- The row is where a delivery of `m` in the phase has brought it. -/
def Phase.Fits (m : Message) (r : Job) : Phase → Prop
  | .received => r.Awaits m
  | .started => r.InAttempt m .running
  | .missed => r.InAttempt m .running
  | .executing => r.InAttempt m .running
  | .returned _ => r.InAttempt m .running
  | .completed _ => r.InAttempt m .completed
  | .counted _ => r.InAttempt m .completed
  | .failing _ true .send => r.InAttempt m .running
  | .failing _ true .failed => r.InAttempt m .running
  | .failing _ false .send => r.InAttempt m .running ∨ r.InAttempt m .dlq
  | .failing _ false .failed => r.InAttempt m .running ∨ r.InAttempt m .dlq
  | .failing _ _ .dlq => r.InAttempt m .failed
  | .failing _ _ .count => r.InAttempt m .dlq
  | .retrying _ _ => r.InAttempt m .running ∧ m.retries < maxRetries
  | .retried => True
  | .handled => True

/-- The messages of job `j` form a chain, and its row is where the chain is. -/
structure Chained (j : Uuid) (w : World) : Prop where
  sole : ∀ s s', (w.slots s).pends j → (w.slots s').pends j → s = s'
  retries : ∀ s m, (w.slots s).message? = some m → m.jobId = j → m.retries ≤ maxRetries
  queued : ∀ s m, w.slots s = .queued m → m.jobId = j →
    w.db.find j = none ∧ m.retries = 0 ∨ ∃ r, w.db.find j = some r ∧ r.Awaits m
  delivered : ∀ s m worker phase, w.slots s = .delivered m worker phase → m.jobId = j →
    ∃ r, w.db.find j = some r ∧ phase.Fits m r
  row : ∀ r, w.db.find j = some r → r.Coherent ∧ r.StartedBy w.clock
  cancelling : ∀ c pc, w.calls c = .cancelJob j pc → pc ≠ .called →
    ∀ r, w.db.find j = some r → r.status = .pending

theorem chained_init (j : Uuid) (allowed : List String) : Chained j (.init allowed) where
  sole _ _ h := nomatch h
  retries _ _ h := nomatch h
  queued _ _ h := nomatch h
  delivered _ _ _ _ h := nomatch h
  row _ h := nomatch h
  cancelling _ _ h := nomatch h

/-! ## What the hooks write -/

section Columns
variable {r : Job} {m : Message} {worker : Worker} {now : Time} {st : JobStatus}

theorem Job.Coherent.untouched (h : r.Coherent)
    (hst : r.status = .pending ∨ r.status = .cancelled) : r.Untouched := by
  rcases hst with hst | hst <;> simpa only [Job.Coherent, hst] using h

theorem Job.Coherent.underway (h : r.Coherent) (hst : r.status = .running) : r.Underway := by
  simpa only [Job.Coherent, hst] using h

theorem Job.Coherent.broken (h : r.Coherent) (hst : r.status = .failed ∨ r.status = .dlq) :
    r.Broken := by
  rcases hst with hst | hst <;> simpa only [Job.Coherent, hst] using h

/-- `error_detail` is the exception's text and the traceback, cut at 4096 characters. -/
theorem truncate_length (text : String) : (truncate text).length = min 4096 text.length := by
  rw [truncate, String.length_ofList, List.length_take, String.length_toList]

theorem errorDetail_length (exc : Exc) :
    1 ≤ (truncate (truncate (exc.str ++ "\n\n" ++ exc.traceback))).length ∧
      (truncate (truncate (exc.str ++ "\n\n" ++ exc.traceback))).length ≤ 4096 := by
  have hsep : ("\n\n" : String).length = 2 := rfl
  rw [truncate_length, truncate_length, String.length_append, String.length_append, hsep]
  omega

/-- `before_start` begins the attempt that the row awaits. -/
theorem Job.Coherent.start (h : r.Coherent) (ha : r.Awaits m) (hm : m.retries ≤ maxRetries) :
    (values now .running { workerId := some worker, incrementExecution := true } r).Coherent ∧
      (values now .running { workerId := some worker, incrementExecution := true } r).InAttempt m
        .running := by
  rcases ha with ⟨hzero, hst⟩ | ⟨hpos, hst, hcount⟩
  · have hu := h.untouched hst
    refine ⟨?_, rfl, ?_⟩
    · refine ⟨?_, Option.some_ne_none now, hu.completedAt, hu.result, hu.errorDetail⟩
      simp only [values, if_true, hu.executionCount]
      omega
    · simp only [values, if_true, hu.executionCount, hzero]
  · have hu := h.underway hst
    refine ⟨?_, rfl, ?_⟩
    · refine ⟨?_, Option.some_ne_none now, hu.completedAt, hu.result, hu.errorDetail⟩
      simp only [values, if_true, hcount]
      simp only [maxRetries] at hm
      omega
    · simp only [values, if_true, hcount]

/-- An UPDATE that ends a started row at the time `now`. -/
theorem Job.Ended.of_values (hattempts : 1 ≤ r.executionCount ∧ r.executionCount ≤ 6)
    (hstarted : r.startedAt ≠ none) (hby : r.StartedBy now) {u : StatusUpdate}
    (hu : u.incrementExecution = false) (hst : st = .completed ∨ st = .failed ∨ st = .dlq) :
    (values now st u r).Ended := by
  obtain ⟨t, ht⟩ := Option.ne_none_iff_exists'.mp hstarted
  refine ⟨?_, t, now, ?_, if_pos hst, hby t ht⟩
  · simpa only [values, hu, Bool.false_eq_true, if_false] using hattempts
  · have hne : st ≠ .running := by
      rcases hst with rfl | rfl | rfl <;> exact nofun
    simpa only [values, if_neg hne] using ht

/-- `on_success` completes a row that is underway. -/
theorem Job.Coherent.complete (h : r.Coherent) (hr : r.InAttempt m .running)
    (hby : r.StartedBy now) (v : Json) :
    (values now .completed { result := v } r).Coherent ∧
      (values now .completed { result := v } r).InAttempt m .completed := by
  have hu := h.underway hr.1
  exact ⟨⟨.of_values hu.attempts hu.startedAt hby rfl (.inl rfl), hu.errorDetail⟩, rfl, hr.2⟩

/-- `on_failure` fails a row that is underway, or that it has failed before. -/
theorem Job.Coherent.fail (h : r.Coherent) (hr : r.InAttempt m .running ∨ r.InAttempt m .dlq)
    (hby : r.StartedBy now) {text : String} (htext : 1 ≤ (truncate text).length ∧
      (truncate text).length ≤ 4096) :
    (values now .failed { errorDetail := some text } r).Coherent ∧
      (values now .failed { errorDetail := some text } r).InAttempt m .failed := by
  have herr : (values now .failed { errorDetail := some text } r).errorDetail =
      some (truncate text) := rfl
  rcases hr with hr | hr
  · have hu := h.underway hr.1
    exact ⟨⟨.of_values hu.attempts hu.startedAt hby rfl (.inr (.inl rfl)), hu.result,
      ⟨_, herr, htext⟩⟩, rfl, hr.2⟩
  · have hb := h.broken (.inr hr.1)
    obtain ⟨t, c, ht, -, -⟩ := hb.times
    have hstarted : r.startedAt ≠ none := ht ▸ Option.some_ne_none t
    exact ⟨⟨.of_values hb.attempts hstarted hby rfl (.inr (.inl rfl)), hb.result,
      ⟨_, herr, htext⟩⟩, rfl, hr.2⟩

/-- `on_failure` buries the row it has failed. -/
theorem Job.Coherent.bury (h : r.Coherent) (hr : r.InAttempt m .failed) (hby : r.StartedBy now) :
    (values now .dlq {} r).Coherent ∧ (values now .dlq {} r).InAttempt m .dlq := by
  have hb := h.broken (.inl hr.1)
  obtain ⟨t, c, ht, -, -⟩ := hb.times
  have hstarted : r.startedAt ≠ none := ht ▸ Option.some_ne_none t
  exact ⟨⟨.of_values hb.attempts hstarted hby rfl (.inr (.inr rfl)), hb.result, hb.errorDetail⟩,
    rfl, hr.2⟩

/-- `cancel_job` cancels a row no hook has written. -/
theorem Job.Coherent.cancel (h : r.Coherent) (hst : r.status = .pending) (began : Time) :
    ((cancelPatch began).apply r).Coherent := by
  have hu := h.untouched (.inl hst)
  exact ⟨hu.executionCount, hu.startedAt, hu.completedAt, hu.workerId, hu.result, hu.errorDetail⟩

theorem Job.Blank.coherent (h : r.Blank) : r.Coherent := by
  have hu : r.Untouched := ⟨h.executionCount, h.startedAt, h.completedAt, h.workerId, h.result,
    h.errorDetail⟩
  simpa only [Job.Coherent, h.status] using hu

/-- A status update starts the row at the time it is made, or leaves its start alone. -/
theorem Job.StartedBy.values (h : r.StartedBy now) (u : StatusUpdate) :
    (values now st u r).StartedBy now := by
  intro t ht
  simp only [BaseTask.values] at ht
  split at ht
  · exact Nat.le_of_eq (Option.some.inj ht).symm
  · exact h t ht

end Columns

/-! ## One piece of a delivery -/

section Piece
variable {J : JsonCodec} {w : World} {m : Message} {worker : Worker} {cached : Option String}
  {now : Time} {phase : Phase} {i : Input} {eff : Effects} {r : Job}

theorem BaseTask.Effects.startedBy (h : r.StartedBy now) : (eff.patched now r).StartedBy now := by
  unfold Effects.patched
  split
  · split
    · exact h.values _
    · exact h
  · exact h

theorem Phase.fits_dlq {exc : Exc} {again : Bool} :
    (Phase.failing exc again .dlq).Fits m r ↔ r.InAttempt m .failed := by
  cases again <;> exact Iff.rfl

theorem Phase.fits_count {exc : Exc} {again : Bool} :
    (Phase.failing exc again .count).Fits m r ↔ r.InAttempt m .dlq := by
  cases again <;> exact Iff.rfl

/-- A delivery that has not handed its job over leaves a coherent row, and one that fits the
phase it comes to; a retry it publishes is one the row awaits. -/
theorem Piece.fits (h : Piece J m worker cached now phase i eff) (hover : phase.over = false)
    (hf : phase.Fits m r) (hc : r.Coherent) (hby : r.StartedBy now) (hm : m.retries ≤ maxRetries)
    (hok : phase.persists → i.ok) (hown : ∀ delay, i ≠ .ends (.retry delay)) :
    (eff.patched now r).Coherent ∧ ∃ phase', eff.next = some phase' ∧
      phase'.Fits m (eff.patched now r) ∧ ∀ m', eff.queue = some m' → phase' = .retried ∧
        m'.retries ≤ maxRetries ∧ (eff.patched now r).Awaits m' := by
  cases h with
  | start =>
      have hstart := @Job.Coherent.start r m worker now hc hf hm
      exact ⟨hstart.1, _, rfl, hstart.2, nofun⟩
  | miss _ => exact ⟨hc, _, rfl, hf, nofun⟩
  | hit v _ => exact ⟨hc, _, rfl, hf, nofun⟩
  | undecodable _ =>
      refine ⟨hc, _, rfl, ?_, nofun⟩
      split
      · exact ⟨hf, ‹_›⟩
      · exact .inl hf
  | lookupFails exc =>
      refine ⟨hc, _, rfl, ?_, nofun⟩
      split
      · exact ⟨hf, ‹_›⟩
      · exact .inl hf
  | execute => exact ⟨hc, _, rfl, hf, nofun⟩
  | returns v => exact ⟨hc, _, rfl, hf, nofun⟩
  | invalid exc => exact ⟨hc, _, rfl, hf, nofun⟩
  | exhausted exc _ => exact ⟨hc, _, rfl, .inl hf, nofun⟩
  | again exc hlt => exact ⟨hc, _, rfl, ⟨hf, hlt⟩, nofun⟩
  | ownRetry delay _ => exact absurd rfl (hown delay)
  | success v =>
      obtain ⟨hc', hr⟩ := hc.complete hf hby v
      exact ⟨hc', _, rfl, hr, nofun⟩
  | count v => exact ⟨hc, _, rfl, hf, nofun⟩
  | store v => exact ⟨hc, _, rfl, trivial, nofun⟩
  | storeFails v exc => exact absurd (hok rfl) Bool.false_ne_true
  | failure exc again stage =>
      cases stage with
      | send => cases again <;> exact ⟨hc, _, rfl, hf, nofun⟩
      | failed =>
          have hr : r.InAttempt m .running ∨ r.InAttempt m .dlq := by
            cases again with
            | true => exact .inl hf
            | false => exact hf
          obtain ⟨hc', hr'⟩ := hc.fail hr hby (errorDetail_length exc)
          exact ⟨hc', _, rfl, Phase.fits_dlq.mpr hr', nofun⟩
      | dlq =>
          have hr := Phase.fits_dlq.mp hf
          obtain ⟨hc', hr'⟩ := hc.bury hr hby
          exact ⟨hc', _, rfl, Phase.fits_count.mpr hr', nofun⟩
      | count =>
          have hr := Phase.fits_count.mp hf
          cases again with
          | true => exact ⟨hc, _, rfl, .inr hr, nofun⟩
          | false => exact ⟨hc, _, rfl, trivial, nofun⟩
  | failureFails exc exc' again stage hne =>
      cases stage with
      | send => cases again <;> exact ⟨hc, _, rfl, hf, nofun⟩
      | failed => exact absurd (hok rfl) Bool.false_ne_true
      | dlq => exact absurd (hok rfl) Bool.false_ne_true
      | count => exact absurd rfl hne
  | retryFails delay exc =>
      obtain ⟨hr, hlt⟩ := hf
      refine ⟨hc, _, rfl, ?_, nofun⟩
      rw [if_pos hlt]
      exact ⟨hr, hlt⟩
  | rejected delay exc => exact ⟨hc, _, rfl, trivial, nofun⟩
  | retry delay again =>
      refine ⟨hc, _, rfl, trivial, ?_⟩
      intro m' hm'
      obtain rfl := Option.some.inj hm'
      obtain ⟨⟨hst, hcount⟩, hlt⟩ := hf
      exact ⟨rfl, hlt, .inr ⟨Nat.succ_pos _, hst, hcount⟩⟩
  | startFails exc => exact absurd (hok rfl) Bool.false_ne_true
  | successFails v exc => exact absurd (hok rfl) Bool.false_ne_true
  | onRetry => cases hover
  | ack => cases hover

end Piece

/-! ## One step, as one chain sees it -/

theorem inCancel_of_eq {x : Call} {j : Uuid} {pc : CancelPc} (h : x = .cancelJob j pc) :
    x.inCancel := h ▸ rfl

theorem Phase.fits_of_over {m : Message} {r : Job} {phase : Phase} (h : phase.over) :
    phase.Fits m r := by
  cases phase with
  | retried => trivial
  | handled => trivial
  | _ => cases h

/-- A delivery whose row is PENDING has not begun: the row may be cancelled under it. -/
theorem Phase.Fits.cancel {m : Message} {r : Job} {phase : Phase} (h : phase.Fits m r)
    (hst : r.status = .pending) (began : Time) : phase.Fits m ((cancelPatch began).apply r) := by
  have hno : ∀ {st : JobStatus}, st ≠ .pending → ¬ r.InAttempt m st :=
    fun hne hr => hne (hr.1.symm.trans hst)
  cases phase with
  | received =>
      rcases h with ⟨hzero, -⟩ | ⟨-, hrun, -⟩
      · exact .inl ⟨hzero, .inr rfl⟩
      · cases hst.symm.trans hrun
  | failing exc again stage =>
      cases stage with
      | dlq => exact absurd (Phase.fits_dlq.mp h) (hno nofun)
      | count => exact absurd (Phase.fits_count.mp h) (hno nofun)
      | send =>
          cases again with
          | true => exact absurd h (hno nofun)
          | false => exact h.elim (fun h => absurd h (hno nofun)) fun h => absurd h (hno nofun)
      | failed =>
          cases again with
          | true => exact absurd h (hno nofun)
          | false => exact h.elim (fun h => absurd h (hno nofun)) fun h => absurd h (hno nofun)
  | retrying delay again => exact absurd h.1 (hno nofun)
  | retried => trivial
  | handled => trivial
  | _ => exact absurd h (hno nofun)

theorem Slot.pends_iff {j : Uuid} {x : Slot} : x.pends j ↔ ∃ m, x.message? = some m ∧
    m.jobId = j ∧ ∀ worker phase, x = .delivered m worker phase → phase.over = false := by
  cases x with
  | empty => simp [Slot.pends, Slot.message?]
  | queued m => simp [Slot.pends, Slot.message?]
  | delivered m worker phase => simp [Slot.pends, Slot.message?]

section Step
variable {J : JsonCodec} {w w' : World} {e : Event} {j : Uuid}

theorem clock_countSubmission (w : World) (sub : Submission) :
    (countSubmission w sub).clock = w.clock := by
  unfold countSubmission; split <;> rfl

theorem ApiStep.clock {c : CallId} (h : ApiStep w c w') : w'.clock = w.clock := by
  cases h with
  | land _ => exact clock_countSubmission _ _
  | _ => rfl

/-- Clocks do not go back. -/
theorem step_clock (hs : (system J).step w e = some w') : w.clock ≤ w'.clock := by
  cases step_cases hs with
  | api _ ha => exact Nat.le_of_eq ha.clock.symm
  | env hn _ =>
      cases e with
      | boot worker => exact Option.some.inj hs ▸ Nat.le_refl _
      | tick n => exact Option.some.inj hs ▸ Nat.le_add_right _ _
      | expire key => exact Option.some.inj hs ▸ Nat.le_refl _
      | deploy allowed => exact Option.some.inj hs ▸ Nat.le_refl _
      | dlqReceive =>
          change w.dlqReceive = some w' at hs
          unfold World.dlqReceive at hs
          split at hs
          · exact Option.some.inj hs ▸ Nat.le_refl _
          · cases hs
      | updateDlqMetrics ok => exact Option.some.inj hs ▸ Nat.le_refl _
      | _ => cases hn
  | _ => exact Nat.le_refl _

/-- No message of a submission is in the queue before `send_task`. -/
theorem unsent (hen : Enqueued w) (hcp : Copies w) {c : CallId} {sub : Submission}
    (hc : w.calls c = .submitting sub .flushed) {s : SlotId} {m : Message}
    (hm : (w.slots s).message? = some m) : m.jobId ≠ sub.job.id := by
  intro hj
  obtain ⟨m₀, hm₀, hcopy⟩ := hcp s m hm
  have hmem := mem_publishedFor.mpr ⟨hm₀, hcopy.jobId.symm.trans hj⟩
  rw [hen.flushed c sub hc] at hmem
  cases hmem

theorem Piece.over {m : Message} {worker : Worker} {cached : Option String} {now : Time}
    {phase : Phase} {i : Input} {eff : Effects} (h : Piece J m worker cached now phase i eff)
    (hover : phase.over) : eff.write = none ∧ eff.queue = none ∧
      ∀ phase', eff.next = some phase' → phase'.over := by
  cases phase with
  | retried =>
      cases h
      exact ⟨rfl, rfl, fun phase' hn => Option.some.inj hn ▸ rfl⟩
  | handled =>
      cases h
      exact ⟨rfl, rfl, nofun⟩
  | _ => cases hover

/-- The slot goes on to hold what it holds, or a delivery in it ends, or it holds no message of
job `j` any more, nor did it hold an outstanding delivery of the job. -/
inductive SlotAside (w w' : World) (j : Uuid) (s : SlotId) : Prop
  | same : w'.slots s = w.slots s → SlotAside w w' j s
  | other : (∀ m, (w'.slots s).message? = some m → m.jobId ≠ j) →
      (∀ m worker phase, w.slots s = .delivered m worker phase → m.jobId = j → phase.over) →
      SlotAside w w' j s
  | ended {m : Message} {worker : Worker} {phase phase' : Phase} :
      w.slots s = .delivered m worker phase → w'.slots s = .delivered m worker phase' →
      phase.over → phase'.over → SlotAside w w' j s

/-- What the event `e` does to the row and the messages of job `j`. -/
inductive ChainMove (J : JsonCodec) (w : World) (e : Event) (w' : World) (j : Uuid) : Prop
  /-- nothing but the end of a delivery -/
  | aside : (∀ s, SlotAside w w' j s) → w'.db.find j = w.db.find j →
      (∀ s i, e = .work s i → ¬ (w.slots s).pends j) → ChainMove J w e w' j
  /-- its first message is published, ahead of its row -/
  | sent {sub : Submission} : sub.job.id = j → w.db.find j = none → w'.db.find j = none →
      (∀ s m, (w'.slots s).message? = some m → m.jobId = j →
        s = w.nextSlot ∧ w'.slots s = .queued (message sub w.uuid)) →
      (∀ s i, e ≠ .work s i) → ChainMove J w e w' j
  | landed {c : CallId} {sub : Submission} {t : Uuid} : w.calls c = .submitting sub (.sent t) →
      w'.slots = w.slots → w.db.find j = none → w'.db.find j = some (sub.row t) →
      (∀ s i, e ≠ .work s i) → ChainMove J w e w' j
  | cancelled {c : CallId} {began : Time} : w.calls c = .cancelJob j .updated →
      w'.slots = w.slots → w'.db.find j = (w.db.find j).map (cancelPatch began).apply →
      (∀ s i, e ≠ .work s i) → ChainMove J w e w' j
  | taken {s : SlotId} {worker : Worker} {m : Message} : e = .take s worker →
      w.slots s = .queued m → m.jobId = j → (w.db.find j).isSome →
      w' = w.setSlot s (.delivered m worker .received) → ChainMove J w e w' j
  | worked {s : SlotId} {i : Input} {m : Message} {worker : Worker} {phase : Phase}
      {eff : Effects} {db : Db} : e = .work s i → w.slots s = .delivered m worker phase →
      m.jobId = j → phase.over = false →
      Piece J m worker (w.cache (cacheKey m.idempotencyKey)) w.clock phase i eff →
      w.write m.jobId eff.write = some db → w' = w.apply J s m worker eff db →
      ChainMove J w e w' j

theorem work_of_call {c : CallId} (hc : e.call? = some c) (s : SlotId) (i : Input) :
    e ≠ .work s i := by
  rintro rfl
  cases hc

theorem chain_api (hg : Ground w) (hen : Enqueued w) (hcp : Copies w) {c : CallId}
    (he : SysStep J w e w') (hc : e.call? = some c) (ha : ApiStep w c w') :
    ChainMove J w e w' j := by
  have hwork := work_of_call hc
  cases ha.slots with
  | same hslots _ =>
      cases he.row hg j with
      | stays hfind =>
          exact .aside (fun s => .same (congrFun hslots s)) hfind
            fun s i hev => absurd hev (hwork s i)
      | landed _ hx _ hnone hfind => exact .landed hx hslots hnone hfind hwork
      | cancelled _ hx hfind => exact .cancelled hx hslots hfind hwork
      | written hev _ _ _ _ _ _ _ => exact absurd hev (hwork _ _)
  | sent sub hx _ hslots _ =>
      have hfind : w'.db.find j = w.db.find j := by
        cases ha.rows (hg.sessions c) with
        | same hrows => exact find_eq_of_rows hrows j
        | landed _ _ hx₀ _ _ => rw [hx] at hx₀; cases hx₀
        | cancelled _ _ hx₀ _ _ => rw [hx] at hx₀; cases hx₀
      have hslot : ∀ s, w'.slots s = w.slots s ∨
          s = w.nextSlot ∧ w'.slots s = .queued (message sub w.uuid) := by
        intro s
        rw [hslots]
        by_cases hs : s = w.nextSlot
        · subst hs
          exact .inr ⟨rfl, Function.update_self ..⟩
        · exact .inl (Function.update_of_ne hs ..)
      by_cases hid : sub.job.id = j
      · subst hid
        have hnone := hg.sessions.unborn hx nofun
        refine .sent rfl hnone (hfind.trans hnone) ?_ hwork
        intro s m hm hj
        rcases hslot s with hsame | hnew
        · exact absurd hj (unsent hen hcp hx (hsame ▸ hm))
        · exact hnew
      · refine .aside ?_ hfind fun s i hev => absurd hev (hwork s i)
        intro s
        rcases hslot s with hsame | ⟨rfl, hnew⟩
        · exact .same hsame
        · refine .other ?_ ?_
          · intro m hm
            rw [hnew] at hm
            exact Option.some.inj hm ▸ hid
          · intro m worker phase hs
            rw [hg.bounded _ (Nat.le_refl _)] at hs
            cases hs

theorem chain_work (hg : Ground w) {s : SlotId} {i : Input} {m : Message} {worker : Worker}
    {phase : Phase} {eff : Effects} {db : Db} (hs : w.slots s = .delivered m worker phase)
    (hp : Piece J m worker (w.cache (cacheKey m.idempotencyKey)) w.clock phase i eff)
    (hdb : w.write m.jobId eff.write = some db) :
    ChainMove J w (.work s i) (w.apply J s m worker eff db) j := by
  have he : SysStep J w (.work s i) (w.apply J s m worker eff db) := .work hs hp hdb
  by_cases hj : m.jobId = j
  · cases hover : phase.over with
    | false => exact .worked rfl hs hj hover hp hdb rfl
    | true =>
        -- what is left is `on_retry` and the acknowledgement, which write nothing
        obtain ⟨hwrite, hqueue, hnext⟩ := hp.over hover
        refine .aside ?_ ?_ ?_
        · intro s'
          by_cases hne : s' = s
          · subst hne
            cases hn : eff.next with
            | none =>
                refine .other ?_ ?_
                · rw [slots_apply_none hn]
                  exact nofun
                · intro m₁ worker₁ phase₁ hs₁ _
                  rw [hs, Slot.delivered.injEq] at hs₁
                  exact hs₁.2.2 ▸ hover
            | some phase' => exact .ended hs (slots_apply_some hn) hover (hnext phase' hn)
          · exact .same (slots_apply_ne hne hqueue)
        · rw [hwrite] at hdb
          obtain rfl := Option.some.inj hdb
          rfl
        · intro s' i' hev
          obtain ⟨rfl, -⟩ := Event.work.inj hev
          rw [hs, Slot.pends, hover]
          simp
  · -- a delivery of another job publishes and acknowledges messages of that job only
    have hold : ∀ {s' : SlotId} {m₁ : Message} {worker₁ : Worker} {phase₁ : Phase},
        (w.slots s' = .empty ∨ s' = s) → w.slots s' = .delivered m₁ worker₁ phase₁ →
        m₁.jobId = j → phase₁.over := by
      rintro s' m₁ worker₁ phase₁ (hempty | rfl) hs₁ hj₁
      · rw [hempty] at hs₁
        cases hs₁
      · rw [hs, Slot.delivered.injEq] at hs₁
        exact absurd (hs₁.1 ▸ hj₁) hj
    refine .aside ?_ ?_ ?_
    · intro s'
      cases he.slot hg.bounded s' with
      | stays hsame => exact .same hsame
      | retried hempty hev hs₀ hp₀ hq hs' =>
          obtain ⟨rfl, rfl⟩ := Event.work.inj hev
          rw [hs, Slot.delivered.injEq] at hs₀
          obtain ⟨rfl, rfl, rfl⟩ := hs₀
          refine .other ?_ fun m₁ worker₁ phase₁ => hold (.inl hempty)
          intro m₁ hm₁
          rw [hs'] at hm₁
          rw [← Option.some.inj hm₁, (hp₀.queue_copy hq).jobId]
          exact hj
      | advanced hev hs₀ _ _ hs' =>
          obtain ⟨rfl, rfl⟩ := Event.work.inj hev
          rw [hs, Slot.delivered.injEq] at hs₀
          obtain ⟨rfl, rfl, rfl⟩ := hs₀
          refine .other ?_ fun m₁ worker₁ phase₁ => hold (.inr rfl)
          intro m₁ hm₁
          rw [hs'] at hm₁
          exact Option.some.inj hm₁ ▸ hj
      | acknowledged hev _ _ _ hs' =>
          obtain ⟨rfl, rfl⟩ := Event.work.inj hev
          refine .other ?_ fun m₁ worker₁ phase₁ => hold (.inr rfl)
          intro m₁ hm₁
          rw [hs'] at hm₁
          cases hm₁
      | published _ hev _ _ _ => cases hev
      | redelivered _ hev _ _ => cases hev
      | dropped hev _ _ _ => cases hev
      | taken hev _ _ _ => cases hev
      | crashed hev _ _ => cases hev
    · rcases find_write hdb j with ⟨hf, -⟩ | ⟨_, _, _, hj', _⟩
      · exact hf
      · exact absurd hj' hj
    · intro s' i' hev
      obtain ⟨rfl, -⟩ := Event.work.inj hev
      rw [hs, Slot.pends]
      simp [hj]

/-- The inversion lemma for one chain, when nothing is delivered twice, and nothing of the job
before its row is committed. -/
theorem chain_cases (hg : Ground w) (hen : Enqueued w) (hcp : Copies w)
    (hcrash : ∀ s, e ≠ .crash s) (hredeliver : ∀ s, e ≠ .redeliver s)
    (hrow : ∀ s worker m, e = .take s worker → w.slots s = .queued m → m.jobId = j →
      (w.db.find j).isSome) (he : SysStep J w e w') : ChainMove J w e w' j := by
  have hset : ∀ {s : SlotId} {x : Slot} {worker : Worker} {m : Message}, e = .take s worker →
      w.slots s = .queued m → (∀ m, x.message? = some m → m.jobId ≠ j) →
      ChainMove J w e (w.setSlot s x) j := by
    intro s x worker m hev hs hx
    refine .aside ?_ rfl ?_
    · intro s'
      rcases slot_of_set w s x s' with hsame | ⟨rfl, hnew⟩
      · exact .same hsame
      · refine .other ?_ ?_
        · rw [hnew]
          exact hx
        · intro m₁ worker₁ phase₁ hs₁
          rw [hs] at hs₁
          cases hs₁
    · intro s' i hev'
      rw [hev] at hev'
      cases hev'
  cases he with
  | api hc ha => exact chain_api hg hen hcp (.api hc ha) hc ha
  | work hs hp hdb => exact chain_work hg hs hp hdb
  | drop hs _ => exact hset rfl hs nofun
  | @take s worker m hs _ _ =>
      by_cases hj : m.jobId = j
      · exact .taken rfl hs hj (hrow s worker m rfl hs hj) rfl
      · exact hset rfl hs fun m' hm' => Option.some.inj hm' ▸ hj
  | crash _ => exact absurd rfl (hcrash _)
  | redeliver _ => exact absurd rfl (hredeliver _)
  | env hn henv =>
      refine .aside (fun s => .same (congrFun henv.slots s)) (by rw [henv.db]) ?_
      rintro s i rfl
      cases hn

/-- The same, in a run that keeps to `deliversOnce`. -/
theorem chain_once (hg : Ground w) (hen : Enqueued w) (hcp : Copies w) (hP : deliversOnce w e)
    (he : SysStep J w e w') : ChainMove J w e w' j := by
  refine chain_cases hg hen hcp ?_ ?_ ?_ he
  · rintro s rfl
    exact absurd hP Bool.false_ne_true
  · rintro s rfl
    exact absurd hP Bool.false_ne_true
  · rintro s worker m rfl hslot rfl
    simp only [deliversOnce, hslot] at hP
    exact hP

end Step

/-! ## Preservation -/

section Step
variable {J : JsonCodec} {w w' : World} {e : Event} {j : Uuid}

theorem Job.StartedBy.mono {r : Job} {t t' : Time} (h : r.StartedBy t) (ht : t ≤ t') :
    r.StartedBy t' := fun s hs => Nat.le_trans (h s hs) ht

/-- Nothing comes to be outstanding by a step that is another's. -/
theorem SlotAside.pends {s : SlotId} (h : SlotAside w w' j s) (hs : (w'.slots s).pends j) :
    (w.slots s).pends j := by
  obtain ⟨m, hm, hj, hover⟩ := Slot.pends_iff.mp hs
  cases h with
  | same hsame => exact hsame ▸ hs
  | other hne _ => exact absurd hj (hne m hm)
  | ended _ hs' _ ho =>
      rw [hs'] at hm
      obtain rfl := Option.some.inj hm
      rw [hover _ _ hs'] at ho
      cases ho

/-- A step that does no more to a chain than to end a delivery keeps it. -/
theorem Chained.aside (h : Chained j w) (hslot : ∀ s, SlotAside w w' j s)
    (hfind : w'.db.find j = w.db.find j) (hclock : w.clock ≤ w'.clock)
    (hcancel : ∀ c pc, w'.calls c = .cancelJob j pc → pc ≠ .called →
      ∀ r, w'.db.find j = some r → r.status = .pending) : Chained j w' := by
  constructor
  · intro s s' hs hs'
    exact h.sole s s' ((hslot s).pends hs) ((hslot s').pends hs')
  · intro s m hm hj
    cases hslot s with
    | same hsame => exact h.retries s m (hsame ▸ hm) hj
    | other hne _ => exact absurd hj (hne m hm)
    | ended hs hs' _ _ =>
        rw [hs'] at hm
        obtain rfl := Option.some.inj hm
        exact h.retries s _ (by rw [hs]; rfl) hj
  · intro s m hs hj
    rw [hfind]
    cases hslot s with
    | same hsame => exact h.queued s m (hsame ▸ hs) hj
    | other hne _ => exact absurd hj (hne m (by rw [hs]; rfl))
    | ended _ hs' _ _ => rw [hs] at hs'; cases hs'
  · intro s m worker phase hs hj
    rw [hfind]
    cases hslot s with
    | same hsame => exact h.delivered s m worker phase (hsame ▸ hs) hj
    | other hne _ => exact absurd hj (hne m (by rw [hs]; rfl))
    | ended hs₀ hs' _ ho =>
        rw [hs, Slot.delivered.injEq] at hs'
        obtain ⟨rfl, rfl, rfl⟩ := hs'
        obtain ⟨r, hr, -⟩ := h.delivered s m worker _ hs₀ hj
        exact ⟨r, hr, Phase.fits_of_over ho⟩
  · intro r hr
    obtain ⟨hc, hby⟩ := h.row r (hfind ▸ hr)
    exact ⟨hc, hby.mono hclock⟩
  · exact hcancel

/-- The slot of an outstanding delivery pends. -/
theorem pends_of_delivered {s : SlotId} {m : Message} {worker : Worker} {phase : Phase}
    (hs : w.slots s = .delivered m worker phase) (hover : phase.over = false) :
    (w.slots s).pends m.jobId := by
  rw [hs, Slot.pends, hover]
  simp

/-- What the slots hold of the job after a piece of its outstanding delivery: that delivery,
the retry it has published, and deliveries that are over. -/
inductive HoldsAfter (w w' : World) (s : SlotId) (phase' : Phase) (q : Option Message)
    (m : Message) (s' : SlotId) (m₁ : Message) : Prop
  | self (worker : Worker) : s' = s → m₁ = m → w'.slots s' = .delivered m₁ worker phase' →
      HoldsAfter w w' s phase' q m s' m₁
  | retry : s' = w.nextSlot → q = some m₁ → w'.slots s' = .queued m₁ →
      HoldsAfter w w' s phase' q m s' m₁
  | past (worker : Worker) (phase₁ : Phase) : w.slots s' = .delivered m₁ worker phase₁ →
      w'.slots s' = .delivered m₁ worker phase₁ → phase₁.over →
      HoldsAfter w w' s phase' q m s' m₁

theorem Chained.holds_after {s : SlotId} {m : Message} {worker : Worker} {phase phase' : Phase}
    {eff : Effects} {db : Db} (h : Chained m.jobId w) (hs : w.slots s = .delivered m worker phase)
    (hover : phase.over = false) (hn : eff.next = some phase') {s' : SlotId} {m₁ : Message}
    (hm₁ : ((w.apply J s m worker eff db).slots s').message? = some m₁)
    (hj₁ : m₁.jobId = m.jobId) :
    HoldsAfter w (w.apply J s m worker eff db) s phase' eff.queue m s' m₁ := by
  have hself : (w.apply J s m worker eff db).slots s = .delivered m worker phase' :=
    slots_apply_some hn
  -- an old message in another slot is not outstanding, so its delivery is over
  have hold : s' ≠ s → (w.apply J s m worker eff db).slots s' = w.slots s' →
      HoldsAfter w (w.apply J s m worker eff db) s phase' eff.queue m s' m₁ := by
    intro hne hsame
    have hout : ¬ (w.slots s').pends m.jobId := fun hpends =>
      hne (h.sole s' s hpends (pends_of_delivered hs hover))
    rw [hsame] at hm₁
    cases hs₀ : w.slots s' with
    | empty => rw [hs₀] at hm₁; cases hm₁
    | queued m₀ =>
        rw [hs₀] at hm₁
        obtain rfl := Option.some.inj hm₁
        rw [hs₀] at hout
        exact absurd (decide_eq_true hj₁) hout
    | delivered m₀ worker₀ phase₀ =>
        rw [hs₀] at hm₁
        obtain rfl := Option.some.inj hm₁
        refine .past worker₀ phase₀ hs₀ (hsame.trans hs₀) (Bool.of_not_eq_false ?_)
        intro ho
        exact hout (hj₁ ▸ pends_of_delivered hs₀ ho)
  by_cases hne : s' = s
  · subst hne
    rw [hself] at hm₁
    obtain rfl := Option.some.inj hm₁
    exact .self worker rfl rfl hself
  · cases hqueue : eff.queue with
    | none => exact hqueue ▸ hold hne (slots_apply_ne hne hqueue)
    | some m' =>
        have hslot := @slots_apply_queue J w s s' m m' worker eff db hne hqueue
        by_cases hnew : s' = w.nextSlot
        · subst hnew
          rw [Function.update_self] at hslot
          rw [hslot] at hm₁
          exact .retry rfl hm₁ (Option.some.inj hm₁ ▸ hslot)
        · rw [Function.update_of_ne hnew] at hslot
          exact hqueue ▸ hold hne hslot

theorem FaultFree.ok {s : SlotId} {i : Input} {m : Message} {worker : Worker} {phase : Phase}
    (hP : FaultFree w (.work s i)) (hs : w.slots s = .delivered m worker phase)
    (hu : phase.persists) : i.ok := by
  have hw := hP.writes
  cases i with
  | raises exc => simp [writesWork, hs, hu] at hw
  | _ => rfl

/-- A delivery of the job that has not handed it over goes on. -/
theorem Chained.worked {s : SlotId} {i : Input} {m : Message} {worker : Worker} {phase : Phase}
    {eff : Effects} {db : Db} (h : Chained m.jobId w) (hok : phase.persists → i.ok)
    (hown : ∀ delay, i ≠ .ends (.retry delay)) (hcalls : ∀ c pc, w.calls c ≠ .cancelJob m.jobId pc)
    (hs : w.slots s = .delivered m worker phase) (hover : phase.over = false)
    (hp : Piece J m worker (w.cache (cacheKey m.idempotencyKey)) w.clock phase i eff)
    (hdb : w.write m.jobId eff.write = some db) :
    Chained m.jobId (w.apply J s m worker eff db) := by
  obtain ⟨r, hr, hf⟩ := h.delivered s m worker phase hs rfl
  obtain ⟨hc, hby⟩ := h.row r hr
  have hm : m.retries ≤ maxRetries := h.retries s m (by rw [hs]; rfl) rfl
  obtain ⟨hc', phase', hn, hf', hq⟩ := hp.fits hover hf hc hby hm hok hown
  have hr' : db.find m.jobId = some (eff.patched w.clock r) := find_patched hdb hr
  have hafter := @Chained.holds_after J w s m worker phase phase' eff db h hs hover hn
  -- what is outstanding is this delivery, or its retry
  have hwho : ∀ {s'}, ((w.apply J s m worker eff db).slots s').pends m.jobId →
      s' = s ∧ phase'.over = false ∨ s' = w.nextSlot ∧ phase'.over = true := by
    intro s' hs'
    obtain ⟨m₁, hm₁, hj₁, hout⟩ := Slot.pends_iff.mp hs'
    cases hafter hm₁ hj₁ with
    | self worker' hss _ hslot => exact .inl ⟨hss, hout worker' phase' hslot⟩
    | retry hss hqueue _ => exact .inr ⟨hss, (hq m₁ hqueue).1 ▸ rfl⟩
    | past worker' phase₁ _ hslot ho =>
        rw [hout worker' phase₁ hslot] at ho
        cases ho
  constructor
  · intro s₁ s₂ h₁ h₂
    rcases hwho h₁ with ⟨rfl, ho₁⟩ | ⟨rfl, ho₁⟩
    · rcases hwho h₂ with ⟨rfl, -⟩ | ⟨-, ho₂⟩
      · rfl
      · rw [ho₁] at ho₂
        cases ho₂
    · rcases hwho h₂ with ⟨-, ho₂⟩ | ⟨rfl, -⟩
      · rw [ho₁] at ho₂
        cases ho₂
      · rfl
  · intro s' m₁ hm₁ hj₁
    cases hafter hm₁ hj₁ with
    | self _ _ hmm _ => exact hmm ▸ hm
    | retry _ hqueue _ => exact (hq m₁ hqueue).2.1
    | past _ _ hs₀ _ _ => exact h.retries s' m₁ (by rw [hs₀]; rfl) hj₁
  · intro s' m₁ hs' hj₁
    cases hafter (by rw [hs']; rfl) hj₁ with
    | self _ _ _ hslot => rw [hs'] at hslot; cases hslot
    | retry _ hqueue _ => exact .inr ⟨_, hr', (hq m₁ hqueue).2.2⟩
    | past _ _ _ hslot _ => rw [hs'] at hslot; cases hslot
  · intro s' m₁ worker₁ phase₁ hs' hj₁
    refine ⟨_, hr', ?_⟩
    cases hafter (by rw [hs']; rfl) hj₁ with
    | self _ _ hmm hslot =>
        rw [hs', Slot.delivered.injEq] at hslot
        rw [hmm, hslot.2.2]
        exact hf'
    | retry _ _ hslot => rw [hs'] at hslot; cases hslot
    | past _ _ _ hslot ho =>
        rw [hs', Slot.delivered.injEq] at hslot
        rw [hslot.2.2]
        exact Phase.fits_of_over ho
  · intro r₁ hr₁
    have heq : eff.patched w.clock r = r₁ := Option.some.inj (hr'.symm.trans hr₁)
    exact heq ▸ ⟨hc', Effects.startedBy hby⟩
  · intro c pc hcall
    exact absurd hcall (hcalls c pc)

/-- What a `cancel_job` in flight has read stays so, since nothing else moves. -/
theorem Chained.cancelling_api (h : Chained j w) (hg : Ground w) {c : CallId}
    (hP : cancelsAtomic w e) (hc : e.call? = some c) (ha : ApiStep w c w') (c' : CallId)
    (pc : CancelPc) (hcall : w'.calls c' = .cancelJob j pc) (hne : pc ≠ .called) :
    ∀ r, w'.db.find j = some r → r.status = .pending := by
  by_cases hcc : c' = c
  · subst hcc
    intro r hr
    have hrow : w'.db.find j = w.db.find j := by
      cases ha.rows (hg.sessions c') with
      | same hrows => exact find_eq_of_rows hrows j
      | landed _ _ _ hx' _ => rw [hcall] at hx'; cases hx'
      | cancelled _ _ _ hx' _ => rw [hcall] at hx'; cases hx'
    rw [hrow] at hr
    have hold : ∀ {pc₀ : CancelPc}, w.calls c' = .cancelJob j pc₀ → pc₀ ≠ .called →
        r.status = .pending := fun hx hne₀ => h.cancelling c' _ hx hne₀ r hr
    cases ha with
    | enter op _ =>
        rw [calls_setCall_self] at hcall
        have hx := enter_cases w.allowedTaskNames op
        rw [hcall] at hx
        cases hx
        exact absurd rfl hne
    | @move y hl =>
        rw [calls_setCall_self] at hcall
        generalize w.calls c' = x at hl hold
        cases hl with
        | checkCancel hf hp =>
            obtain ⟨rfl, -⟩ := Call.cancelJob.inj hcall
            rw [hf, Option.some.injEq] at hr
            exact hr ▸ hp
        | noTask _ =>
            obtain ⟨rfl, -⟩ := Call.cancelJob.inj hcall
            exact hold rfl nofun
        | _ => cases hcall
    | lock hx _ =>
        rw [calls_setCall_self] at hcall
        obtain ⟨rfl, -⟩ := Call.cancelJob.inj hcall
        exact hold hx nofun
    | revoke _ hx _ =>
        rw [calls_setCall_self] at hcall
        obtain ⟨rfl, -⟩ := Call.cancelJob.inj hcall
        exact hold hx nofun
    | _ => simp at hcall
  · rw [ha.calls_ne hcc] at hcall
    have hev := hP c' (inCancel_of_eq hcall)
    rw [hc, Option.some.injEq] at hev
    exact absurd hev.symm hcc

/-- While nothing else moves, what a `cancel_job` has read is what it overwrites. -/
theorem Chained.cancelling_step (h : Chained j w) (hg : Ground w) (hP : cancelsAtomic w e)
    (he : SysStep J w e w') (c : CallId) (pc : CancelPc) (hcall : w'.calls c = .cancelJob j pc)
    (hne : pc ≠ .called) : ∀ r, w'.db.find j = some r → r.status = .pending := by
  rcases he.api_or_offstage with ⟨c₀, hc, ha⟩ | ⟨hc, ho⟩
  · exact h.cancelling_api hg hP hc ha c pc hcall hne
  · have hev := hP c (inCancel_of_eq (ho.calls ▸ hcall))
    rw [hc] at hev
    cases hev

/-- A worker takes the message of the job. -/
theorem Chained.taken {s : SlotId} {worker : Worker} {m : Message} (h : Chained m.jobId w)
    (hqueued : w.slots s = .queued m) (hrow : (w.db.find m.jobId).isSome)
    (hcancel : ∀ c pc, (w.setSlot s (.delivered m worker .received)).calls c =
      .cancelJob m.jobId pc → pc ≠ .called →
      ∀ r, w.db.find m.jobId = some r → r.status = .pending) :
    Chained m.jobId (w.setSlot s (.delivered m worker .received)) := by
  have hslot := slot_of_set w s (.delivered m worker .received)
  have hpends : ∀ {s'}, ((w.setSlot s (.delivered m worker .received)).slots s').pends
      m.jobId → (w.slots s').pends m.jobId := by
    intro s' hs'
    rcases hslot s' with hsame | ⟨rfl, -⟩
    · exact hsame ▸ hs'
    · rw [hqueued]
      exact decide_eq_true rfl
  refine ⟨?_, ?_, ?_, ?_, h.row, hcancel⟩
  · intro s₁ s₂ h₁ h₂
    exact h.sole s₁ s₂ (hpends h₁) (hpends h₂)
  · intro s' m' hm' hj'
    rcases hslot s' with hsame | ⟨rfl, hnew⟩
    · exact h.retries s' m' (hsame ▸ hm') hj'
    · rw [hnew] at hm'
      exact h.retries s' m' (by rw [hqueued]; exact hm') hj'
  · intro s' m' hs' hj'
    rcases hslot s' with hsame | ⟨rfl, hnew⟩
    · exact h.queued s' m' (hsame ▸ hs') hj'
    · rw [hnew] at hs'
      cases hs'
  · intro s' m' worker' phase' hs' hj'
    rcases hslot s' with hsame | ⟨rfl, hnew⟩
    · exact h.delivered s' m' worker' phase' (hsame ▸ hs') hj'
    · rw [hnew, Slot.delivered.injEq] at hs'
      obtain ⟨rfl, rfl, rfl⟩ := hs'
      rcases h.queued s' m hqueued rfl with ⟨hnone, -⟩ | hrow'
      · rw [hnone] at hrow
        cases hrow
      · exact hrow'

/-- The chain is kept, if nobody overwrites a row that has been started, and the UPDATEs of its
deliveries succeed. -/
theorem Chained.move (h : Chained j w) (hbl : Blanks w) (hclock : w.clock ≤ w'.clock)
    (hcancel : ∀ c pc, w'.calls c = .cancelJob j pc → pc ≠ .called →
      ∀ r, w'.db.find j = some r → r.status = .pending)
    (hwork : ∀ s i m worker phase, e = .work s i → w.slots s = .delivered m worker phase →
      m.jobId = j → (phase.persists → i.ok) ∧ (∀ delay, i ≠ .ends (.retry delay)) ∧
        ∀ c pc, w.calls c ≠ .cancelJob j pc) (hmove : ChainMove J w e w' j) : Chained j w' := by
  cases hmove with
  | aside hslot hfind _ => exact h.aside hslot hfind hclock hcancel
  | sent _ hnone hnone' hfirst _ =>
      refine ⟨?_, ?_, ?_, ?_, ?_, hcancel⟩
      · intro s s' hs hs'
        obtain ⟨m, hm, hj, -⟩ := Slot.pends_iff.mp hs
        obtain ⟨m', hm', hj', -⟩ := Slot.pends_iff.mp hs'
        exact (hfirst s m hm hj).1.trans (hfirst s' m' hm' hj').1.symm
      · intro s m hm hj
        rw [(hfirst s m hm hj).2] at hm
        exact Option.some.inj hm ▸ Nat.zero_le _
      · intro s m hs hj
        have hnew := (hfirst s m (by rw [hs]; rfl) hj).2
        rw [hs, Slot.queued.injEq] at hnew
        exact .inl ⟨hnone', hnew ▸ rfl⟩
      · intro s m worker phase hs hj
        have hnew := (hfirst s m (by rw [hs]; rfl) hj).2
        rw [hs] at hnew
        cases hnew
      · intro r hr
        rw [hnone'] at hr
        cases hr
  | @landed c sub t hx hslots hnone hfind _ =>
      have hblank := (hbl c sub _ hx).row t
      refine ⟨hslots ▸ h.sole, hslots ▸ h.retries, ?_, ?_, ?_, hcancel⟩
      · intro s m hs hj
        rcases h.queued s m (hslots ▸ hs) hj with ⟨-, hzero⟩ | ⟨r, hr, -⟩
        · exact .inr ⟨_, hfind, .inl ⟨hzero, .inl hblank.status⟩⟩
        · rw [hnone] at hr
          cases hr
      · intro s m worker phase hs hj
        obtain ⟨r, hr, -⟩ := h.delivered s m worker phase (hslots ▸ hs) hj
        rw [hnone] at hr
        cases hr
      · intro r hr
        rw [hfind, Option.some.injEq] at hr
        subst hr
        refine ⟨hblank.coherent, ?_⟩
        intro t' ht'
        rw [hblank.startedAt] at ht'
        cases ht'
  | @cancelled c began hx hslots hfind _ =>
      have hpend : ∀ r, w.db.find j = some r → r.status = .pending := h.cancelling c _ hx nofun
      refine ⟨hslots ▸ h.sole, hslots ▸ h.retries, ?_, ?_, ?_, hcancel⟩
      · intro s m hs hj
        rcases h.queued s m (hslots ▸ hs) hj with ⟨hnone, hzero⟩ | ⟨r, hr, hawait⟩
        · exact .inl ⟨by rw [hfind, hnone]; rfl, hzero⟩
        · refine .inr ⟨_, by rw [hfind, hr]; rfl, ?_⟩
          rcases hawait with ⟨hzero, -⟩ | ⟨-, hrun, -⟩
          · exact .inl ⟨hzero, .inr rfl⟩
          · cases (hpend r hr).symm.trans hrun
      · intro s m worker phase hs hj
        obtain ⟨r, hr, hf⟩ := h.delivered s m worker phase (hslots ▸ hs) hj
        exact ⟨_, by rw [hfind, hr]; rfl, hf.cancel (hpend r hr) began⟩
      · intro r hr
        rw [hfind] at hr
        obtain ⟨r₀, hr₀, rfl⟩ := Option.map_eq_some_iff.mp hr
        obtain ⟨hc₀, hby⟩ := h.row r₀ hr₀
        exact ⟨hc₀.cancel (hpend r₀ hr₀) began, Job.StartedBy.mono hby hclock⟩
  | taken _ hqueued hj hrow hw =>
      subst hj hw
      exact h.taken hqueued hrow hcancel
  | worked hev hslot hj hover hp hdb hw =>
      subst hev hj hw
      obtain ⟨hok, hown, hcalls⟩ := hwork _ _ _ _ _ rfl hslot rfl
      exact h.worked hok hown hcalls hslot hover hp hdb

theorem Chained.step (h : Chained j w) (hg : Ground w) (hen : Enqueued w) (hcp : Copies w)
    (hbl : Blanks w) (hP : FaultFree w e) (hs : (system J).step w e = some w') :
    Chained j w' := by
  have he := step_cases hs
  refine h.move hbl (step_clock hs) (h.cancelling_step hg hP.cancels he) ?_
    (chain_once hg hen hcp hP.once he)
  rintro s i m worker phase rfl hslot -
  refine ⟨hP.ok hslot, ?_, ?_⟩
  · rintro delay rfl
    exact absurd hP.ownless Bool.false_ne_true
  · intro c pc hcall
    cases hP.cancels c (inCancel_of_eq hcall)

end Step

/-! ## Whole runs -/

/-- In every fault-free run, the columns of every row agree with its status, and no job has
two messages outstanding. -/
theorem rows_coherent {J : JsonCodec} {allowed : List String} {es : List Event} {w : World}
    (h : (system J).Run FaultFree (.init allowed) es w) :
    (∀ r ∈ w.db.rows, r.Coherent) ∧
      ∀ j s s', (w.slots s).pends j → (w.slots s').pends j → s = s' := by
  have hall : ∀ j, Chained j w := by
    intro j
    refine (run_invariant (I := fun w => (Enqueued w ∧ Copies w ∧ Blanks w) ∧ Chained j w) h
      (ground_init allowed) ⟨⟨enqueued_init allowed, copies_init allowed, blanks_init allowed⟩,
        chained_init j allowed⟩ ?_).2.2
    rintro w w' e hg ⟨⟨hen, hcp, hbl⟩, hch⟩ hP hs
    have he := step_cases hs
    exact ⟨⟨hen.step hg he, hcp.step hg.bounded he, hbl.step he⟩,
      hch.step hg hen hcp hbl hP hs⟩
  constructor
  · intro r hr
    exact ((hall r.id).row r (Store.find_eq_some.mpr ⟨hr, rfl⟩)).1
  · intro j
    exact (hall j).sole

/-- What `cancelsAtomic` asks of the first `n` calls. -/
def cancelsAtomicBelow (n : Nat) (w : World) (e : Event) : Bool :=
  decide (∀ c < n, (w.calls c).inCancel → e.call? = some c)

/-- A schedule of the first `n` calls is fault-free, if it is so among these. -/
theorem run_faultFree {J : JsonCodec} {n : Nat} {allowed : List String} {es : List Event}
    {w : World} (h : (system J).Run (fun w e => (writesWork w e ∧ ownless e ∧ deliversOnce w e) ∧
      cancelsAtomicBelow n w e ∧ e.within n) (.init allowed) es w) :
    (system J).Run FaultFree (.init allowed) es w := by
  refine h.imp (I := IdleFrom n) (fun hi hP hs => hi.step hP.2.2 hs) ?_ fun _ _ => rfl
  rintro w e hi ⟨⟨hwrites, hown, honce⟩, hcancels, -⟩
  refine ⟨hwrites, hown, honce, ?_⟩
  intro c
  by_cases hc : c < n
  · exact of_decide_eq_true hcancels c hc
  · rw [hi c (Nat.le_of_not_lt hc)]
    exact nofun

/-- One job is cancelled, and one goes to DLQ. -/
def coherentEvents : List Event :=
  createEvents 0 "k" ++ createEvents 1 "l" ++
    [.call 2 (.cancelJob 2), .api 2, .revoke 2 ["v"], .api 2, .api 2] ++
    startEvents 0 "v" ++ buryEvents 0 ++ [.take 1 "v"]

theorem rows_coherent_ping : ∃ w, (system nullCodec).exec pingWorld coherentEvents = some w ∧
    (w.db.rows.map Job.status = [.dlq, .cancelled] ∧ ∀ r ∈ w.db.rows, r.Coherent) ∧
    ∀ j s s', (w.slots s).pends j → (w.slots s').pends j → s = s' := by
  obtain ⟨w, hw, hrun, hobs⟩ := Machine.exists_run_obs (system nullCodec)
    (fun w e => (writesWork w e ∧ ownless e ∧ deliversOnce w e) ∧ cancelsAtomicBelow 3 w e ∧
      e.within 3) pingWorld coherentEvents (fun w => w.db.rows.map Job.status)
    [.dlq, .cancelled] (by decide) (by decide)
  obtain ⟨hrows, hsole⟩ := rows_coherent (run_faultFree hrun)
  exact ⟨w, hw, ⟨hobs, hrows⟩, hsole⟩

end Aegis
