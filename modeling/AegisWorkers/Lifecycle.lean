/-
# `AegisWorkers.Lifecycle` — the documented lifecycle, and the runs that follow it

`Job` documents its statuses as a graph (`Lifecycle`):

    PENDING → RUNNING → COMPLETED | FAILED → DLQ,   PENDING → CANCELLED

No writer looks at the status it overwrites, so whether a change follows the graph is a
matter of when the hooks run.  `orderly` is what it takes:

  * `before_start` runs while no other delivery of the job is in `on_failure`, on a
    committed row that is RUNNING, or PENDING and then its UPDATE does not fail;
  * `on_failure` starts on a RUNNING row while no other delivery of the job is between
    `before_start` and its last update, and does not write DLQ unless it has written FAILED;
  * `cancel_job` issues its UPDATE on a PENDING or CANCELLED row.

`on_success` needs no condition of its own: what the row is when it writes is part of the
invariant, `Agreed`.
-/
import AegisWorkers.Deliveries
import Mathlib.Logic.Relation

namespace Aegis

open BaseTask JobService ReadCommitted

/-! ## The lifecycle -/

/-- The edges of the documented lifecycle of a job. -/
inductive Lifecycle : JobStatus → JobStatus → Prop
  | start : Lifecycle .pending .running
  | complete : Lifecycle .running .completed
  | fail : Lifecycle .running .failed
  | bury : Lifecycle .failed .dlq
  | cancel : Lifecycle .pending .cancelled

namespace Lifecycle

theorem not_of_final {a b : JobStatus} (ha : a.final) : ¬ Lifecycle a b := by
  intro h
  cases h <;> cases ha

/-- A final status is absorbing. -/
theorem eq_of_final {a b : JobStatus} (h : Relation.ReflGen Lifecycle a b) (ha : a.final) :
    b = a := by
  cases h with
  | refl => rfl
  | single h => exact absurd h (not_of_final ha)

end Lifecycle

/-- The event changes the status of a row along an edge of the lifecycle, if at all. -/
def FollowsLifecycle (J : JsonCodec) (w : World) (e : Event) : Prop :=
  ∀ w', (system J).step w e = some w' → ∀ j r, w.db.find j = some r →
    ∃ r', w'.db.find j = some r' ∧ Relation.ReflGen Lifecycle r.status r'.status ∧
      (r.status.final → r'.status = r.status)

/-! ## The condition -/

/-- `before_start` has run, and the last status update of the delivery has not. -/
def Phase.writes : Phase → Bool
  | .started => true
  | .missed => true
  | .executing => true
  | .returned _ => true
  | .failing _ again .count => again
  | .failing _ _ _ => true
  | _ => false

/-- The next status update of the delivery comes before any `on_failure` that has yet to
start. -/
def Phase.edits : Phase → Bool
  | .started => true
  | .missed => true
  | .executing => true
  | .returned _ => true
  | .failing _ _ .failed => true
  | .failing _ _ .dlq => true
  | _ => false

/-- `on_failure` is between its publish and its last status update. -/
def Phase.buries : Phase → Bool
  | .failing _ _ .failed => true
  | .failing _ _ .dlq => true
  | _ => false

/-- The committed status of job `j`. -/
def World.status? (w : World) (j : Uuid) : Option JobStatus := (w.db.find j).map Job.status

def orderly (w : World) : Event → Bool
  | .api c =>
      match w.calls c with
      | .cancelJob jobId (.revoked _) =>
          decide (∀ st ∈ w.status? jobId, st = .pending ∨ st = .cancelled)
      | _ => true
  | .work s i =>
      match w.slots s with
      | .delivered m _ .received =>
          decide ((w.status? m.jobId = some .running ∨ w.status? m.jobId = some .pending ∧ i.ok) ∧
            ∀ s' < w.nextSlot, ¬ (w.slots s').inPhase Phase.buries Message.jobId m.jobId)
      | .delivered m _ (.failing _ _ .send) =>
          decide (w.status? m.jobId = some .running ∧
            ∀ s' < w.nextSlot, (w.slots s').inPhase Phase.writes Message.jobId m.jobId → s' = s)
      | .delivered m _ (.failing _ _ .dlq) => decide (i.ok → w.status? m.jobId = some .failed)
      | _ => true
  | _ => true

/-! ## The invariant -/

/-- What the row of a delivery's job can be, by the phase the delivery is in. -/
def Phase.admits : Phase → JobStatus → Bool
  | .started, st => st = .running || st = .completed
  | .missed, st => st = .running || st = .completed
  | .executing, st => st = .running || st = .completed
  | .returned _, st => st = .running || st = .completed
  | .failing _ _ .failed, st => st = .running
  | .failing _ _ .dlq, st => st = .running || st = .failed
  | _, _ => true

structure Agreed (j : Uuid) (w : World) : Prop where
  row : ∀ s m worker phase, w.slots s = .delivered m worker phase → m.jobId = j →
    phase.edits → ∃ r, w.db.find j = some r ∧ phase.admits r.status
  sole : ∀ s s', (w.slots s).inPhase Phase.buries Message.jobId j →
    (w.slots s').inPhase Phase.edits Message.jobId j → s' = s
  held : ∀ c, w.calls c = .cancelJob j .updated →
    ∀ r, w.db.find j = some r → r.status = .pending ∨ r.status = .cancelled

theorem agreed_init (j : Uuid) (allowed : List String) : Agreed j (.init allowed) where
  row _ _ _ _ h := nomatch h
  sole _ _ h := absurd h Bool.false_ne_true
  held _ h := nomatch h

section Phase
variable {J : JsonCodec} {m : Message} {worker : Worker} {cached : Option String} {now : Time}
  {phase phase' : Phase} {i : Input} {eff : Effects}

theorem Phase.writes_of_edits (h : phase.edits) : phase.writes := by
  cases phase with
  | failing exc again stage =>
      cases stage with
      | failed => rfl
      | dlq => rfl
      | _ => cases h
  | started => rfl
  | missed => rfl
  | executing => rfl
  | returned v => rfl
  | _ => cases h

theorem Phase.edits_of_buries (h : phase.buries) : phase.edits := by
  cases phase with
  | failing exc again stage =>
      cases stage with
      | failed => rfl
      | dlq => rfl
      | _ => cases h
  | _ => cases h

/-- A delivery comes to edit its row by `before_start`, or by the publish of `on_failure`. -/
theorem Piece.edits (h : Piece J m worker cached now phase i eff) (hn : eff.next = some phase')
    (hw : phase'.edits) : phase = .received ∨ phase.edits ∨
      ∃ exc again, phase = .failing exc again .send ∧ phase' = .failing exc again .failed ∧
        eff.write = none := by
  cases h with
  | start => exact .inl rfl
  | startFails exc => exact .inl rfl
  | miss _ => exact .inr (.inl rfl)
  | hit v _ => exact .inr (.inl rfl)
  | execute => exact .inr (.inl rfl)
  | returns v => exact .inr (.inl rfl)
  | undecodable _ => exact (next_not hn hw (by split <;> rfl) rfl).elim
  | lookupFails exc => exact (next_not hn hw (by split <;> rfl) rfl).elim
  | retryFails delay exc => exact (next_not hn hw (by split <;> rfl) rfl).elim
  | failure exc again stage =>
      cases stage with
      | send => exact .inr (.inr ⟨exc, again, rfl, (Option.some.inj hn).symm, rfl⟩)
      | count => exact (next_not hn hw (by split <;> rfl) rfl).elim
      | _ => exact .inr (.inl rfl)
  | failureFails exc exc' again stage _ =>
      cases stage with
      | send => exact .inr (.inr ⟨exc, again, rfl, (Option.some.inj hn).symm, rfl⟩)
      | count => exact (next_not hn hw (by split <;> rfl) rfl).elim
      | _ => exact .inr (.inl rfl)
  | ack => cases hn
  | _ => exact (next_not hn hw rfl rfl).elim

/-- A delivery comes to bury its job by the publish of `on_failure`. -/
theorem Piece.buries (h : Piece J m worker cached now phase i eff) (hn : eff.next = some phase')
    (hb : phase'.buries) : phase.buries ∨ ∃ exc again, phase = .failing exc again .send := by
  cases h with
  | failure exc again stage =>
      cases stage with
      | send => exact .inr ⟨exc, again, rfl⟩
      | failed => exact .inl rfl
      | dlq => exact .inl rfl
      | count => exact (next_not hn hb (by split <;> rfl) rfl).elim
  | failureFails exc exc' again stage _ =>
      cases stage with
      | send => exact .inr ⟨exc, again, rfl⟩
      | failed => exact .inl rfl
      | dlq => exact .inl rfl
      | count => exact (next_not hn hb (by split <;> rfl) rfl).elim
  | retryFails delay exc => exact (next_not hn hb (by split <;> rfl) rfl).elim
  | undecodable _ => exact (next_not hn hb (by split <;> rfl) rfl).elim
  | lookupFails exc => exact (next_not hn hb (by split <;> rfl) rfl).elim
  | ack => cases hn
  | _ => exact (next_not hn hb rfl rfl).elim

/-- A delivery that has started does not admit a row that has not, unless it admits all. -/
theorem Phase.admits_of_unstarted {st st' : JobStatus} (h : phase.admits st)
    (hst : st = .pending ∨ st = .cancelled) : phase.admits st' := by
  cases phase with
  | failing exc again stage =>
      cases stage with
      | send => rfl
      | failed => rcases hst with rfl | rfl <;> exact absurd h Bool.false_ne_true
      | dlq => rcases hst with rfl | rfl <;> exact absurd h Bool.false_ne_true
      | count => rfl
  | started => rcases hst with rfl | rfl <;> exact absurd h Bool.false_ne_true
  | missed => rcases hst with rfl | rfl <;> exact absurd h Bool.false_ne_true
  | executing => rcases hst with rfl | rfl <;> exact absurd h Bool.false_ne_true
  | returned v => rcases hst with rfl | rfl <;> exact absurd h Bool.false_ne_true
  | _ => rfl

theorem Phase.admits_of_not_buries {st : JobStatus} (hb : ¬ phase.buries)
    (hst : st = .running ∨ st = .completed) : phase.admits st := by
  cases phase with
  | failing exc again stage =>
      cases stage with
      | send => rfl
      | failed => exact absurd rfl hb
      | dlq => exact absurd rfl hb
      | count => rfl
  | _ => rcases hst with rfl | rfl <;> rfl

/-- The status of a row after the update that a piece issues for it. -/
def BaseTask.Effects.rewrites (eff : Effects) (st : JobStatus) : JobStatus :=
  match eff.write with
  | some wr => if wr.ok then wr.status else st
  | none => st

/-- `before_start` leaves a row that its delivery admits. -/
theorem Piece.admits_start (h : Piece J m worker cached now .received i eff)
    (hn : eff.next = some phase') {st : JobStatus}
    (hst : st = .running ∨ st = .pending ∧ i.ok) : phase'.admits (eff.rewrites st) := by
  cases h with
  | start =>
      obtain rfl := Option.some.inj hn
      rfl
  | startFails exc =>
      obtain rfl := Option.some.inj hn
      rcases hst with rfl | ⟨-, hok⟩
      · rfl
      · cases hok

/-- What a delivery writes is what it admits afterwards. -/
theorem Piece.admits (h : Piece J m worker cached now phase i eff) (hn : eff.next = some phase')
    (hw : phase.edits) (hw' : phase'.edits) {st : JobStatus} (hst : phase.admits st) :
    phase'.admits (eff.rewrites st) := by
  cases h with
  | miss _ => obtain rfl := Option.some.inj hn; exact hst
  | hit v _ => obtain rfl := Option.some.inj hn; exact hst
  | execute => obtain rfl := Option.some.inj hn; exact hst
  | returns v => obtain rfl := Option.some.inj hn; exact hst
  | undecodable _ => exact (next_not hn hw' (by split <;> rfl) rfl).elim
  | lookupFails exc => exact (next_not hn hw' (by split <;> rfl) rfl).elim
  | failure exc again stage =>
      cases stage with
      | failed =>
          obtain rfl := Option.some.inj hn
          rfl
      | dlq => obtain rfl := Option.some.inj hn; cases hw'
      | _ => cases hw
  | failureFails exc exc' again stage _ =>
      cases stage with
      | failed =>
          obtain rfl := Option.some.inj hn
          obtain rfl := of_decide_eq_true hst
          rfl
      | dlq => obtain rfl := Option.some.inj hn; cases hw'
      | _ => cases hw
  | invalid exc => obtain rfl := Option.some.inj hn; cases hw'
  | exhausted exc _ => obtain rfl := Option.some.inj hn; cases hw'
  | again exc _ => obtain rfl := Option.some.inj hn; cases hw'
  | ownRetry delay _ => obtain rfl := Option.some.inj hn; cases hw'
  | success v => obtain rfl := Option.some.inj hn; cases hw'
  | successFails v exc => obtain rfl := Option.some.inj hn; cases hw'
  | _ => cases hw

end Phase

/-! ## Preservation -/

section Step
variable {J : JsonCodec} {w w' : World} {e : Event} {j : Uuid}

theorem World.status?_eq_some {st : JobStatus} :
    w.status? j = some st ↔ ∃ r, w.db.find j = some r ∧ r.status = st :=
  Option.map_eq_some_iff

/-- The status of a row after a piece of a delivery of its job. -/
theorem find_rewrites {eff : Effects} {db : Db} (hdb : w.write j eff.write = some db) {r : Job}
    (hr : w.db.find j = some r) :
    ∃ r', db.find j = some r' ∧ r'.status = eff.rewrites r.status := by
  refine ⟨_, find_patched hdb hr, ?_⟩
  cases hw : eff.write with
  | none => simp only [Effects.patched, Effects.rewrites, hw]
  | some wr => cases hok : wr.ok <;> simp [Effects.patched, Effects.rewrites, hw, hok, values]

/-- What `orderly` says of a `before_start`. -/
theorem orderly_start {s : SlotId} {i : Input} {m : Message} {worker : Worker}
    (hg : Ground w) (hP : orderly w (.work s i)) (hs : w.slots s = .delivered m worker .received) :
    (∃ r, w.db.find m.jobId = some r ∧ (r.status = .running ∨ r.status = .pending ∧ i.ok)) ∧
      ∀ s', ¬ (w.slots s').inPhase Phase.buries Message.jobId m.jobId := by
  simp only [orderly, hs] at hP
  obtain ⟨hst, hfree⟩ := of_decide_eq_true hP
  refine ⟨?_, ?_⟩
  · rcases hst with hst | ⟨hst, hok⟩
    · obtain ⟨r, hr, hst⟩ := World.status?_eq_some.mp hst
      exact ⟨r, hr, .inl hst⟩
    · obtain ⟨r, hr, hst⟩ := World.status?_eq_some.mp hst
      exact ⟨r, hr, .inr ⟨hst, hok⟩⟩
  · intro s' hin
    exact hfree s' (hg.bounded.lt_of_inPhase hin) hin

/-- What `orderly` says of the start of `on_failure`. -/
theorem orderly_failure {s : SlotId} {i : Input} {m : Message} {worker : Worker} {exc : Exc}
    {again : Bool} (hg : Ground w) (hP : orderly w (.work s i))
    (hs : w.slots s = .delivered m worker (.failing exc again .send)) :
    (∃ r, w.db.find m.jobId = some r ∧ r.status = .running) ∧
      ∀ s', (w.slots s').inPhase Phase.writes Message.jobId m.jobId → s' = s := by
  simp only [orderly, hs] at hP
  obtain ⟨hst, hsole⟩ := of_decide_eq_true hP
  refine ⟨World.status?_eq_some.mp hst, ?_⟩
  intro s' hin
  exact hsole s' (hg.bounded.lt_of_inPhase hin) hin

/-- The row of the job of the delivery that makes the step. -/
theorem Agreed.row_work (h : Agreed j w) (hg : Ground w) {s : SlotId} {i : Input} {m : Message}
    {worker : Worker} {phase phase' : Phase} {eff : Effects} (hP : orderly w (.work s i))
    (hs : w.slots s = .delivered m worker phase) (hj : m.jobId = j)
    (hp : Piece J m worker (w.cache (cacheKey m.idempotencyKey)) w.clock phase i eff)
    (hn : eff.next = some phase') (hdb : w.write m.jobId eff.write = some w'.db)
    (hw : phase'.edits) : ∃ r, w'.db.find j = some r ∧ phase'.admits r.status := by
  subst hj
  rcases hp.edits hn hw with rfl | hw₀ | ⟨exc, again, rfl, rfl, hnone⟩
  · obtain ⟨⟨r, hr, hst⟩, -⟩ := orderly_start hg hP hs
    obtain ⟨r', hr', hst'⟩ := find_rewrites hdb hr
    refine ⟨r', hr', ?_⟩
    rw [hst']
    exact hp.admits_start hn hst
  · obtain ⟨r, hr, ha⟩ := h.row s m worker phase hs rfl hw₀
    obtain ⟨r', hr', hst'⟩ := find_rewrites hdb hr
    refine ⟨r', hr', ?_⟩
    rw [hst']
    exact hp.admits hn hw₀ hw ha
  · obtain ⟨⟨r, hr, hst⟩, -⟩ := orderly_failure hg hP hs
    obtain ⟨r', hr', hst'⟩ := find_rewrites hdb hr
    refine ⟨r', hr', ?_⟩
    rw [hst', hst, Effects.rewrites, hnone]
    rfl

/-- The row of the job of a delivery that stands still. -/
theorem Agreed.row_other (h : Agreed j w) (hg : Ground w) (hP : orderly w e)
    (he : SysStep J w e w') {s : SlotId} {m : Message} {worker : Worker} {phase : Phase}
    (hne : ∀ i, e ≠ .work s i) (hs : w.slots s = .delivered m worker phase) (hj : m.jobId = j)
    (hw : phase.edits) : ∃ r, w'.db.find j = some r ∧ phase.admits r.status := by
  obtain ⟨r, hr, ha⟩ := h.row s m worker phase hs hj hw
  have hin : (w.slots s).inPhase Phase.edits Message.jobId j :=
    Slot.inPhase_iff.mpr ⟨_, _, _, hs, hj, hw⟩
  cases he.row hg j with
  | stays hf => exact ⟨r, hf.trans hr, ha⟩
  | landed _ _ _ hnone _ => rw [hr] at hnone; cases hnone
  | cancelled _ hx hf =>
      rw [hr] at hf
      exact ⟨_, hf, Phase.admits_of_unstarted ha (h.held _ hx r hr)⟩
  | @written s₁ i₁ m₁ worker₁ phase₁ eff₁ wr hev hs₁ hp₁ hwr _ hj₁ _ hf =>
      subst hev
      have hs₁ne : s₁ ≠ s := fun hss => hne i₁ (hss ▸ rfl)
      -- the writer is not in `on_failure`, since `s` edits, nor `s`, since the writer does
      have hfree : (∀ {s' : SlotId}, (w.slots s').inPhase Phase.buries Message.jobId j → s' ≠ s) →
          ¬ phase.buries := by
        intro hno hb
        exact hno (Slot.inPhase_iff.mpr ⟨_, _, _, hs, hj, hb⟩) rfl
      have hother : phase₁.buries → False := by
        intro hb
        exact hs₁ne (h.sole s₁ s (Slot.inPhase_iff.mpr ⟨_, _, _, hs₁, hj₁, hb⟩) hin).symm
      rw [hr] at hf
      refine ⟨_, hf, ?_⟩
      show phase.admits wr.status
      cases hp₁.write hwr with
      | start hst _ _ =>
          obtain ⟨-, hno⟩ := orderly_start hg hP hs₁
          rw [hj₁] at hno
          exact Phase.admits_of_not_buries (hfree fun hb => absurd hb (hno _)) (.inl hst)
      | success v hst _ _ =>
          refine Phase.admits_of_not_buries ?_ (.inr hst)
          intro hb
          exact hs₁ne (h.sole s s₁ (Slot.inPhase_iff.mpr ⟨_, _, _, hs, hj, hb⟩)
            (Slot.inPhase_iff.mpr ⟨_, _, _, hs₁, hj₁, rfl⟩))
      | failed exc again _ _ _ => exact (hother rfl).elim
      | dlq exc again _ _ _ => exact (hother rfl).elim

/-- A delivery that edits its row after the step did so before, or has started, or come to
`on_failure`, just now. -/
theorem edits_step (hg : Ground w) (hP : orderly w e) (he : SysStep J w e w') {s : SlotId}
    (hw : (w'.slots s).inPhase Phase.edits Message.jobId j) :
    (w.slots s).inPhase Phase.edits Message.jobId j ∨
      (∃ i, e = .work s i) ∧ ∀ s', ¬ (w.slots s').inPhase Phase.buries Message.jobId j := by
  obtain ⟨m, worker, phase', hs, rfl, hphase⟩ := Slot.inPhase_iff.mp hw
  cases he.delivered hg.bounded hs with
  | stays _ hs₀ => exact .inl (Slot.inPhase_iff.mpr ⟨_, _, _, hs₀, rfl, hphase⟩)
  | taken _ _ hr => rw [hr] at hphase; cases hphase
  | advanced hev hs₀ hp hn _ =>
      subst hev
      rcases hp.edits hn hphase with rfl | hw₀ | ⟨exc, again, rfl, -, -⟩
      · exact .inr ⟨⟨_, rfl⟩, (orderly_start hg hP hs₀).2⟩
      · exact .inl (Slot.inPhase_iff.mpr ⟨_, _, _, hs₀, rfl, hw₀⟩)
      · refine .inr ⟨⟨_, rfl⟩, ?_⟩
        intro s' hb
        obtain ⟨m', worker', phase, hs', hj', hphase'⟩ := Slot.inPhase_iff.mp hb
        obtain rfl := (orderly_failure hg hP hs₀).2 s' (Slot.inPhase_iff.mpr
          ⟨m', worker', phase, hs', hj', Phase.writes_of_edits (Phase.edits_of_buries hphase')⟩)
        rw [hs₀, Slot.delivered.injEq] at hs'
        rw [← hs'.2.2] at hphase'
        cases hphase'

/-- A delivery that buries its job after the step did so before, or was the only one that had
started. -/
theorem buries_step (hg : Ground w) (hP : orderly w e) (he : SysStep J w e w') {s : SlotId}
    (hb : (w'.slots s).inPhase Phase.buries Message.jobId j) :
    (w.slots s).inPhase Phase.buries Message.jobId j ∨
      (∃ i, e = .work s i) ∧ ∀ s', (w.slots s').inPhase Phase.edits Message.jobId j → s' = s := by
  obtain ⟨m, worker, phase', hs, rfl, hphase⟩ := Slot.inPhase_iff.mp hb
  cases he.delivered hg.bounded hs with
  | stays _ hs₀ => exact .inl (Slot.inPhase_iff.mpr ⟨_, _, _, hs₀, rfl, hphase⟩)
  | taken _ _ hr => rw [hr] at hphase; cases hphase
  | advanced hev hs₀ hp hn _ =>
      subst hev
      rcases hp.buries hn hphase with hb₀ | ⟨exc, again, rfl⟩
      · exact .inl (Slot.inPhase_iff.mpr ⟨_, _, _, hs₀, rfl, hb₀⟩)
      · refine .inr ⟨⟨_, rfl⟩, ?_⟩
        intro s' hin
        obtain ⟨m', worker', phase, hs', hj', hphase'⟩ := Slot.inPhase_iff.mp hin
        exact (orderly_failure hg hP hs₀).2 s' (Slot.inPhase_iff.mpr
          ⟨m', worker', phase, hs', hj', Phase.writes_of_edits hphase'⟩)

theorem Agreed.sole_step (h : Agreed j w) (hg : Ground w) (hP : orderly w e)
    (he : SysStep J w e w') {s s' : SlotId} (hb : (w'.slots s).inPhase Phase.buries Message.jobId j)
    (hw : (w'.slots s').inPhase Phase.edits Message.jobId j) : s' = s := by
  rcases buries_step hg hP he hb with hb₀ | ⟨⟨i, hi⟩, hsole⟩
  · rcases edits_step hg hP he hw with hw₀ | ⟨-, hfree⟩
    · exact h.sole s s' hb₀ hw₀
    · exact absurd hb₀ (hfree s)
  · rcases edits_step hg hP he hw with hw₀ | ⟨⟨i', hi'⟩, -⟩
    · exact hsole s' hw₀
    · rw [hi] at hi'
      exact (Event.work.inj hi').1.symm

/-- A call comes to hold the row of `j` by its UPDATE. -/
theorem ApiStep.updated {c : CallId} (h : ApiStep w c w')
    (hc : w'.calls c = .cancelJob j .updated) :
    ∃ began, w.calls c = .cancelJob j (.revoked began) ∧ w'.db.rows = w.db.rows := by
  cases h with
  | enter op _ =>
      rw [calls_setCall_self] at hc
      have hx := enter_cases w.allowedTaskNames op
      rw [hc] at hx
      cases hx
  | @move y hl =>
      rw [calls_setCall_self] at hc
      rw [hc] at hl
      generalize w.calls c = x at hl
      cases hl
  | @lock jobId began db hx hl =>
      rw [calls_setCall_self, Call.cancelJob.injEq] at hc
      obtain ⟨rfl, -⟩ := hc
      obtain ⟨rfl, -⟩ := Store.lock_eq_some hl
      exact ⟨began, hx, rfl⟩
  | _ => simp at hc

/-- The UPDATE of a call is issued by the call itself. -/
theorem event_of_updated {c : CallId} {began : Time} (he : e.call? = some c)
    (hs : (system J).step w e = some w') (hx : w.calls c = .cancelJob j (.revoked began))
    (hc : w'.calls c = .cancelJob j .updated) : e = .api c := by
  cases e with
  | api c' => exact congrArg Event.api (Option.some.inj he)
  | call c' op =>
      obtain rfl := Option.some.inj he
      obtain ⟨hidle, -⟩ := call_eq_some hs
      rw [hx] at hidle
      cases hidle
  | revoke c' receivers =>
      obtain rfl := Option.some.inj he
      obtain ⟨_, _, _, _, hchecked, -, -⟩ := revoke_eq_some hs
      rw [hx] at hchecked
      cases hchecked
  | apiFail c' =>
      obtain rfl := Option.some.inj he
      obtain ⟨op, -, rfl⟩ := apiFail_cases hs
      simp at hc
  | _ => cases he

theorem Agreed.held_step (h : Agreed j w) (hg : Ground w) (hP : orderly w e)
    (hs : (system J).step w e = some w') {c : CallId} (hc : w'.calls c = .cancelJob j .updated)
    {r : Job} (hr : w'.db.find j = some r) : r.status = .pending ∨ r.status = .cancelled := by
  by_cases hold : w.calls c = .cancelJob j .updated
  · obtain ⟨l, hl, hlj⟩ := hg.sessions.holds hold
    cases (step_cases hs).row hg j with
    | stays hf => exact h.held c hold r (hf ▸ hr)
    | landed _ hx _ _ hf =>
        rw [hr, Option.some.injEq] at hf
        subst hf
        exact .inl (hg.submissions.coherent _ _ _ hx).pending
    | cancelled _ _ hf =>
        rw [hf] at hr
        obtain ⟨r₀, -, rfl⟩ := Option.map_eq_some_iff.mp hr
        exact .inr rfl
    | written _ _ _ _ _ _ hfree _ => exact absurd hlj (hfree l hl)
  · by_cases he : e.call? = some c
    · obtain ⟨began, hx, hrows⟩ := (step_api he hs).updated hc
      obtain rfl := event_of_updated he hs hx hc
      simp only [orderly, hx] at hP
      rw [find_eq_of_rows hrows] at hr
      exact of_decide_eq_true hP r.status (World.status?_eq_some.mpr ⟨r, hr, rfl⟩)
    · rw [step_calls_ne he hs] at hc
      exact absurd hc hold

theorem Agreed.step (h : Agreed j w) (hg : Ground w) (hP : orderly w e)
    (hs : (system J).step w e = some w') : Agreed j w' := by
  have he := step_cases hs
  constructor
  · intro s m worker phase hs' hj hw
    cases he.delivered hg.bounded hs' with
    | stays hne hs₀ => exact h.row_other hg hP he hne hs₀ hj hw
    | taken _ _ hr => rw [hr] at hw; cases hw
    | advanced hev hs₀ hp hn hdb =>
        subst hev
        exact h.row_work hg hP hs₀ hj hp hn hdb hw
  · intro s s' hb hw
    exact h.sole_step hg hP he hb hw
  · intro c hc r hr
    exact h.held_step hg hP hs hc hr

/-- What the invariant is for: a change of status is an edge. -/
theorem Agreed.edge (h : Agreed j w) (hg : Ground w) (hP : orderly w e) (he : SysStep J w e w')
    {r : Job} (hr : w.db.find j = some r) :
    ∃ r', w'.db.find j = some r' ∧ Relation.ReflGen Lifecycle r.status r'.status := by
  cases he.row hg j with
  | stays hf => exact ⟨r, hf.trans hr, .refl⟩
  | landed _ _ _ hnone _ => rw [hr] at hnone; cases hnone
  | cancelled _ hx hf =>
      rw [hr] at hf
      refine ⟨_, hf, ?_⟩
      show Relation.ReflGen Lifecycle r.status .cancelled
      rcases h.held _ hx r hr with hst | hst
      · rw [hst]; exact .single .cancel
      · rw [hst]
  | @written s i m worker phase eff wr hev hs hp hwr hok hj _ hf =>
      subst hev hj
      rw [hr] at hf
      refine ⟨_, hf, ?_⟩
      show Relation.ReflGen Lifecycle r.status wr.status
      have hrow : phase.edits → phase.admits r.status := by
        intro hw
        obtain ⟨r₀, hr₀, ha⟩ := h.row s m worker phase hs rfl hw
        rw [hr, Option.some.injEq] at hr₀
        exact hr₀ ▸ ha
      cases hp.write hwr with
      | start hst _ _ =>
          obtain ⟨⟨r₀, hr₀, hst₀⟩, -⟩ := orderly_start hg hP hs
          rw [hr, Option.some.injEq] at hr₀
          subst hr₀
          rw [hst]
          rcases hst₀ with hst₀ | ⟨hst₀, -⟩
          · rw [hst₀]
          · rw [hst₀]; exact .single .start
      | success v hst _ _ =>
          have ha := hrow rfl
          rw [Phase.admits, Bool.or_eq_true, decide_eq_true_eq, decide_eq_true_eq] at ha
          rw [hst]
          rcases ha with ha | ha
          · rw [ha]; exact .single .complete
          · rw [ha]
      | failed exc again hst _ _ =>
          rw [hst, of_decide_eq_true (hrow rfl)]
          exact .single .fail
      | dlq exc again hst _ _ =>
          simp only [orderly, hs] at hP
          have hfailed := of_decide_eq_true hP ((hp.write_ok hwr).mp hok)
          rw [World.status?, hr, Option.map_some, Option.some.injEq] at hfailed
          rw [hst, hfailed]
          exact .single .bury

end Step

/-! ## Whole runs -/

/-- In an orderly run every change of a row's status is an edge of the lifecycle, and none
takes a row out of COMPLETED or DLQ. -/
theorem lifecycle_followed {J : JsonCodec} {allowed : List String} {es : List Event} {w : World}
    (h : (system J).Run (fun w e => orderly w e) (.init allowed) es w) :
    (system J).Along (FollowsLifecycle J) (.init allowed) es := by
  refine h.along (I := fun w => Ground w ∧ ∀ j, Agreed j w) ?_ ?_
    ⟨ground_init allowed, fun j => agreed_init j allowed⟩
  · rintro w w' e ⟨hg, ha⟩ hP hs
    exact ⟨hg.step (step_cases hs), fun j => (ha j).step hg hP hs⟩
  · rintro w e ⟨hg, ha⟩ hP w' hs j r hr
    obtain ⟨r', hr', hedge⟩ := (ha j).edge hg hP (step_cases hs) hr
    exact ⟨r', hr', hedge, Lifecycle.eq_of_final hedge⟩

/-- Two deliveries overlap, and both succeed. -/
theorem lifecycle_followed_ping : (system nullCodec).Along (FollowsLifecycle nullCodec) pingWorld
    (createEvents 0 "k" ++ startEvents 0 "v" ++ [.redeliver 0] ++ startEvents 1 "u" ++
      finishEvents 1 ++ finishEvents 0) := by
  obtain ⟨w, -, hrun⟩ := Machine.exists_run (system nullCodec) (fun w e => orderly w e) pingWorld
    (createEvents 0 "k" ++ startEvents 0 "v" ++ [.redeliver 0] ++ startEvents 1 "u" ++
      finishEvents 1 ++ finishEvents 0) (by decide) (by decide)
  exact lifecycle_followed hrun

/-- A worker is killed after `on_success` has written COMPLETED; the message is delivered
again, and `before_start` writes RUNNING. -/
theorem lifecycle_left : ∃ w w' r r',
    (system nullCodec).exec pingWorld (createEvents 0 "k" ++ startEvents 0 "v" ++
      (finishEvents 0).take 2 ++ [.crash 0, .take 0 "u"]) = some w ∧
    (system nullCodec).step w (.work 0 .returns) = some w' ∧
    w.db.find 0 = some r ∧ w'.db.find 0 = some r' ∧
    r.status = .completed ∧ r'.status = .running ∧ ¬ FollowsLifecycle nullCodec w
      (.work 0 .returns) := by
  have hobs : ((system nullCodec).exec pingWorld (createEvents 0 "k" ++ startEvents 0 "v" ++
      (finishEvents 0).take 2 ++ [.crash 0, .take 0 "u"])).map (fun w => (w.status? 0,
        ((system nullCodec).step w (.work 0 .returns)).map fun w' => w'.status? 0)) =
      some (some .completed, some (some .running)) := by decide
  obtain ⟨w, hw, hst⟩ := Option.map_eq_some_iff.mp hobs
  rw [Prod.mk.injEq] at hst
  obtain ⟨r, hr, hcompleted⟩ := World.status?_eq_some.mp hst.1
  obtain ⟨w', hw', hst'⟩ := Option.map_eq_some_iff.mp hst.2
  obtain ⟨r', hr', hrunning⟩ := World.status?_eq_some.mp hst'
  refine ⟨w, w', r, r', hw, hw', hr, hr', hcompleted, hrunning, ?_⟩
  intro h
  obtain ⟨r₀, hr₀, -, hfinal⟩ := h w' hw' 0 r hr
  rw [hr', Option.some.injEq] at hr₀
  have hsame := hfinal (by rw [hcompleted]; rfl)
  rw [← hr₀, hrunning, hcompleted] at hsame
  cases hsame

end Aegis
