/-
# `AegisWorkers.Custody` — nobody loses the job

A committed job is in somebody's custody: a message of it is queued, or a worker
holds one and still owes it an outcome, or the last status update issued for it
was COMPLETED or DLQ.  This is `Custody.alive`, and it is kept by every step, by
crashes at any point, by redeliveries and by every failure of an external call, as
long as nobody cancels the job.

What the row says is another matter.  It holds the target of the last update that
succeeded (`Tracked`), if no delivery starts before the row is committed; an update
issued before that matches no row and is lost, and `Missed` is what remains of it.

    startsCommitted j   `before_start` of the job runs only on a committed row
    uncancelled j       nobody calls `cancel_job` on the job
    responsive          no external call of a worker raises
-/
import AegisWorkers.Deliveries

namespace Aegis

open BaseTask JobService ReadCommitted

/-! ## Policies -/

/-- `before_start` of a delivery of job `j` runs only when the row is committed. -/
def startsCommitted (j : Uuid) (w : World) : Event → Bool
  | .work s _ =>
      match w.slots s with
      | .delivered m _ .received => decide (m.jobId = j → (w.db.find j).isSome)
      | _ => true
  | _ => true

/-- Nobody calls `cancel_job` on job `j`. -/
def uncancelled (j : Uuid) : Event → Bool
  | .call _ (.cancelJob jobId) => decide (jobId ≠ j)
  | _ => true

/-- No message of job `j` is rejected: the publish of its retry fails at most in `run()`. -/
def unrejected (j : Uuid) (w : World) : Event → Bool
  | .work s i =>
      match w.slots s with
      | .delivered m _ phase => !(decide (m.jobId = j) && phase.rejects i)
      | _ => true
  | _ => true

/-- No external call of a worker raises. -/
def responsive : Event → Bool
  | .work _ (.raises _) => false
  | _ => true

/-- No external call fails, and nothing is delivered twice. -/
def smooth : Event → Bool
  | .apiFail _ => false
  | .work _ (.raises _) => false
  | .crash _ => false
  | .redeliver _ => false
  | .updateDlqMetrics ok => ok
  | _ => true

/-! ## Live messages -/

/-- The slot holds a message of job `j` that still owes it an outcome. -/
def Slot.live (j : Uuid) : Slot → Bool
  | .empty => false
  | .queued m => m.jobId = j
  | .delivered m _ phase => m.jobId = j && phase.live

theorem Slot.jobId?_of_live {j : Uuid} {x : Slot} (h : x.live j) : x.jobId? = some j := by
  cases x with
  | empty => cases h
  | queued m => exact congrArg some (of_decide_eq_true h)
  | delivered m worker phase =>
      rw [Slot.live, Bool.and_eq_true, decide_eq_true_eq] at h
      exact congrArg some h.1

theorem live_queued {j : Uuid} {m : Message} (h : m.jobId = j) : (Slot.queued m).live j :=
  decide_eq_true h

theorem live_delivered {j : Uuid} {m : Message} {worker : Worker} {phase : Phase}
    (h : m.jobId = j) (hl : phase.live) : (Slot.delivered m worker phase).live j := by
  rw [Slot.live, Bool.and_eq_true, decide_eq_true_eq]
  exact ⟨h, hl⟩

/-! ## Custody -/

/-- Job `j` is not being cancelled, and no worker has heard of a revocation of it. -/
structure Spared (j : Uuid) (w : World) : Prop where
  uncalled : ∀ c pc, w.calls c ≠ .cancelJob j pc
  unrevoked : ∀ worker, ∀ t ∈ w.heard worker, ∃ m ∈ w.published, m.id = t ∧ m.jobId ≠ j

theorem spared_init (j : Uuid) (allowed : List String) : Spared j (.init allowed) where
  uncalled _ _ := nofun
  unrevoked _ _ h := nomatch h

/-- Once job `j` is published it is live, or the last status update issued for it is final. -/
def Custody (j : Uuid) (w : World) : Prop :=
  w.publishedFor j ≠ [] → (∃ st, w.issued j = some st ∧ st.final) ∨ ∃ s, (w.slots s).live j

theorem custody_init (j : Uuid) (allowed : List String) : Custody j (.init allowed) :=
  fun h => absurd rfl h

section Custody
variable {J : JsonCodec} {w w' : World} {e : Event} {j : Uuid}

/-- No worker drops a message of a job that nobody cancels. -/
theorem Spared.not_revoked (h : Spared j w) (hen : Enqueued w) (hcp : Copies w) {s : SlotId}
    {m : Message} (hs : w.slots s = .queued m) (hj : m.jobId = j) (worker : Worker) :
    m.id ∉ w.heard worker := by
  intro hmem
  obtain ⟨m₁, hm₁, hid₁, hj₁⟩ := h.unrevoked worker m.id hmem
  obtain ⟨m₀, hm₀, hcopy⟩ := hcp s m (by rw [hs]; rfl)
  obtain rfl : m₀ = m₁ := hen.unique m₀ hm₀ m₁ hm₁ (hcopy.id.symm.trans hid₁.symm)
  exact hj₁ (hcopy.jobId.symm.trans hj)

/-- A message published by a piece of a delivery waits in the slot it was given. -/
theorem slot_of_queue {s : SlotId} {m m' : Message} {worker : Worker} {phase : Phase}
    {eff : Effects} {db : Db} (hb : Bounded w) (hs : w.slots s = .delivered m worker phase)
    (hq : eff.queue = some m') :
    (w.apply J s m worker eff db).slots w.nextSlot = .queued m' := by
  have hlt : s < w.nextSlot := by
    refine hb.lt ?_
    intro hempty
    rw [hs] at hempty
    cases hempty
  simp only [World.apply, hq]
  rw [Function.update_of_ne (Nat.ne_of_gt hlt), Function.update_self]

theorem rejects_of_unrejected {s : SlotId} {i : Input} {m : Message} {worker : Worker}
    {phase : Phase} (h : unrejected j w (.work s i)) (hs : w.slots s = .delivered m worker phase)
    (hj : m.jobId = j) : phase.rejects i = false := by
  simpa [unrejected, hs, hj] using h

theorem unrejected_of_responsive {e : Event} (h : responsive e) : unrejected j w e := by
  cases e with
  | work s i =>
      have hr : ∀ phase : Phase, phase.rejects i = false := by
        intro phase
        unfold Phase.rejects
        split
        · cases h
        · rfl
      cases hs : w.slots s with
      | delivered m worker phase => simp [unrejected, hs, hr]
      | empty => simp [unrejected, hs]
      | queued m => simp [unrejected, hs]
  | _ => rfl

/-- A piece of a delivery keeps the job live, or issues a final status. -/
theorem live_work {s : SlotId} {i : Input} {m : Message} {worker : Worker} {phase : Phase}
    {eff : Effects} {d : Db} (hb : Bounded w) (hs : w.slots s = .delivered m worker phase)
    (hp : Piece J m worker (w.cache (cacheKey m.idempotencyKey)) w.clock phase i eff)
    (hP : unrejected j w (.work s i)) (hl : ∃ s, (w.slots s).live j) :
    (∃ wr, eff.write = some wr ∧ m.jobId = j ∧ wr.status.final) ∨
      ∃ s', ((w.apply J s m worker eff d).slots s').live j := by
  obtain ⟨s', hl⟩ := hl
  by_cases he : s' = s
  · subst he
    rw [hs, Slot.live, Bool.and_eq_true, decide_eq_true_eq] at hl
    obtain ⟨hj, hlive⟩ := hl
    rcases hp.live hlive (rejects_of_unrejected hP hs hj) with
      ⟨phase', hn, hl'⟩ | ⟨wr, hw, hf⟩ | ⟨m', hq⟩
    · refine .inr ⟨s', ?_⟩
      rw [slots_apply_some hn]
      exact live_delivered hj hl'
    · exact .inl ⟨wr, hw, hj, hf⟩
    · refine .inr ⟨w.nextSlot, ?_⟩
      rw [slot_of_queue hb hs hq]
      exact live_queued ((hp.queue_copy hq).jobId.trans hj)
  · refine .inr ⟨s', ?_⟩
    cases slot_of_work (d := d) hb hs hp s' with
    | stays h => rw [h]; exact hl
    | advanced hev _ _ _ _ => exact absurd (Event.work.inj hev).1.symm he
    | acknowledged hev _ _ _ _ => exact absurd (Event.work.inj hev).1.symm he
    | published _ hev _ _ _ => cases hev
    | retried hempty _ _ _ _ _ => rw [hempty] at hl; cases hl
    | redelivered hempty _ _ _ => rw [hempty] at hl; cases hl
    | dropped hev _ _ _ => cases hev
    | taken hev _ _ _ => cases hev
    | crashed hev _ _ => cases hev

/-- Any other event leaves a live slot live. -/
theorem Spared.live_step (h : Spared j w) (hb : Bounded w) (hen : Enqueued w) (hcp : Copies w)
    (he : SysStep J w e w') (hw : ∀ s i, e ≠ .work s i) {s : SlotId} (hl : (w.slots s).live j) :
    (w'.slots s).live j := by
  cases he.slot hb s with
  | stays hs => rw [hs]; exact hl
  | published hempty _ _ _ _ => rw [hempty] at hl; cases hl
  | retried hempty _ _ _ _ _ => rw [hempty] at hl; cases hl
  | redelivered hempty _ _ _ => rw [hempty] at hl; cases hl
  | dropped _ hs hheard _ =>
      rw [hs] at hl
      exact absurd hheard (h.not_revoked hen hcp hs (of_decide_eq_true hl) _)
  | taken _ hs _ hs' =>
      rw [hs] at hl
      rw [hs']
      exact live_delivered (of_decide_eq_true hl) rfl
  | advanced hev _ _ _ _ => exact absurd hev (hw _ _)
  | acknowledged hev _ _ _ _ => exact absurd hev (hw _ _)
  | crashed _ hs hs' =>
      rw [hs, Slot.live, Bool.and_eq_true, decide_eq_true_eq] at hl
      rw [hs']
      exact live_queued hl.1

/-- The last update issued for `j`, after a piece of a delivery. -/
theorem issued_apply {s : SlotId} {m : Message} {worker : Worker} {cached : Option String}
    {phase : Phase} {i : Input} {eff : Effects} {d : Db}
    (hp : Piece J m worker cached w.clock phase i eff) :
    (∃ wr, eff.write = some wr ∧ m.jobId = j ∧
      (w.apply J s m worker eff d).issued j = some wr.status) ∨
      (∀ wr, eff.write = some wr → m.jobId ≠ j) ∧
        (w.apply J s m worker eff d).issued j = w.issued j := by
  rw [World.issued, updatesOf_apply hp]
  cases hw : eff.write with
  | none =>
      refine .inr ⟨?_, by simp [Effects.updates, hw, World.issued]⟩
      intro wr hwr
      cases hwr
  | some wr =>
      by_cases hj : m.jobId = j
      · exact .inl ⟨wr, rfl, hj, by simp [Effects.updates, hw, hj]⟩
      · exact .inr ⟨fun _ _ => hj, by simp [Effects.updates, hw, hj, World.issued]⟩

theorem Custody.work (h : Custody j w) (hb : Bounded w) {s : SlotId} {i : Input}
    {m : Message} {worker : Worker} {phase : Phase} {eff : Effects} {db : Db}
    (hs : w.slots s = .delivered m worker phase)
    (hp : Piece J m worker (w.cache (cacheKey m.idempotencyKey)) w.clock phase i eff)
    (hP : unrejected j w (.work s i)) (hpub : w.publishedFor j ≠ []) :
    (∃ st, (w.apply J s m worker eff db).issued j = some st ∧ st.final) ∨
      ∃ s', ((w.apply J s m worker eff db).slots s').live j := by
  rcases issued_apply (s := s) (d := db) hp with ⟨wr, hw, hj, hissued⟩ | ⟨hnone, hissued⟩
  · cases hf : wr.status.final with
    | true => exact .inl ⟨wr.status, hissued, hf⟩
    | false =>
        -- the hook goes on to an outcome of its own
        obtain ⟨phase', hn, hl⟩ := (hp.write hw).live hf
        refine .inr ⟨s, ?_⟩
        rw [slots_apply_some hn]
        exact live_delivered hj hl
  · rcases h hpub with ⟨st, hst, hf⟩ | hl
    · exact .inl ⟨st, hissued.trans hst, hf⟩
    · rcases live_work (d := db) hb hs hp hP hl with ⟨wr, hw, hj, -⟩ | hl'
      · exact absurd hj (hnone wr hw)
      · exact .inr hl'

theorem Spared.step (h : Spared j w) (hen : Enqueued w) (hP : uncancelled j e)
    (hs : (system J).step w e = some w') : Spared j w' := by
  have he := step_cases hs
  constructor
  · intro c pc hc
    rcases step_cancelling hs hc with ⟨pc', hc'⟩ | ⟨rfl, -⟩
    · exact h.uncalled c pc' hc'
    · exact absurd rfl (of_decide_eq_true hP)
  · intro worker t ht
    rcases he.heard ht with ht | ⟨c, j', began, job, hc, htask, -⟩
    · obtain ⟨m, hm, hid, hj⟩ := h.unrevoked worker t ht
      exact ⟨m, he.published_subset hm, hid, hj⟩
    · obtain ⟨m, hm, hid⟩ := hen.checked c j' began job hc
      obtain ⟨hm, hj'⟩ := mem_publishedFor.mp hm
      rw [htask, Option.some.injEq] at hid
      refine ⟨m, he.published_subset hm, hid.symm, ?_⟩
      rintro rfl
      exact h.uncalled c _ (hj' ▸ hc)

theorem Custody.step (h : Custody j w) (hsp : Spared j w) (hb : Bounded w) (hen : Enqueued w)
    (hcp : Copies w) (hre : unrejected j w e) (he : SysStep J w e w') : Custody j w' := by
  intro hpub'
  by_cases hpub : w.publishedFor j = []
  · -- the message has just been published, and is in the queue
    obtain ⟨m, hm⟩ := List.exists_mem_of_ne_nil _ hpub'
    obtain ⟨hm, hj⟩ := mem_publishedFor.mp hm
    have hnew : m ∉ w.published := by
      intro hold
      have hmem := mem_publishedFor.mpr ⟨hold, hj⟩
      rw [hpub] at hmem
      cases hmem
    rcases he.api_or_offstage with ⟨c, -, ha⟩ | ⟨-, ho⟩
    · cases ha.published with
      | same hp _ => exact absurd (hp ▸ hm) hnew
      | sent sub _ _ hp _ hslot =>
          rw [hp, List.mem_cons] at hm
          rcases hm with rfl | hm
          · refine .inr ⟨w.nextSlot, ?_⟩
            rw [hslot]
            exact live_queued hj
          · exact absurd hm hnew
    · exact absurd (ho.published ▸ hm) hnew
  · rcases he.worked with ⟨rfl, hsl, hp, -, rfl⟩ | hne
    · exact h.work hb hsl hp hre hpub
    · rcases h hpub with ⟨st, hst, hf⟩ | ⟨s, hl⟩
      · refine .inl ⟨st, ?_, hf⟩
        rw [World.issued, he.updatesOf hne]
        exact hst
      · exact .inr ⟨s, hsp.live_step hb hen hcp he hne hl⟩

end Custody

/-! ## What the row says -/

/-- The row of job `j` holds the target of the last status update that succeeded. -/
structure Tracked (j : Uuid) (w : World) : Prop where
  started : ∀ s m worker phase, w.slots s = .delivered m worker phase → m.jobId = j →
    phase ≠ .received → (w.db.find j).isSome
  unborn : w.db.find j = none → w.updatesOf j = [] ∧ w.starts j = 0
  status : ∀ r, w.db.find j = some r → r.status = (w.succeeded j).getD .pending

theorem tracked_init (j : Uuid) (allowed : List String) : Tracked j (.init allowed) where
  started _ _ _ _ h := nomatch h
  unborn _ := ⟨rfl, rfl⟩
  status _ h := nomatch h

section Tracked
variable {J : JsonCodec} {w w' : World} {e : Event} {j : Uuid}

theorem SysStep.find_isSome (he : SysStep J w e w') (hs : Sessions w)
    (h : (w.db.find j).isSome) : (w'.db.find j).isSome := by
  obtain ⟨r, hr⟩ := Option.isSome_iff_exists.mp h
  obtain ⟨hmem, hid⟩ := Store.find_eq_some.mp hr
  obtain ⟨r', hr', ho⟩ := he.origin hs hmem
  exact Option.isSome_iff_exists.mpr ⟨r', Store.find_eq_some.mpr ⟨hr', ho.id.trans hid⟩⟩

theorem succeeded_write {s : SlotId} {m : Message} {worker : Worker} {cached : Option String}
    {phase : Phase} {i : Input} {eff : Effects} {db : Db} {wr : Write}
    (hp : Piece J m worker cached w.clock phase i eff) (hw : eff.write = some wr)
    (hok : wr.ok = true) (hj : m.jobId = j) :
    (w.apply J s m worker eff db).succeeded j = some wr.status := by
  simp [World.succeeded, updatesOf_apply hp, Effects.updates, hw, hj, hok]

theorem succeeded_same {s : SlotId} {m : Message} {worker : Worker} {cached : Option String}
    {phase : Phase} {i : Input} {eff : Effects} {db : Db}
    (hp : Piece J m worker cached w.clock phase i eff)
    (h : ∀ wr, eff.write = some wr → m.jobId = j → wr.ok = false) :
    (w.apply J s m worker eff db).succeeded j = w.succeeded j := by
  rw [World.succeeded, updatesOf_apply hp]
  cases hw : eff.write with
  | none => simp [Effects.updates, hw, World.succeeded]
  | some wr =>
      by_cases hj : m.jobId = j
      · simp [Effects.updates, hw, hj, h wr hw hj, World.succeeded]
      · simp [Effects.updates, hw, hj, World.succeeded]

/-- A delivery of `j` that makes a move has the row before it. -/
theorem Tracked.find_of_work (h : Tracked j w) {s : SlotId} {i : Input} {m : Message}
    {worker : Worker} {phase : Phase} (hP : startsCommitted j w (.work s i))
    (hs : w.slots s = .delivered m worker phase) (hj : m.jobId = j) : (w.db.find j).isSome := by
  cases phase with
  | received =>
      simp only [startsCommitted, hs] at hP
      exact of_decide_eq_true hP hj
  | _ =>
      refine h.started s m worker _ hs hj ?_
      intro hreceived
      cases hreceived

theorem Tracked.status_work (h : Tracked j w) {s : SlotId} {i : Input} {m : Message}
    {worker : Worker} {phase : Phase} {eff : Effects} {db : Db}
    (hp : Piece J m worker (w.cache (cacheKey m.idempotencyKey)) w.clock phase i eff)
    (hdb : w.write m.jobId eff.write = some db) {r : Job} (hr : db.find j = some r) :
    r.status = ((w.apply J s m worker eff db).succeeded j).getD .pending := by
  rcases find_write hdb j with ⟨hf, hno⟩ | ⟨wr, hw, hok, hj, -, hf⟩
  · rw [succeeded_same hp hno]
    exact h.status r (hf ▸ hr)
  · rw [succeeded_write hp hw hok hj]
    rw [hf] at hr
    obtain ⟨r₀, -, rfl⟩ := Option.map_eq_some_iff.mp hr
    rfl

theorem Tracked.step (h : Tracked j w) (hg : Ground w) (hsp : Spared j w)
    (hP : startsCommitted j w e) (he : SysStep J w e w') : Tracked j w' := by
  have hmono := he.find_isSome (j := j) hg.sessions
  constructor
  · intro s m worker phase hs hj hph
    cases he.delivered hg.bounded hs with
    | stays _ hs₀ => exact hmono (h.started s m worker phase hs₀ hj hph)
    | taken _ _ hr => exact absurd hr hph
    | advanced hev hs₀ _ _ _ =>
        subst hev
        exact hmono (h.find_of_work hP hs₀ hj)
  · intro hnone
    have hnone₀ : w.db.find j = none := by
      cases hf : w.db.find j with
      | none => rfl
      | some r =>
          have hsome := hmono (by rw [hf]; rfl)
          rw [hnone] at hsome
          cases hsome
    obtain ⟨hupd, hstarts⟩ := h.unborn hnone₀
    rcases he.worked with @⟨s, i, m, worker, phase, eff, db, rfl, hs, hp, -, rfl⟩ | hne
    · have hj : m.jobId ≠ j := by
        intro hj
        have hsome := h.find_of_work hP hs hj
        rw [hnone₀] at hsome
        cases hsome
      refine ⟨?_, ?_⟩
      · rw [updatesOf_apply hp, hupd, Effects.updates]
        split
        · rw [if_neg hj]; rfl
        · rfl
      · rw [starts_apply hp, hstarts, if_neg hj]
    · exact ⟨(he.updatesOf hne).trans hupd, (he.starts hne).trans hstarts⟩
  · intro r hr
    rcases he.worked with ⟨-, -, hp, hdb, rfl⟩ | hne
    · exact h.status_work hp hdb hr
    · rw [World.succeeded, he.updatesOf hne]
      cases he.row hg j with
      | stays hf => exact h.status r (hf ▸ hr)
      | landed _ hc _ hnone hf =>
          rw [hf, Option.some.injEq] at hr
          subst hr
          rw [(h.unborn hnone).1]
          exact (hg.submissions.coherent _ _ _ hc).pending
      | cancelled _ hc _ => exact absurd hc (hsp.uncalled _ _)
      | written hev _ _ _ _ _ _ _ => exact absurd hev (hne _ _)

end Tracked

/-! ## When no call of a worker fails -/

/-- Every status update issued for job `j` has succeeded. -/
def Succeeded (j : Uuid) (w : World) : Prop := ∀ u ∈ w.updatesOf j, u.2 = true

theorem succeeded_init (j : Uuid) (allowed : List String) : Succeeded j (.init allowed) :=
  fun _ hu => nomatch hu

/-- The row of job `j`, if it is committed, counts the `before_start` calls made for it. -/
def Counted (j : Uuid) (w : World) : Prop :=
  ∀ r, w.db.find j = some r → r.executionCount = w.starts j

theorem counted_init (j : Uuid) (allowed : List String) : Counted j (.init allowed) :=
  fun _ hr => nomatch hr

/-- A `before_start` call made for job `j` is missing from its row. -/
def Missed (j : Uuid) (w : World) : Prop :=
  (w.db.find j = none → 0 < w.starts j) ∧
    ∀ r, w.db.find j = some r → r.executionCount < w.starts j

section Responsive
variable {J : JsonCodec} {w w' : World} {e : Event} {j : Uuid}

theorem ok_of_responsive {s : SlotId} {i : Input} (h : responsive (.work s i)) : i.ok := by
  cases i with
  | raises exc => cases h
  | returns => rfl
  | ends o => rfl

theorem Succeeded.step (h : Succeeded j w) (hP : responsive e) (he : SysStep J w e w') :
    Succeeded j w' := by
  intro u hu
  rcases he.worked with ⟨rfl, -, hp, -, rfl⟩ | hne
  · rw [updatesOf_apply hp, List.mem_append] at hu
    rcases hu with hu | hu
    · unfold Effects.updates at hu
      split at hu
      · rename_i wr hwr
        split at hu
        · rw [List.mem_singleton.mp hu]
          exact (hp.write_ok hwr).mpr (ok_of_responsive hP)
        · cases hu
      · cases hu
    · exact h u hu
  · rw [he.updatesOf hne] at hu
    exact h u hu

/-- The last update issued is the last that succeeded. -/
theorem Succeeded.issued (h : Succeeded j w) : w.succeeded j = w.issued j := by
  rw [World.succeeded, World.issued]
  cases hu : w.updatesOf j with
  | nil => rfl
  | cons u us =>
      have hok : u.2 = true := h u (hu ▸ List.mem_cons_self)
      rw [List.find?_cons_of_pos hok]
      rfl

/-- The counter of the row after a piece of a delivery: the update of `before_start`
adds one, every other leaves it. -/
theorem WriteAt.count {worker : Worker} {phase : Phase} {wr : Write} {next : Option Phase}
    (h : WriteAt worker wr next phase) (now : Time) (r : Job) :
    (values now wr.status wr.fields r).executionCount =
      phase.starts + r.executionCount := by
  cases h with
  | start _ hf _ => simp [values, hf, Phase.starts, Nat.add_comm]
  | success v _ hf _ => simp [values, hf, Phase.starts]
  | failed exc again _ hf _ => simp [values, hf, Phase.starts]
  | dlq exc again _ hf _ => simp [values, hf, Phase.starts]

theorem Counted.step (h : Counted j w) (ht : Tracked j w) (hsp : Spared j w) (hg : Ground w)
    (hP : startsCommitted j w e) (hr : responsive e) (he : SysStep J w e w') : Counted j w' := by
  intro r' hr'
  rcases he.worked with @⟨s, i, m, worker, phase, eff, db, rfl, -, hp, hdb, rfl⟩ | hne
  · rw [starts_apply hp]
    rcases find_write hdb j with ⟨hf, hno⟩ | ⟨wr, hwr, -, hj, -, hf⟩
    · -- no update reached the row, so `before_start` was not called for `j`
      have hzero : (if m.jobId = j then phase.starts else 0) = 0 := by
        split
        · rename_i hj
          cases hp with
          | start =>
              have hfail := hno _ rfl hj
              cases hfail
          | startFails exc => cases hr
          | _ => rfl
        · rfl
      rw [hzero, Nat.zero_add]
      exact h r' (hf ▸ hr')
    · have hr'' : db.find j = some r' := hr'
      rw [hf] at hr''
      obtain ⟨r, hr₀, rfl⟩ := Option.map_eq_some_iff.mp hr''
      rw [if_pos hj, (hp.write hwr).count, h r hr₀]
  · rw [he.starts hne]
    cases he.row hg j with
    | stays hf => exact h r' (hf ▸ hr')
    | landed _ hc _ hnone hf =>
        rw [hf, Option.some.injEq] at hr'
        subst hr'
        rw [(ht.unborn hnone).2]
        exact (hg.submissions.coherent _ _ _ hc).executionCount
    | cancelled _ hc _ => exact absurd hc (hsp.uncalled _ _)
    | written hev _ _ _ _ _ _ _ => exact absurd hev (hne _ _)

/-- A missed start is never made good. -/
theorem Missed.step (h : Missed j w) (hg : Ground w) (he : SysStep J w e w') : Missed j w' := by
  have hstarts : w.starts j ≤ w'.starts j := by
    rcases he.worked with ⟨-, -, hp, -, rfl⟩ | hne
    · rw [starts_apply hp]
      exact Nat.le_add_left _ _
    · exact Nat.le_of_eq (he.starts hne).symm
  cases hrow : w.db.find j with
  | none =>
      have hpos := Nat.lt_of_lt_of_le (h.1 hrow) hstarts
      refine ⟨fun _ => hpos, ?_⟩
      intro r' hr'
      cases he.row hg j with
      | stays hf => rw [hf, hrow] at hr'; cases hr'
      | landed _ hc _ _ hf =>
          rw [hf, Option.some.injEq] at hr'
          subst hr'
          exact (hg.submissions.coherent _ _ _ hc).executionCount.symm ▸ hpos
      | cancelled _ _ hf => rw [hf, hrow] at hr'; cases hr'
      | written _ _ _ _ _ _ _ hf => rw [hf, hrow] at hr'; cases hr'
  | some r =>
      have hlt := h.2 r hrow
      refine ⟨?_, ?_⟩
      · intro hnone
        have hsome := he.find_isSome hg.sessions (by rw [hrow]; rfl : (w.db.find j).isSome)
        rw [hnone] at hsome
        cases hsome
      · intro r' hr'
        cases he.row hg j with
        | stays hf =>
            rw [hf, hrow, Option.some.injEq] at hr'
            exact Nat.lt_of_lt_of_le (hr' ▸ hlt) hstarts
        | landed _ _ _ hnone _ => rw [hrow] at hnone; cases hnone
        | cancelled _ _ hf =>
            rw [hf, hrow, Option.map_some, Option.some.injEq] at hr'
            exact Nat.lt_of_lt_of_le (hr' ▸ hlt) hstarts
        | written hev hs hp hwr _ hj _ hf =>
            subst hev
            rw [hf, hrow, Option.map_some, Option.some.injEq] at hr'
            rw [← hr', (hp.write hwr).count, he.starts_work hs, if_pos hj]
            exact Nat.add_lt_add_left hlt _

/-- A start before the commit is a missed one. -/
theorem missed_of_breach (hb : ¬ startsCommitted j w e) (he : SysStep J w e w') : Missed j w' := by
  cases he with
  | @work s i m worker phase eff db hs hp hdb =>
      simp only [startsCommitted, hs] at hb
      cases phase with
      | received =>
          simp only [decide_eq_true_eq, Classical.not_imp] at hb
          obtain ⟨hj, hnone⟩ := hb
          have hnone : w.db.find j = none := Option.not_isSome_iff_eq_none.mp hnone
          have hfind : db.find j = none := by
            rcases find_write hdb j with ⟨hf, -⟩ | ⟨_, -, -, -, -, hf⟩
            · rw [hf, hnone]
            · rw [hf, hnone]; rfl
          refine ⟨?_, ?_⟩
          · intro _
            rw [starts_apply hp, if_pos hj]
            exact Nat.lt_of_lt_of_le Nat.zero_lt_one (Nat.le_add_right _ _)
          · intro r hr
            have hr' : db.find j = some r := hr
            rw [hfind] at hr'
            cases hr'
      | _ => exact absurd rfl hb
  | api hc _ =>
      refine absurd ?_ hb
      unfold startsCommitted
      split
      · cases hc
      · rfl
  | env hn _ =>
      refine absurd ?_ hb
      unfold startsCommitted
      split
      · cases hn
      · rfl
  | _ => exact absurd rfl hb

end Responsive

/-! ## Whole runs -/

/-- What holds in every run in which nobody cancels job `j`. -/
structure Held (j : Uuid) (w : World) : Prop where
  enqueued : Enqueued w
  copies : Copies w
  spared : Spared j w

theorem held_init (j : Uuid) (allowed : List String) : Held j (.init allowed) :=
  ⟨enqueued_init allowed, copies_init allowed, spared_init j allowed⟩

section Run
variable {J : JsonCodec} {P : World → Event → Prop} {allowed : List String} {es : List Event}
  {w w' : World} {e : Event} {j : Uuid}

theorem Held.step (h : Held j w) (hg : Ground w) (hP : uncancelled j e)
    (hs : (system J).step w e = some w') : Held j w' where
  enqueued := h.enqueued.step hg (step_cases hs)
  copies := h.copies.step hg.bounded (step_cases hs)
  spared := h.spared.step h.enqueued hP hs

/-- A committed job without an outstanding message has had its last update, a final one. -/
theorem Custody.issued_final (h : Custody j w) (hen : Enqueued w) {r : Job}
    (hr : w.db.find j = some r) (hdone : ¬ w.Outstanding j) :
    ∃ st, w.issued j = some st ∧ st.final := by
  have hpub : w.publishedFor j ≠ [] := by
    obtain ⟨m, hm, -⟩ := hen.task hr
    exact List.ne_nil_of_mem hm
  rcases h hpub with hfinal | ⟨s, hl⟩
  · exact hfinal
  · exact absurd ⟨s, Slot.jobId?_of_live hl⟩ hdone

theorem run_tracked
    (hP : ∀ w e, P w e → startsCommitted j w e ∧ uncancelled j e ∧ unrejected j w e)
    (h : (system J).Run P (.init allowed) es w) : Held j w ∧ Custody j w ∧ Tracked j w := by
  refine (run_invariant (I := fun w => Held j w ∧ Custody j w ∧ Tracked j w) h
    (ground_init allowed)
    ⟨held_init j allowed, custody_init j allowed, tracked_init j allowed⟩ ?_).2
  rintro w w' e hg ⟨hh, hcu, ht⟩ hPe hs
  obtain ⟨hsc, hun, hre⟩ := hP w e hPe
  have he := step_cases hs
  exact ⟨hh.step hg hun hs, hcu.step hh.spared hg.bounded hh.enqueued hh.copies hre he,
    ht.step hg hh.spared hsc he⟩

theorem run_succeeded (hP : ∀ w e, P w e → responsive e)
    (h : (system J).Run P (.init allowed) es w) : Succeeded j w := by
  refine (run_invariant (I := Succeeded j) h (ground_init allowed) (succeeded_init j allowed)
    ?_).2
  intro w w' e _ hi hPe hs
  exact hi.step (hP w e hPe) (step_cases hs)

theorem run_counted
    (hP : ∀ w e, P w e → startsCommitted j w e ∧ uncancelled j e ∧ responsive e)
    (h : (system J).Run P (.init allowed) es w) : Counted j w := by
  refine (run_invariant (I := fun w => (Held j w ∧ Tracked j w) ∧ Counted j w) h
    (ground_init allowed) ⟨⟨held_init j allowed, tracked_init j allowed⟩,
      counted_init j allowed⟩ ?_).2.2
  rintro w w' e hg ⟨⟨hh, ht⟩, hc⟩ hPe hs
  obtain ⟨hsc, hun, hre⟩ := hP w e hPe
  have he := step_cases hs
  exact ⟨⟨hh.step hg hun hs, ht.step hg hh.spared hsc he⟩,
    hc.step ht hh.spared hg hsc hre he⟩

/-- No job is lost when workers crash: with a working database, broker and cache, every
delivery started after the commit, and no `cancel_job` on the job, a committed job has
a message queued, delayed or in delivery, or is COMPLETED or DLQ. -/
theorem no_job_lost {r : Job}
    (h : (system J).Run (fun w e => startsCommitted j w e ∧ uncancelled j e ∧ responsive e)
      (.init allowed) es w) (hr : w.db.find j = some r) :
    w.Outstanding j ∨ r.status = .completed ∨ r.status = .dlq := by
  obtain ⟨hheld, hcu, htr⟩ := run_tracked
    (fun _ _ hp => ⟨hp.1, hp.2.1, unrejected_of_responsive hp.2.2⟩) h
  have hok : Succeeded j w := run_succeeded (fun _ _ hp => hp.2.2) h
  by_cases hdone : w.Outstanding j
  · exact .inl hdone
  · obtain ⟨st, hst, hf⟩ := hcu.issued_final hheld.enqueued hr hdone
    have hstatus := htr.status r hr
    rw [hok.issued, hst] at hstatus
    cases st with
    | completed => exact .inr (.inl hstatus)
    | dlq => exact .inr (.inr hstatus)
    | _ => cases hf

/-- When status updates and `dlq` publications fail in any pattern (and whatever else fails,
as long as no message of the job is rejected), a committed job whose messages are all handled
has had a COMPLETED or DLQ update issued last, and its row holds the target of the last update
that succeeded, PENDING if there was none. -/
theorem last_update_final {r : Job}
    (h : (system J).Run (fun w e => startsCommitted j w e ∧ uncancelled j e ∧ unrejected j w e)
      (.init allowed) es w)
    (hr : w.db.find j = some r) (hdone : ¬ w.Outstanding j) :
    ∃ st ok rest, w.updatesOf j = (st, ok) :: rest ∧ (st = .completed ∨ st = .dlq) ∧
      r.status = (w.succeeded j).getD .pending ∧ (ok = true → r.status = st) := by
  obtain ⟨hheld, hcu, htr⟩ := run_tracked (fun _ _ hp => hp) h
  obtain ⟨st, hst, hf⟩ := hcu.issued_final hheld.enqueued hr hdone
  have hstatus := htr.status r hr
  cases hu : w.updatesOf j with
  | nil =>
      rw [World.issued, hu] at hst
      cases hst
  | cons u rest =>
      obtain ⟨st', ok⟩ := u
      rw [World.issued, hu] at hst
      obtain rfl : st' = st := Option.some.inj hst
      refine ⟨st', ok, rest, rfl, ?_, hstatus, ?_⟩
      · cases st' with
        | completed => exact .inl rfl
        | dlq => exact .inr rfl
        | _ => cases hf
      · rintro rfl
        rw [hstatus, World.succeeded, hu]
        rfl

/-- Every start comes after the commit, or one has been missed. -/
theorem starts_or_missed (h : (system J).Run P (.init allowed) es w) :
    (system J).Along (fun w e => startsCommitted j w e) (.init allowed) es ∨ Missed j w := by
  refine h.along_or (I := Ground) (B := Missed j) ?_ ?_ ?_ (ground_init allowed)
  · intro w w' e hg _ hs
    exact hg.step (step_cases hs)
  · intro w w' e hg hm _ hs
    exact hm.step hg (step_cases hs)
  · intro w w' e _ _ hb hs
    exact missed_of_breach hb (step_cases hs)

/-- No outcome is lost if and only if `before_start` of the job never runs ahead of the
commit of the submitting transaction. -/
theorem outcome_kept_iff {r : Job}
    (h : (system J).Run (fun _ e => uncancelled j e ∧ responsive e) (.init allowed) es w)
    (hr : w.db.find j = some r) (hdone : ¬ w.Outstanding j) :
    ((∃ st, w.issued j = some st ∧ (st = .completed ∨ st = .dlq) ∧ r.status = st) ∧
      r.executionCount = w.starts j) ↔
    (system J).Along (fun w e => startsCommitted j w e) (.init allowed) es := by
  constructor
  · rintro ⟨-, hcount⟩
    rcases starts_or_missed h with halong | hmissed
    · exact halong
    · exact absurd hcount (Nat.ne_of_lt (hmissed.2 r hr))
  · intro ha
    have hrun := Machine.run_and.mpr ⟨h, ha⟩
    obtain ⟨hheld, hcu, htr⟩ := run_tracked
      (fun _ _ hp => ⟨hp.2, hp.1.1, unrejected_of_responsive hp.1.2⟩) hrun
    have hok : Succeeded j w := run_succeeded (fun _ _ hp => hp.1.2) hrun
    have hcount : Counted j w := run_counted (fun _ _ hp => ⟨hp.2, hp.1⟩) hrun
    obtain ⟨st, hst, hf⟩ := hcu.issued_final hheld.enqueued hr hdone
    have hstatus := htr.status r hr
    rw [hok.issued, hst] at hstatus
    refine ⟨⟨st, hst, ?_, hstatus⟩, hcount r hr⟩
    cases st with
    | completed => exact .inl rfl
    | dlq => exact .inr rfl
    | _ => cases hf

end Run

/-! ## Concrete runs -/

/-- A schedule from `pingWorld` after which job 0 is committed and its messages are handled. -/
theorem exists_done (es : List Event) (h : ((system nullCodec).exec pingWorld es).map
    (fun w => ((w.db.find 0).isSome, decide (∃ s < w.nextSlot, (w.slots s).jobId? = some 0))) =
      some (true, false)) :
    ∃ w r, (system nullCodec).exec pingWorld es = some w ∧ w.db.find 0 = some r ∧
      ¬ w.Outstanding 0 := by
  obtain ⟨w, hw, hd⟩ := Option.map_eq_some_iff.mp h
  rw [Prod.mk.injEq] at hd
  obtain ⟨r, hr⟩ := Option.isSome_iff_exists.mp hd.1
  have hb := (run_ground (Machine.run_of_computed hw) (ground_init _)).bounded
  exact ⟨w, r, hw, hr, fun ho => of_decide_eq_false hd.2 ((outstanding_iff hb).mp ho)⟩

/-- The whole of a job's life: submitted, delivered, handled. -/
def pingEvents : List Event := createEvents 0 "k" ++ startEvents 0 "v" ++ finishEvents 0

theorem no_job_lost_ping : ∃ w r, (system nullCodec).exec pingWorld pingEvents = some w ∧
    w.db.find 0 = some r ∧ (w.Outstanding 0 ∨ r.status = .completed ∨ r.status = .dlq) := by
  obtain ⟨w, r, hw, hr, -⟩ := exists_done pingEvents (by decide)
  exact ⟨w, r, hw, hr, no_job_lost (Machine.run_of_exec hw (by decide)) hr⟩

theorem last_update_final_ping : ∃ w r,
    (system nullCodec).exec pingWorld pingEvents = some w ∧ w.db.find 0 = some r ∧
    ∃ st ok rest, w.updatesOf 0 = (st, ok) :: rest ∧ (st = .completed ∨ st = .dlq) ∧
      r.status = (w.succeeded 0).getD .pending ∧ (ok = true → r.status = st) := by
  obtain ⟨w, r, hw, hr, hdone⟩ := exists_done pingEvents (by decide)
  exact ⟨w, r, hw, hr, last_update_final (Machine.run_of_exec hw (by decide)) hr hdone⟩

theorem outcome_kept_iff_ping : ∃ w r,
    (system nullCodec).exec pingWorld pingEvents = some w ∧ w.db.find 0 = some r ∧
    (∃ st, w.issued 0 = some st ∧ (st = .completed ∨ st = .dlq) ∧ r.status = st) ∧
      r.executionCount = w.starts 0 := by
  obtain ⟨w, r, hw, hr, hdone⟩ := exists_done pingEvents (by decide)
  exact ⟨w, r, hw, hr,
    (outcome_kept_iff (Machine.run_of_exec hw (by decide)) hr hdone).mpr (by decide)⟩

/-- `send_task` returns, a worker sees the message through to its acknowledgement, and
only then does `create_job` commit: the job stays PENDING, and its start is not counted. -/
def earlyEvents : List Event :=
  (createEvents 0 "k").take 4 ++ startEvents 0 "v" ++ finishEvents 0 ++ [.api 0, .api 0]

theorem outcome_lost : ∃ w r,
    (system nullCodec).Run (fun _ e => uncancelled 0 e ∧ responsive e) pingWorld earlyEvents w ∧
    w.db.find 0 = some r ∧ ¬ w.Outstanding 0 ∧ w.issued 0 = some .completed ∧
    r.status = .pending ∧ r.executionCount = 0 ∧ w.starts 0 = 1 := by
  obtain ⟨w, r, hw, hr, hdone⟩ := exists_done earlyEvents (by decide)
  have hrow : ((system nullCodec).exec pingWorld earlyEvents).map (fun w =>
      ((w.db.find 0).map fun r => (r.status, r.executionCount), w.issued 0, w.starts 0)) =
        some (some (.pending, 0), some .completed, 1) := by decide
  rw [hw, Option.map_some, Option.some.injEq, hr] at hrow
  simp only [Option.map_some, Prod.mk.injEq, Option.some.injEq] at hrow
  exact ⟨w, r, Machine.run_of_exec hw (by decide), hr, hdone, hrow.2.1, hrow.1.1, hrow.1.2,
    hrow.2.2⟩

/-- The UPDATE of `on_success` fails: the message is acknowledged, and the job stays RUNNING. -/
def strandedEvents : List Event :=
  createEvents 0 "k" ++ startEvents 0 "v" ++ [.work 0 (.ends (.returns .null)),
    .work 0 (.raises { str := "", traceback := "" })] ++ List.replicate 3 (.work 0 .returns)

theorem job_stranded : ∃ w r,
    (system nullCodec).Run (fun w e => startsCommitted 0 w e ∧ uncancelled 0 e ∧ unrejected 0 w e)
      pingWorld strandedEvents w ∧
    w.db.find 0 = some r ∧ ¬ w.Outstanding 0 ∧ r.status = .running := by
  obtain ⟨w, r, hw, hr, hdone⟩ := exists_done strandedEvents (by decide)
  have hrow : ((system nullCodec).exec pingWorld strandedEvents).map
      (fun w => (w.db.find 0).map Job.status) = some (some .running) := by decide
  rw [hw, Option.map_some, Option.some.injEq, hr] at hrow
  exact ⟨w, r, Machine.run_of_exec hw (by decide), hr, hdone, Option.some.inj hrow⟩

end Aegis
