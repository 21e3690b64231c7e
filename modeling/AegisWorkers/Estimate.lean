/-
# `AegisWorkers.Estimate` — what `get_job` estimates, and what waits

The worker schedules a retry `10 * 2 ** request.retries` seconds ahead and leaves the row
RUNNING, as `before_start` wrote it.  `get_job` estimates `10 * 2 ** retry_count` seconds
from now for a PENDING row, and `retry_count` counts `retry_dlq_job` calls.  So the two
speak of different events, and the estimate is right when neither is there to be seen.

    w.Waits s j m        the retry `m` of job `j` waits for its countdown in slot `s`
    Scheduled J p s t    the retry in slot `s` was published at the time `t`
    StartedEarly p j     `before_start` ran for job `j` before its row was committed

A PENDING row with a retry waiting is possible too, if the first attempt started before the
commit (`Begun`); then the two times can only coincide.
-/
import AegisWorkers.Custody
import AegisWorkers.Lineage

namespace Aegis

open BaseTask JobService ReadCommitted

/-! ## The claim on one row -/

/-- The retry `m` of job `j` waits for its countdown in slot `s`. -/
def World.Waits (w : World) (s : SlotId) (j : Uuid) (m : Message) : Prop :=
  w.slots s = .queued m ∧ m.jobId = j ∧ 0 < m.retries ∧ w.clock < m.eta

/-- A delivery published the message of slot `s` at the time `t`. -/
def Scheduled (J : JsonCodec) (p : Past) (s : SlotId) (t : Time) : Prop :=
  ∃ w₀ s₀ i w₁, (w₀, .work s₀ i) ∈ p ∧ (system J).step w₀ (.work s₀ i) = some w₁ ∧
    w₀.nextSlot = s ∧ w₁.nextSlot = s + 1 ∧ t = w₀.clock

/-- `get_job` answers, with an estimate exactly when a retry of the job waits, and then with
the time that retry was scheduled for. -/
def EstimateAgrees (J : JsonCodec) (p : Past) (w : World) (j : Uuid) : Prop :=
  ∃ resp, getJob w.db w.clock j = .ok resp ∧
    (resp.estimatedNextRun ≠ none ↔ ∃ s m, w.Waits s j m) ∧
    ∀ t, resp.estimatedNextRun = some t → ∃ s m t₀, w.Waits s j m ∧ Scheduled J p s t₀ ∧
      t = t₀ + countdown (m.retries - 1)

/-- `before_start` ran for a message of job `j` before the row was committed. -/
def StartedEarly (p : Past) (j : Uuid) : Prop :=
  ∃ w₀ s i m worker, (w₀, .work s i) ∈ p ∧ w₀.slots s = .delivered m worker .received ∧
    m.jobId = j ∧ w₀.db.find j = none

/-- No retry of the job waits, and its row is not a PENDING row of `retry_dlq_job`. -/
def Unscheduled (w : World) (r : Job) : Prop :=
  (∀ s m, ¬ w.Waits s r.id m) ∧ (r.status = .pending → r.parentJobId = none)

/-- The job is a PENDING one of `retry_dlq_job` that began before its row was committed, and
the time of a retry that waits happens to be `10 * 2 ** retry_count` seconds from now. -/
def Coincides (J : JsonCodec) (p : Past) (w : World) (r : Job) : Prop :=
  r.status = .pending ∧ r.parentJobId ≠ none ∧ StartedEarly p r.id ∧
    fits w.clock (countdown r.retryCount) ∧
    ∃ s m t₀, w.Waits s r.id m ∧ Scheduled J p s t₀ ∧
      t₀ + countdown (m.retries - 1) = w.clock + countdown r.retryCount

/-! ## An attempt that has begun shows in the row -/

/-- The row of job `j` is there, and some hook or `cancel_job` has written it. -/
def World.Written (w : World) (j : Uuid) : Prop :=
  ∃ r, w.db.find j = some r ∧ r.status ≠ .pending

/-- The slot holds a retry, or a delivery past `before_start`. -/
def Slot.Begun (x : Slot) (m : Message) : Prop :=
  x.message? = some m ∧ (0 < m.retries ∨
    ∃ worker phase, x = .delivered m worker phase ∧ phase ≠ .received)

/-- Where an attempt of a job has begun, the row is written, or the job began early. -/
def Begun (p : Past) (w : World) : Prop :=
  ∀ s m, (w.slots s).Begun m → StartedEarly p m.jobId ∨ w.Written m.jobId

theorem begun_init (allowed : List String) : Begun [] (.init allowed) := fun _ _ h => nomatch h.1

section Step
variable {J : JsonCodec} {w w' : World} {e : Event} {p : Past} {j : Uuid}

theorem StartedEarly.mono (h : StartedEarly p j) (x : World × Event) : StartedEarly (x :: p) j := by
  obtain ⟨w₀, s, i, m, worker, hmem, hrest⟩ := h
  exact ⟨w₀, s, i, m, worker, List.mem_cons_of_mem _ hmem, hrest⟩

/-- No step makes a row PENDING again. -/
theorem World.Written.step (h : w.Written j) (hg : Ground w) (he : SysStep J w e w') :
    w'.Written j := by
  obtain ⟨r, hf, hst⟩ := h
  cases he.row hg j with
  | stays hsame => exact ⟨r, hsame ▸ hf, hst⟩
  | landed _ _ _ hnone _ => rw [hf] at hnone; cases hnone
  | cancelled _ _ hmap =>
      rw [hf] at hmap
      exact ⟨_, hmap, nofun⟩
  | written _ _ hp hw _ _ _ hmap =>
      rw [hf] at hmap
      exact ⟨_, hmap, (hp.write hw).status.1⟩

/-- A delivery that publishes a retry is past `before_start`. -/
theorem Piece.queue_begun {m m' : Message} {worker : Worker} {cached : Option String} {now : Time}
    {phase : Phase} {i : Input} {eff : Effects} (h : Piece J m worker cached now phase i eff)
    (hq : eff.queue = some m') : phase ≠ .received := by
  rintro rfl
  cases h <;> cases hq

/-- What `before_start` leaves behind: the row written, or an early start. -/
theorem begun_of_start (hP : responsive e) {s : SlotId} {i : Input} {m : Message}
    {worker : Worker} (hev : e = .work s i) (hd : w.slots s = .delivered m worker .received)
    (he : SysStep J w e w') : StartedEarly ((w, e) :: p) m.jobId ∨ w'.Written m.jobId := by
  subst hev
  cases hf : w.db.find m.jobId with
  | none => exact .inl ⟨w, s, i, m, worker, List.mem_cons_self, hd, rfl, hf⟩
  | some r =>
      refine .inr ?_
      rcases he.worked with @⟨_, _, m₀, worker₀, _, eff, db, hev, hs₀, hp, hdb, rfl⟩ | hne
      · obtain ⟨rfl, rfl⟩ := Event.work.inj hev
        rw [hd, Slot.delivered.injEq] at hs₀
        obtain ⟨rfl, rfl, rfl⟩ := hs₀
        cases hp with
        | start =>
            rcases find_write hdb m.jobId with ⟨-, hok⟩ | ⟨wr, hw, -, -, -, hmap⟩
            · exact absurd (hok _ rfl rfl) (by simp)
            · rw [hf] at hmap
              obtain rfl := Option.some.inj hw
              exact ⟨_, hmap, nofun⟩
        | startFails exc => cases hP
      · exact absurd rfl (hne s i)

theorem Begun.step (h : Begun p w) (hg : Ground w) (hP : responsive e) (he : SysStep J w e w') :
    Begun ((w, e) :: p) w' := by
  intro s m hb
  have hold : ∀ {s₀ : SlotId} {m₀ : Message}, (w.slots s₀).Begun m₀ → m₀.jobId = m.jobId →
      StartedEarly ((w, e) :: p) m.jobId ∨ w'.Written m.jobId := by
    intro s₀ m₀ hb₀ hj
    rw [← hj]
    rcases h s₀ m₀ hb₀ with hearly | hwritten
    · exact .inl (hearly.mono _)
    · exact .inr (hwritten.step hg he)
  have hretry : ∀ {s₀ : SlotId}, (w.slots s₀).message? = some m → 0 < m.retries →
      StartedEarly ((w, e) :: p) m.jobId ∨ w'.Written m.jobId :=
    fun hm hr => hold ⟨hm, .inl hr⟩ rfl
  -- a queued message has begun only as a retry
  have hqueued : ∀ {m₀ : Message}, w'.slots s = .queued m₀ → m₀ = m ∧ 0 < m.retries := by
    intro m₀ hs
    rw [hs] at hb
    refine ⟨Option.some.inj hb.1, ?_⟩
    rcases hb.2 with hr | ⟨_, _, hd, -⟩
    · exact hr
    · cases hd
  cases he.slot hg.bounded s with
  | stays hs => exact hold (hs ▸ hb) rfl
  | published _ _ _ hs _ =>
      obtain ⟨rfl, hr⟩ := hqueued hs
      exact absurd hr (Nat.lt_irrefl 0)
  | retried _ _ hd hp hq hs =>
      obtain ⟨rfl, -⟩ := hqueued hs
      exact hold ⟨by rw [hd]; rfl, .inr ⟨_, _, hd, hp.queue_begun hq⟩⟩
        (hp.queue_copy hq).jobId.symm
  | redelivered _ _ hd hs =>
      obtain ⟨rfl, hr⟩ := hqueued hs
      exact hretry (by rw [hd]; rfl) hr
  | dropped _ _ _ hs => rw [hs] at hb; cases hb.1
  | taken _ hq _ hs =>
      rw [hs] at hb
      obtain rfl := Option.some.inj hb.1
      rcases hb.2 with hr | ⟨_, _, hd, hne⟩
      · exact hretry (by rw [hq]; rfl) hr
      · obtain ⟨-, -, rfl⟩ := Slot.delivered.inj hd
        exact absurd rfl hne
  | @advanced i m₀ worker phase _ _ hev hd _ _ hs =>
      rw [hs] at hb
      obtain rfl := Option.some.inj hb.1
      by_cases hphase : phase = .received
      · subst hphase
        exact begun_of_start hP hev hd he
      · exact hold ⟨by rw [hd]; rfl, .inr ⟨worker, phase, hd, hphase⟩⟩ rfl
  | acknowledged _ _ _ _ hs => rw [hs] at hb; cases hb.1
  | crashed _ hd hs =>
      obtain ⟨rfl, hr⟩ := hqueued hs
      exact hretry (by rw [hd]; rfl) hr

end Step

/-! ## Whole runs -/

section Runs
variable {J : JsonCodec} {allowed : List String} {es : List Event} {w : World} {p : Past}

/-- A row without parent is one `create_job` made, and counts no retry. -/
theorem Lineages.retryCount_pos (h : Lineages p w) {r : Job} (hr : r ∈ w.db.rows) :
    0 < r.retryCount ↔ r.parentJobId ≠ none := by
  rcases h.parent hr with ⟨_, _, _, hmade, _, _⟩ | ⟨_, _, hret, _⟩
  · simp [hmade.retryCount, hmade.parentJobId]
  · simp [hret.retryCount, hret.parentJobId]

/-- What `get_job` answers for a row. -/
theorem getJob_ok {now : Time} {r : Job} (hr : r ∈ w.db.rows) {est : Option Time}
    (he : estimatedNextRun now r = .ok est) :
    ∃ resp, getJob w.db now r.id = .ok resp ∧ resp.estimatedNextRun = est := by
  have hf : w.db.find r.id = some r := Store.find_eq_some.mpr ⟨hr, rfl⟩
  simp only [getJob, hf, he]
  exact ⟨_, rfl, rfl⟩

theorem estimatedNextRun_of_getJob {now : Time} {r : Job} (hr : r ∈ w.db.rows)
    {resp : JobResponse} (h : getJob w.db now r.id = .ok resp) :
    estimatedNextRun now r = .ok resp.estimatedNextRun := by
  have hf : w.db.find r.id = some r := Store.find_eq_some.mpr ⟨hr, rfl⟩
  simp only [getJob, hf] at h
  cases he : estimatedNextRun now r with
  | error e => rw [he] at h; cases h
  | ok est => rw [he] at h; cases h; rfl

theorem run_begun (h : (system J).Run (fun _ e => responsive e) (.init allowed) es w) :
    Ground w ∧ Begun ((system J).past [] (.init allowed) es) w :=
  h.invariant_past (I := fun p w => Ground w ∧ Begun p w)
    (fun hi hP hs => ⟨hi.1.step (step_cases hs), hi.2.step hi.1 hP (step_cases hs)⟩)
    ⟨ground_init allowed, begun_init allowed⟩

/-- When the estimate is right: nothing is scheduled and nothing estimated, or the two times
coincide. -/
theorem estimate_agrees_iff {r : Job}
    (h : (system J).Run (fun _ e => responsive e) (.init allowed) es w) (hr : r ∈ w.db.rows) :
    EstimateAgrees J ((system J).past [] (.init allowed) es) w r.id ↔
      Unscheduled w r ∨ Coincides J ((system J).past [] (.init allowed) es) w r := by
  have hl := (run_lineages h).2
  obtain ⟨-, hbegun⟩ := run_begun h
  have hf : w.db.find r.id = some r := Store.find_eq_some.mpr ⟨hr, rfl⟩
  by_cases hchild : r.status = .pending ∧ 0 < r.retryCount
  · have hparent := (hl.retryCount_pos hr).mp hchild.2
    constructor
    · rintro ⟨resp, hget, hiff, htime⟩
      have hest := estimatedNextRun_of_getJob hr hget
      simp only [estimatedNextRun, if_pos hchild] at hest
      split at hest
      · rename_i hfits
        obtain ⟨s, m, t₀, hw, hsch, ht⟩ := htime _ (Except.ok.inj hest).symm
        refine .inr ⟨hchild.1, hparent, ?_, hfits, s, m, t₀, hw, hsch, ht.symm⟩
        obtain ⟨hslot, hj, hpos, -⟩ := hw
        rcases hbegun s m ⟨by rw [hslot]; rfl, .inl hpos⟩ with hearly | ⟨r', hf', hst⟩
        · exact hj ▸ hearly
        · rw [hj, hf, Option.some.injEq] at hf'
          exact absurd hchild.1 (hf' ▸ hst)
      · cases hest
    · rintro (⟨-, hpar⟩ | ⟨-, -, -, hfits, s, m, t₀, hw, hsch, ht⟩)
      · exact absurd (hpar hchild.1) hparent
      · have hest : estimatedNextRun w.clock r = .ok (some (w.clock + countdown r.retryCount)) :=
          (if_pos hchild).trans (if_pos hfits)
        obtain ⟨resp, hget, hres⟩ := getJob_ok hr hest
        refine ⟨resp, hget, ?_, ?_⟩
        · rw [hres]
          exact iff_of_true (Option.some_ne_none _) ⟨s, m, hw⟩
        · intro t ht'
          rw [hres] at ht'
          exact ⟨s, m, t₀, hw, hsch, (Option.some.inj ht').symm.trans ht.symm⟩
  · have hest : estimatedNextRun w.clock r = .ok none := if_neg hchild
    constructor
    · rintro ⟨resp, hget, hiff, -⟩
      have hnone := Except.ok.inj (hest.symm.trans (estimatedNextRun_of_getJob hr hget))
      refine .inl ⟨fun s m hw => hiff.mpr ⟨s, m, hw⟩ hnone.symm, ?_⟩
      intro hst
      by_contra hpar
      exact hchild ⟨hst, (hl.retryCount_pos hr).mpr hpar⟩
    · rintro (⟨hquiet, -⟩ | ⟨hst, hpar, -⟩)
      · obtain ⟨resp, hget, hres⟩ := getJob_ok hr hest
        refine ⟨resp, hget, ?_, ?_⟩
        · rw [hres]
          exact iff_of_false (fun h => h rfl) fun ⟨s, m, hw⟩ => hquiet s m hw
        · intro t ht
          rw [hres] at ht
          cases ht
      · exact absurd ⟨hst, (hl.retryCount_pos hr).mpr hpar⟩ hchild

end Runs

/-- Job 0 is in the DLQ, and `retry_dlq_job` has published its retry, job 5, as the message in
slot 1.  Two attempts of it fail before the call commits: a retry waits for its 20 seconds, the
very estimate of a first DLQ retry. -/
def waitingEvents : List Event :=
  createEvents 0 "k" ++ startEvents 0 "v" ++ buryEvents 0 ++ (retryEvents 1 0).take 4 ++
    startEvents 1 "v" ++ .work 1 (.ends (.exception ⟨"boom", "Traceback"⟩)) ::
    List.replicate 3 (.work 1 .returns) ++ .tick 10 :: startEvents 2 "v" ++
    .work 2 (.ends (.exception ⟨"boom", "Traceback"⟩)) :: List.replicate 3 (.work 2 .returns) ++
    [.api 1, .api 1]

/-- The retry of job `j` that waits in slot `s`. -/
def World.waiting (w : World) (s : SlotId) (j : Uuid) : Option Message :=
  match w.slots s with
  | .queued m => if m.jobId = j ∧ 0 < m.retries ∧ w.clock < m.eta then some m else none
  | _ => none

theorem waits_of_waiting {w : World} {s : SlotId} {j : Uuid} (h : (w.waiting s j).isSome) :
    ∃ m, w.Waits s j m := by
  unfold World.waiting at h
  split at h
  · rename_i m hs
    split at h
    · rename_i hm
      exact ⟨m, hs, hm⟩
    · cases h
  · cases h

/-- What `get_job` estimates for job `j`. -/
def World.estimate (w : World) (j : Uuid) : Option Time :=
  (getJob w.db w.clock j).toOption.bind JobResponse.estimatedNextRun

/-- A job of `retry_dlq_job` whose retry waits: `get_job` estimates that it runs at 30. -/
theorem estimate_agrees_iff_ping : ∃ w r,
    (system nullCodec).exec pingWorld waitingEvents = some w ∧ r ∈ w.db.rows ∧
    r.parentJobId = some 0 ∧ (∃ m, w.Waits 3 r.id m) ∧ w.estimate r.id = some 30 ∧
    (EstimateAgrees nullCodec ((system nullCodec).past [] pingWorld waitingEvents) w r.id ↔
      Unscheduled w r ∨
        Coincides nullCodec ((system nullCodec).past [] pingWorld waitingEvents) w r) := by
  obtain ⟨w, hw, hrun, hobs⟩ := Machine.exists_run_obs (system nullCodec)
    (fun _ e => responsive e) pingWorld waitingEvents
    (fun w => ((w.db.find 5).map Job.parentJobId, (w.waiting 3 5).isSome, w.estimate 5))
    (some (some 0), true, some 30) (by decide +kernel) (by decide +kernel)
  obtain ⟨hparent, hwait, hest⟩ : (w.db.find 5).map Job.parentJobId = some (some 0) ∧
      (w.waiting 3 5).isSome ∧ w.estimate 5 = some 30 :=
    ⟨congrArg Prod.fst hobs, congrArg (fun o => o.2.1) hobs, congrArg (fun o => o.2.2) hobs⟩
  obtain ⟨r, hr, hpar⟩ := Option.map_eq_some_iff.mp hparent
  obtain ⟨hmem, hid⟩ := Store.find_eq_some.mp hr
  refine ⟨w, r, hw, hmem, hpar, ?_, ?_, estimate_agrees_iff hrun hmem⟩
  · rw [hid]
    exact waits_of_waiting hwait
  · rw [hid]
    exact hest

/-- The first attempt fails; its retry is scheduled ten seconds ahead, and the row is RUNNING. -/
def failedEvents : List Event :=
  createEvents 0 "k" ++ startEvents 0 "v" ++
    .work 0 (.ends (.exception ⟨"boom", "Traceback"⟩)) :: List.replicate 3 (.work 0 .returns)

theorem estimate_missing : ∃ w r,
    (system nullCodec).Run (fun _ e => smooth e) pingWorld failedEvents w ∧ r ∈ w.db.rows ∧
    ¬ EstimateAgrees nullCodec ((system nullCodec).past [] pingWorld failedEvents) w r.id := by
  obtain ⟨w, -, hrun, hobs⟩ := Machine.exists_run_obs (system nullCodec) (fun _ e => smooth e)
    pingWorld failedEvents
    (fun w => ((w.db.find 0).isSome, (w.waiting 1 0).isSome, w.estimate 0))
    (true, true, none) (by decide) (by decide)
  obtain ⟨hsome, hwait, hest⟩ : (w.db.find 0).isSome = true ∧
      (w.waiting 1 0).isSome ∧ w.estimate 0 = none :=
    ⟨congrArg Prod.fst hobs, congrArg (fun o => o.2.1) hobs, congrArg (fun o => o.2.2) hobs⟩
  obtain ⟨r, hr⟩ := Option.isSome_iff_exists.mp hsome
  obtain ⟨hmem, hid⟩ := Store.find_eq_some.mp hr
  refine ⟨w, r, hrun, hmem, ?_⟩
  rintro ⟨resp, hget, hiff, -⟩
  rw [hid] at hget hiff
  have hnone : resp.estimatedNextRun = none := by
    simpa [World.estimate, hget, Except.toOption] using hest
  obtain ⟨m, hm⟩ := waits_of_waiting hwait
  exact hiff.mpr ⟨1, m, hm⟩ hnone

end Aegis
