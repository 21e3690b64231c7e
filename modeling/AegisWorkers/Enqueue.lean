/-
# `AegisWorkers.Enqueue` — rows and the messages published for them

`create_job` and `retry_dlq_job` publish before they commit, so a row is never
without its message: the message of a submission is there from `send_task` on,
and the row, when it appears, carries the id of that message.  `Enqueued` is the
invariant, and it holds whatever fails and whoever moves.

    w.published        the messages the API has published, the latest first
    w.publishedFor j   those of job `j`
    r.EnqueuedAs m     the message `m` says what the row `r` says
    m.Copy m'          one message, delivered or retried

Later modules need the second half: every message in the queue is a copy of a
published one, so the task id of a message belongs to one job.
-/
import AegisWorkers.Sessions

namespace Aegis

open BaseTask JobService ReadCommitted

/-! ## Published messages -/

/-- The message an API call was seen to publish. -/
def Obs.message? : Obs → Option Message
  | .published _ m => some m
  | _ => none

/-- The messages the API has published. -/
def World.published (w : World) : List Message := w.trace.filterMap Obs.message?

/-- The messages the API has published for one job. -/
def World.publishedFor (w : World) (j : Uuid) : List Message :=
  w.published.filter fun m => m.jobId = j

theorem mem_publishedFor {w : World} {j : Uuid} {m : Message} :
    m ∈ w.publishedFor j ↔ m ∈ w.published ∧ m.jobId = j := by
  simp [World.publishedFor]

theorem published_append {w w' : World} {new : List Obs} (h : w'.trace = new ++ w.trace)
    (hn : ∀ o ∈ new, ¬ o.OfApi) : w'.published = w.published := by
  have hnone : new.filterMap Obs.message? = [] := by
    refine List.filterMap_eq_nil_iff.mpr ?_
    intro o ho
    cases o with
    | published c m => exact absurd trivial (hn _ ho)
    | _ => rfl
  rw [World.published, h, List.filterMap_append, hnone]
  rfl

theorem Offstage.published {w w' : World} (h : Offstage w w') : w'.published = w.published := by
  obtain ⟨new, ht, hn⟩ := h.trace
  exact published_append ht hn

/-- What one move of call `c` publishes: nothing, or the message of its submission. -/
inductive PublishStep (w : World) (c : CallId) (w' : World) : Prop
  | same : w'.published = w.published →
      (∀ sub t, w'.calls c ≠ .submitting sub (.sent t)) → PublishStep w c w'
  | sent (sub : Submission) : w.calls c = .submitting sub .flushed →
      w'.calls c = .submitting sub (.sent w.uuid) →
      w'.published = message sub w.uuid :: w.published → w'.uuid = w.uuid + 1 →
      w'.slots w.nextSlot = .queued (message sub w.uuid) → PublishStep w c w'

theorem ApiStep.published {w w' : World} {c : CallId} (h : ApiStep w c w') :
    PublishStep w c w' := by
  cases h with
  | enter op _ =>
      refine .same rfl ?_
      intro sub t hc
      rw [calls_setCall_self] at hc
      have hx := enter_cases w.allowedTaskNames op
      rw [hc] at hx
      cases hx
  | @move y hl =>
      refine .same rfl ?_
      intro sub t ht
      rw [calls_setCall_self] at ht
      exact Local.not_submitting (ht ▸ hl)
  | send hc => exact .sent _ hc (Function.update_self ..) rfl rfl (Function.update_self ..)
  | land hc =>
      refine .same ?_ ?_
      · simp only [World.published, trace_setCall, trace_countSubmission, trace_observe]
        rfl
      · intro sub t
        simp
  | _ =>
      refine .same rfl ?_
      intro sub t
      simp

theorem ApiStep.published_subset {w w' : World} {c : CallId} (h : ApiStep w c w') :
    w.published ⊆ w'.published := by
  cases h.published with
  | same hp _ => exact hp ▸ List.Subset.refl _
  | sent sub _ _ hp _ _ => exact hp ▸ List.subset_cons_self _ _

/-- A message was published before, or `send_task` of call `c` has just returned. -/
theorem SysStep.shows_published {J : JsonCodec} {w w' : World} {e : Event}
    (h : SysStep J w e w') {c : CallId} {m : Message} (hm : .published c m ∈ w'.trace) :
    .published c m ∈ w.trace ∨
      ∃ sub, e.call? = some c ∧ w.calls c = .submitting sub .flushed ∧ m = message sub w.uuid := by
  rcases h.api_or_offstage with ⟨c', hc', ha⟩ | ⟨-, ho⟩
  · cases ha with
    | @send sub hc =>
        rcases List.mem_cons.mp hm with heq | hm₀
        · obtain ⟨rfl, rfl⟩ := Obs.published.inj heq
          exact .inr ⟨sub, hc', hc, rfl⟩
        · exact .inl hm₀
    | land _ =>
        refine .inl ?_
        simpa only [trace_setCall, trace_countSubmission, trace_observe, List.mem_cons,
          reduceCtorEq, false_or] using hm
    | cancel _ => exact .inl ((List.mem_cons.mp hm).resolve_left nofun)
    | revoke _ _ _ => exact .inl ((List.mem_cons.mp hm).resolve_left nofun)
    | flush _ hi => exact .inl hm
    | _ => exact .inl hm
  · obtain ⟨new, ht, hn⟩ := ho.trace
    rw [ht, List.mem_append] at hm
    exact .inl (hm.resolve_left fun hnew => hn _ hnew trivial)

/-- A call that has just flushed has built its submission in this very move. -/
theorem ApiStep.flushed {w w' : World} {c : CallId} (h : ApiStep w c w') {sub : Submission}
    (hc : w'.calls c = .submitting sub .flushed) : ∃ n, Builds w (w.calls c) n sub := by
  cases h with
  | enter op _ =>
      rw [calls_setCall_self] at hc
      have hx := enter_cases w.allowedTaskNames op
      rw [hc] at hx
      cases hx
  | move hl =>
      rw [calls_setCall_self] at hc
      exact absurd (hc ▸ hl) Local.not_submitting
  | flush hb _ =>
      rw [calls_setCall_self, Call.submitting.injEq] at hc
      exact ⟨_, hc.1 ▸ hb⟩
  | _ => simp at hc

theorem Local.checked {w : World} {x : Call} {j : Uuid} {began : Time} {job : Job}
    (h : Local w x (.cancelJob j (.checked began job))) :
    w.db.find j = some job ∧ job.status = .pending := by
  cases h with
  | checkCancel hf hp => exact ⟨hf, hp⟩

/-- A call that has just read a PENDING row is in `cancel_job`. -/
theorem ApiStep.checked {w w' : World} {c : CallId} (h : ApiStep w c w') {j : Uuid} {began : Time}
    {job : Job} (hc : w'.calls c = .cancelJob j (.checked began job)) :
    w.db.find j = some job ∧ job.status = .pending := by
  cases h with
  | enter op _ =>
      rw [calls_setCall_self] at hc
      have hx := enter_cases w.allowedTaskNames op
      rw [hc] at hx
      cases hx
  | @move y hl =>
      rw [calls_setCall_self] at hc
      exact Local.checked (hc ▸ hl)
  | _ => simp at hc

/-! ## The row and its message -/

/-- The message `m` says what the row `r` says. -/
structure Job.EnqueuedAs (r : Job) (m : Message) : Prop where
  jobId : m.jobId = r.id
  taskName : m.taskName = r.taskName
  idempotencyKey : m.idempotencyKey = r.idempotencyKey
  payload : m.payload = r.payload
  celeryTaskId : r.celeryTaskId = some m.id

theorem Job.EnqueuedAs.origin {r r' : Job} {m : Message} (h : r.EnqueuedAs m)
    (ho : r.Origin r') : r'.EnqueuedAs m :=
  ⟨h.jobId.trans ho.id.symm, h.taskName.trans ho.taskName.symm,
    h.idempotencyKey.trans ho.idempotencyKey.symm, h.payload.trans ho.payload.symm,
    ho.celeryTaskId.trans h.celeryTaskId⟩

theorem Submission.Coherent.enqueuedAs {sub : Submission} (h : sub.Coherent) (t : Uuid) :
    (sub.row t).EnqueuedAs (message sub t) :=
  ⟨rfl, h.taskName.symm, h.idempotencyKey.symm, h.payload.symm, rfl⟩

/-- Every submission, from `send_task` on, has one published message, and so has
every row.  The task id that `cancel_job` has read is that of the job's message. -/
structure Enqueued (w : World) : Prop where
  ids : ∀ m ∈ w.published, m.id < w.uuid ∧ m.jobId < w.uuid
  unique : ∀ m ∈ w.published, ∀ m' ∈ w.published, m.id = m'.id → m = m'
  flushed : ∀ c sub, w.calls c = .submitting sub .flushed → w.publishedFor sub.job.id = []
  sent : ∀ c sub t, w.calls c = .submitting sub (.sent t) →
    w.publishedFor sub.job.id = [message sub t]
  checked : ∀ c j began job, w.calls c = .cancelJob j (.checked began job) →
    ∃ m ∈ w.publishedFor j, job.celeryTaskId = some m.id
  rows : ∀ r ∈ w.db.rows, ∃ m, w.publishedFor r.id = [m] ∧ r.EnqueuedAs m

theorem enqueued_init (allowed : List String) : Enqueued (.init allowed) where
  ids _ h := nomatch h
  unique _ h := nomatch h
  flushed _ _ h := nomatch h
  sent _ _ _ h := nomatch h
  checked _ _ _ _ h := nomatch h
  rows _ h := nomatch h

/-- An id generated from now on is no published message's job. -/
theorem Enqueued.publishedFor_fresh {w : World} (h : Enqueued w) {n : Uuid} (hn : w.uuid ≤ n) :
    w.publishedFor n = [] := by
  refine List.eq_nil_iff_forall_not_mem.mpr ?_
  intro m hm
  obtain ⟨hp, hj⟩ := mem_publishedFor.mp hm
  exact Nat.not_lt.mpr hn (hj ▸ (h.ids m hp).2)

/-- The task id in a row is that of the job's message. -/
theorem Enqueued.task {w : World} (h : Enqueued w) {j : Uuid} {r : Job}
    (hr : w.db.find j = some r) : ∃ m ∈ w.publishedFor j, r.celeryTaskId = some m.id := by
  obtain ⟨hmem, hid⟩ := Store.find_eq_some.mp hr
  obtain ⟨m, hm, he⟩ := h.rows r hmem
  rw [hid] at hm
  exact ⟨m, hm ▸ List.mem_singleton_self m, he.celeryTaskId⟩

theorem publishedFor_cons {w w' : World} {m : Message} (h : w'.published = m :: w.published)
    (j : Uuid) :
    w'.publishedFor j = if m.jobId = j then m :: w.publishedFor j else w.publishedFor j := by
  simp only [World.publishedFor, h, List.filter_cons, decide_eq_true_eq]

theorem publishedFor_eq {w w' : World} (h : w'.published = w.published) (j : Uuid) :
    w'.publishedFor j = w.publishedFor j := by
  simp only [World.publishedFor, h]

section Step
variable {w w' : World} {c : CallId}

/-- The rows keep their messages when the messages of old ids stay. -/
theorem Enqueued.step_rows (h : Enqueued w) (hs : Sessions w) (hsub : Submissions w)
    (ha : ApiStep w c w') (hpub : ∀ r ∈ w.db.rows, w'.publishedFor r.id = w.publishedFor r.id)
    (hsame : ∀ sub t, w.calls c = .submitting sub (.sent t) →
      w'.publishedFor sub.job.id = w.publishedFor sub.job.id) :
    ∀ r ∈ w'.db.rows, ∃ m, w'.publishedFor r.id = [m] ∧ r.EnqueuedAs m := by
  intro r hr
  cases ha.rows (hs c) with
  | same hrows =>
      rw [hrows] at hr
      rw [hpub r hr]
      exact h.rows r hr
  | landed sub t hc _ hrows =>
      rw [hrows, List.mem_append, List.mem_singleton] at hr
      rcases hr with hr | rfl
      · rw [hpub r hr]
        exact h.rows r hr
      · refine ⟨message sub t, ?_, (hsub.coherent c sub _ hc).enqueuedAs t⟩
        show w'.publishedFor sub.job.id = _
        rw [hsame sub t hc]
        exact h.sent c sub t hc
  | cancelled jobId began _ _ hrows =>
      rw [hrows] at hr
      obtain ⟨r₀, hr₀, rfl⟩ := List.mem_map.mp hr
      have ho := (keepsOrigin_cancel began).applyAt jobId r₀
      obtain ⟨m, hm, he⟩ := h.rows r₀ hr₀
      refine ⟨m, ?_, he.origin ho⟩
      rw [ho.id, hpub r₀ hr₀]
      exact hm

/-- A move of a call that publishes nothing. -/
theorem Enqueued.step_quiet (h : Enqueued w) (hg : Ground w) (ha : ApiStep w c w')
    (hp : w'.published = w.published) (hns : ∀ sub t, w'.calls c ≠ .submitting sub (.sent t)) :
    Enqueued w' := by
  have hother : ∀ {c' : CallId}, c' ≠ c → w'.calls c' = w.calls c' := fun hne => ha.calls_ne hne
  have hpf := publishedFor_eq hp
  constructor
  · intro m hm
    rw [hp] at hm
    exact ⟨Nat.lt_of_lt_of_le (h.ids m hm).1 ha.uuid_le,
      Nat.lt_of_lt_of_le (h.ids m hm).2 ha.uuid_le⟩
  · intro m hm m' hm'
    rw [hp] at hm hm'
    exact h.unique m hm m' hm'
  · intro c' sub hc'
    rw [hpf]
    by_cases hne : c' = c
    · subst hne
      obtain ⟨n, hb⟩ := ha.flushed hc'
      exact h.publishedFor_fresh hb.id_lt.1
    · exact h.flushed c' sub (hother hne ▸ hc')
  · intro c' sub t hc'
    rw [hpf]
    by_cases hne : c' = c
    · subst hne
      exact absurd hc' (hns sub t)
    · exact h.sent c' sub t (hother hne ▸ hc')
  · intro c' j began job hc'
    rw [hpf]
    by_cases hne : c' = c
    · subst hne
      exact h.task (ha.checked hc').1
    · exact h.checked c' j began job (hother hne ▸ hc')
  · exact h.step_rows hg.sessions hg.submissions ha (fun r _ => hpf r.id) fun sub _ _ => hpf _

/-- A submission publishes the message of its job. -/
theorem Enqueued.step_publish (h : Enqueued w) (hg : Ground w) (ha : ApiStep w c w')
    {sub₀ : Submission} (hc : w.calls c = .submitting sub₀ .flushed)
    (hc₁ : w'.calls c = .submitting sub₀ (.sent w.uuid))
    (hp : w'.published = message sub₀ w.uuid :: w.published) (huuid : w'.uuid = w.uuid + 1) :
    Enqueued w' := by
  have hother : ∀ {c' : CallId}, c' ≠ c → w'.calls c' = w.calls c' := fun hne => ha.calls_ne hne
  -- the messages of any other id stay, and of this id there were none
  have hpf : ∀ j, j ≠ sub₀.job.id → w'.publishedFor j = w.publishedFor j := by
    intro j hj
    rw [publishedFor_cons hp]
    exact if_neg fun he => hj he.symm
  have hnew : (w.calls c).newId? = some sub₀.job.id := by rw [hc]; rfl
  have hne_id : ∀ {c' : CallId} {sub : Submission} {stage : Stage}, c' ≠ c →
      w'.calls c' = .submitting sub stage → sub.job.id ≠ sub₀.job.id := by
    intro c' sub stage hne hc' he
    refine hne (hg.submissions.unique c' c sub₀.job.id ?_ hnew)
    rw [← hother hne, hc', ← he]
    rfl
  have hid : sub₀.job.id < w.uuid := hg.submissions.fresh c _ hnew
  constructor
  · intro m hm
    rw [hp, List.mem_cons] at hm
    rw [huuid]
    rcases hm with rfl | hm
    · exact ⟨Nat.lt_succ_self _, Nat.lt_succ_of_lt hid⟩
    · exact ⟨Nat.lt_succ_of_lt (h.ids m hm).1, Nat.lt_succ_of_lt (h.ids m hm).2⟩
  · intro m hm m' hm' he
    rw [hp, List.mem_cons] at hm hm'
    rcases hm with rfl | hm
    · rcases hm' with rfl | hm'
      · rfl
      · exact absurd (h.ids m' hm').1 (he ▸ Nat.lt_irrefl _)
    · rcases hm' with rfl | hm'
      · exact absurd (h.ids m hm).1 (he ▸ Nat.lt_irrefl _)
      · exact h.unique m hm m' hm' he
  · intro c' sub hc'
    by_cases hne : c' = c
    · subst hne
      rw [hc₁] at hc'
      cases hc'
    · rw [hpf _ (hne_id hne hc')]
      exact h.flushed c' sub (hother hne ▸ hc')
  · intro c' sub t hc'
    by_cases hne : c' = c
    · subst hne
      rw [hc₁, Call.submitting.injEq, Stage.sent.injEq] at hc'
      obtain ⟨rfl, rfl⟩ := hc'
      rw [publishedFor_cons hp, h.flushed c' sub₀ hc]
      exact if_pos rfl
    · rw [hpf _ (hne_id hne hc')]
      exact h.sent c' sub t (hother hne ▸ hc')
  · intro c' j began job hc'
    by_cases hne : c' = c
    · subst hne
      rw [hc₁] at hc'
      cases hc'
    · obtain ⟨m, hm, ht⟩ := h.checked c' j began job (hother hne ▸ hc')
      obtain ⟨hm, hj⟩ := mem_publishedFor.mp hm
      exact ⟨m, mem_publishedFor.mpr ⟨hp ▸ List.mem_cons_of_mem _ hm, hj⟩, ht⟩
  · refine h.step_rows hg.sessions hg.submissions ha ?_ ?_
    · intro r hr
      refine hpf r.id ?_
      intro he
      obtain ⟨m, hm, -⟩ := h.rows r hr
      rw [he, h.flushed c sub₀ hc] at hm
      cases hm
    · intro sub t ht
      rw [hc] at ht
      cases ht

theorem Enqueued.step_api (h : Enqueued w) (hg : Ground w) (ha : ApiStep w c w') :
    Enqueued w' := by
  cases ha.published with
  | same hp hns => exact h.step_quiet hg ha hp hns
  | sent sub hc hc' hp huuid _ => exact h.step_publish hg ha hc hc' hp huuid

theorem Enqueued.step {J : JsonCodec} {e : Event} (h : Enqueued w) (hg : Ground w)
    (he : SysStep J w e w') : Enqueued w' := by
  rcases he.api_or_offstage with ⟨c, -, ha⟩ | ⟨-, ho⟩
  · exact h.step_api hg ha
  · have hp := ho.published
    have hpf := publishedFor_eq hp
    obtain ⟨hcalls, -, -, huuid, ⟨i, p, hkeep, hrows⟩, -⟩ := ho
    constructor
    · intro m hm
      rw [hp] at hm
      exact ⟨Nat.lt_of_lt_of_le (h.ids m hm).1 huuid, Nat.lt_of_lt_of_le (h.ids m hm).2 huuid⟩
    · intro m hm m' hm'
      rw [hp] at hm hm'
      exact h.unique m hm m' hm'
    · intro c sub hc
      rw [hpf]
      exact h.flushed c sub (hcalls ▸ hc)
    · intro c sub t hc
      rw [hpf]
      exact h.sent c sub t (hcalls ▸ hc)
    · intro c j began job hc
      rw [hpf]
      exact h.checked c j began job (hcalls ▸ hc)
    · intro r hr
      rw [hrows] at hr
      obtain ⟨r₀, hr₀, rfl⟩ := List.mem_map.mp hr
      have hr' := hkeep.applyAt i r₀
      obtain ⟨m, hm, hem⟩ := h.rows r₀ hr₀
      refine ⟨m, ?_, hem.origin hr'⟩
      rw [hr'.id, hpf]
      exact hm

end Step

/-- The ground invariants and `Enqueued` hold in every state of every run. -/
theorem run_enqueued {J : JsonCodec} {P : World → Event → Prop} {allowed : List String}
    {es : List Event} {w : World} (h : (system J).Run P (.init allowed) es w) :
    Ground w ∧ Enqueued w :=
  run_invariant h (ground_init allowed) (enqueued_init allowed) fun hg hi _ hs =>
    hi.step hg (step_cases hs)

/-- Every committed job has been enqueued exactly once, and its message says what
the row says, in every state of every run. -/
theorem committed_enqueued_once {J : JsonCodec} {allowed : List String} {es : List Event}
    {w : World} (h : (system J).Run (fun _ _ => True) (.init allowed) es w) {r : Job}
    (hr : r ∈ w.db.rows) : ∃ m, w.publishedFor r.id = [m] ∧ r.EnqueuedAs m :=
  (run_enqueued h).2.rows r hr

/-- A run with a committed row. -/
theorem committed_enqueued_once_ping : ∃ w r,
    (system nullCodec).exec pingWorld (createEvents 0 "k") = some w ∧ r ∈ w.db.rows ∧
      ∃ m, w.publishedFor r.id = [m] ∧ r.EnqueuedAs m := by
  obtain ⟨w, hw, hrun, hsome⟩ := Machine.exists_run_obs (system nullCodec) (fun _ _ => True)
    pingWorld (createEvents 0 "k") (fun w => (w.db.find 0).isSome) true (by decide) (by decide)
  obtain ⟨r, hr⟩ := Option.isSome_iff_exists.mp hsome
  have hmem := (Store.find_eq_some.mp hr).1
  exact ⟨w, r, hw, hmem, committed_enqueued_once hrun hmem⟩

end Aegis
