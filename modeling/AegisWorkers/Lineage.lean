/-
# `AegisWorkers.Lineage` — retries of retries, back to the request

`retry_dlq_job` copies task name and payload from a row of any age into a new row that
names it as `parent_job_id`, one retry further.  So the rows form a forest in which
`retry_count` is the depth, the roots are what `create_job` made, and everything ever
published under a root carries the root's task name and payload.

    op.Accepted p c    the request `op` of call `c` has come, and has passed the whitelist
    r.Stems p w c      call `c` built the row `r`, from its request or from a committed row
    parentOf db r      the row `parent_job_id` names

`p` is the past of the run: the whitelist is checked when the request arrives, and it may
have been deployed anew since.
-/
import AegisWorkers.Deliveries
import AegisWorkers.Forest

namespace Aegis

open BaseTask JobService ReadCommitted

/-- What happened in a run, the latest first. -/
abbrev Past := List (World × Event)

/-- The request `op` has come in call `c`, and what `create_job` checks held then. -/
def Op.Accepted (op : Op) (p : Past) (c : CallId) : Prop :=
  ∃ w₀, (w₀, .call c op) ∈ p ∧ ∀ req, op = .createJob req → req.taskName ∈ w₀.allowedTaskNames

/-- The row that `parent_job_id` names. -/
def parentOf (db : Db) (r : Job) : Option Job := r.parentJobId.bind db.find

/-- The row is what `create_job` makes of the request. -/
structure Job.MadeOf (r : Job) (req : JobCreateRequest) : Prop where
  parentJobId : r.parentJobId = none
  retryCount : r.retryCount = 0
  taskName : r.taskName = req.taskName
  payload : r.payload = req.payload
  idempotencyKey : r.idempotencyKey = req.idempotencyKey

/-- The row `r` is what `retry_dlq_job` makes of the row `original`. -/
structure Job.Retries (r original : Job) : Prop where
  parentJobId : r.parentJobId = some original.id
  retryCount : r.retryCount = original.retryCount + 1
  taskName : r.taskName = original.taskName
  payload : r.payload = original.payload

/-- Call `c` built the row `r`, from its request or from a committed row. -/
inductive Job.Stems (p : Past) (w : World) (c : CallId) (r : Job) : Prop
  | created {req : JobCreateRequest} : (Op.createJob req).Accepted p c → r.MadeOf req →
      Stems p w c r
  | retried {original : Job} : (Op.retryDlqJob original.id).Accepted p c →
      original ∈ w.db.rows → r.Retries original → Stems p w c r

/-- Every call in flight, every row and every published message stems from an accepted
request. -/
structure Lineages (p : Past) (w : World) : Prop where
  accepted : ∀ c op, (w.calls c).op? = some op → op.Accepted p c
  checked : ∀ c j began original, w.calls c = .retryDlqJob j (.checked began original) →
    original.id = j ∧ ∃ r ∈ w.db.rows, original.Origin r
  submitting : ∀ c sub stage, w.calls c = .submitting sub stage → sub.job.Stems p w c
  rows : ∀ r ∈ w.db.rows, ∃ c, .committed c r.id ∈ w.trace ∧ r.Stems p w c
  published : ∀ c m, .published c m ∈ w.trace → ∃ r : Job, r.Stems p w c ∧ r.EnqueuedAs m

theorem lineages_init (allowed : List String) : Lineages [] (.init allowed) where
  accepted _ _ h := nomatch h
  checked _ _ _ _ h := nomatch h
  submitting _ _ _ h := nomatch h
  rows _ h := nomatch h
  published _ _ h := nomatch h

/-! ## The request of a call -/

section Calls
variable {J : JsonCodec} {w w' : World} {e : Event} {c : CallId}

/-- A request that comes in flight is the one that has come, and passed the whitelist. -/
theorem enter_op? {allowed : List String} {op op' : Op} (h : (enter allowed op).op? = some op') :
    op' = op ∧ ∀ req, op = .createJob req → req.taskName ∈ allowed := by
  cases op with
  | createJob req =>
      simp only [enter] at h
      split at h
      · rename_i hmem
        refine ⟨(Option.some.inj h).symm, ?_⟩
        intro req' hreq
        exact Op.createJob.inj hreq ▸ hmem
      · cases h
  | cancelJob j =>
      refine ⟨(Option.some.inj h).symm, ?_⟩
      intro req hreq
      cases hreq
  | retryDlqJob j =>
      refine ⟨(Option.some.inj h).symm, ?_⟩
      intro req hreq
      cases hreq

theorem Local.op? {x y : Call} (h : Local w x y) : y.op? = none ∨ y.op? = x.op? := by
  cases h with
  | hit _ => exact .inl rfl
  | refresh _ => exact .inl rfl
  | _ => exact .inr rfl

theorem Builds.op? {x : Call} {n : Nat} {sub : Submission} (h : Builds w x n sub) :
    x.op? = some sub.op := by
  cases h <;> rfl

/-- A call stays with its operation, ends, or has just come. -/
theorem ApiStep.op? (h : ApiStep w c w') : (w'.calls c).op? = none ∨
    (w'.calls c).op? = (w.calls c).op? ∨ w.calls c = .idle := by
  cases h with
  | enter op hidle => exact .inr (.inr hidle)
  | move hl =>
      rw [calls_setCall_self]
      rcases hl.op? with h | h
      · exact .inl h
      · exact .inr (.inl h)
  | flush hb _ => exact .inr (.inl (by rw [calls_setCall_self, hb.op?]; rfl))
  | send hc => exact .inr (.inl (by rw [calls_setCall_self, hc]; rfl))
  | land hc => exact .inr (.inl (by rw [calls_setCall_self, hc]; rfl))
  | lock hc _ => exact .inr (.inl (by rw [calls_setCall_self, hc]; rfl))
  | revoke _ hc _ => exact .inr (.inl (by rw [calls_setCall_self, hc]; rfl))
  | raise _ _ => exact .inl (by rw [calls_raise_self]; rfl)
  | violate _ _ => exact .inl (by rw [calls_raise_self]; rfl)
  | cancel _ => exact .inl (by rw [calls_return_self]; rfl)

/-- The operation of a call in flight is an old one, or its request has just come. -/
theorem step_op? (hs : (system J).step w e = some w') {op : Op}
    (hop : (w'.calls c).op? = some op) : (w.calls c).op? = some op ∨
      e = .call c op ∧ ∀ req, op = .createJob req → req.taskName ∈ w.allowedTaskNames := by
  by_cases he : e.call? = some c
  · rcases (step_api he hs).op? with h | h | hidle
    · rw [h] at hop
      cases hop
    · exact .inl (h ▸ hop)
    · obtain ⟨op', rfl, rfl⟩ := step_idle he hs hidle
      rw [calls_setCall_self] at hop
      obtain ⟨rfl, hmem⟩ := enter_op? hop
      exact .inr ⟨rfl, hmem⟩
  · rw [step_calls_ne he hs] at hop
    exact .inl hop

end Calls

/-! ## Moves of a call, back one step -/

/-- The commit of a submission is seen. -/
theorem ApiStep.shows_commit {w w' : World} {c : CallId} {sub : Submission} {t : Uuid}
    (h : ApiStep w c w') (hc : w.calls c = .submitting sub (.sent t)) (hr : sub.row t ∈ w'.db.rows)
    (hn : sub.row t ∉ w.db.rows) : .committed c sub.job.id ∈ w'.trace := by
  cases h with
  | @land sub' t' hc' =>
      rw [hc, Call.submitting.injEq] at hc'
      obtain ⟨rfl, -⟩ := hc'
      simp
  | flush _ hi => exact absurd ((Store.insert_eq_inserted hi).1 ▸ hr) hn
  | cancel hc' => rw [hc] at hc'; cases hc'
  | lock hc' _ => rw [hc] at hc'; cases hc'
  | _ => exact absurd hr hn

theorem Local.checked_retry {w : World} {x : Call} {j : Uuid} {began : Time} {original : Job}
    (h : Local w x (.retryDlqJob j (.checked began original))) :
    w.db.find j = some original ∧ original.status = .dlq := by
  cases h with
  | checkRetry hf hd => exact ⟨hf, hd⟩

/-- A call that has just read a DLQ row is in `retry_dlq_job`. -/
theorem ApiStep.checked_retry {w w' : World} {c : CallId} (h : ApiStep w c w') {j : Uuid}
    {began : Time} {original : Job} (hc : w'.calls c = .retryDlqJob j (.checked began original)) :
    w.db.find j = some original ∧ original.status = .dlq := by
  cases h with
  | enter op _ =>
      rw [calls_setCall_self] at hc
      have hx := enter_cases w.allowedTaskNames op
      rw [hc] at hx
      cases hx
  | @move y hl =>
      rw [calls_setCall_self] at hc
      exact Local.checked_retry (hc ▸ hl)
  | _ => simp at hc

/-! ## Preservation -/

section Step
variable {J : JsonCodec} {w w' : World} {e : Event} {p : Past} {c : CallId}

theorem Op.Accepted.mono {op : Op} (h : op.Accepted p c) (x : World × Event) :
    op.Accepted (x :: p) c := by
  obtain ⟨w₀, hmem, hreq⟩ := h
  exact ⟨w₀, List.mem_cons_of_mem _ hmem, hreq⟩

theorem Job.MadeOf.origin {r r' : Job} {req : JobCreateRequest} (h : r.MadeOf req)
    (ho : r.Origin r') : r'.MadeOf req :=
  ⟨ho.parentJobId.trans h.parentJobId, ho.retryCount.trans h.retryCount,
    ho.taskName.trans h.taskName, ho.payload.trans h.payload,
    ho.idempotencyKey.trans h.idempotencyKey⟩

theorem Job.Retries.origin {r r' a a' : Job} (h : r.Retries a) (hr : r.Origin r')
    (ha : a.Origin a') : r'.Retries a' :=
  ⟨by rw [hr.parentJobId, h.parentJobId, ha.id],
    by rw [hr.retryCount, h.retryCount, ha.retryCount],
    by rw [hr.taskName, h.taskName, ha.taskName], by rw [hr.payload, h.payload, ha.payload]⟩

theorem Job.Stems.origin {r r' : Job} (h : r.Stems p w c) (ho : r.Origin r') :
    r'.Stems p w c := by
  cases h with
  | created hacc hmade => exact .created hacc (hmade.origin ho)
  | retried hacc hmem hret => exact .retried hacc hmem (hret.origin ho (.refl _))

theorem Job.Stems.row {sub : Submission} (h : sub.job.Stems p w c) (t : Uuid) :
    (sub.row t).Stems p w c := by
  cases h with
  | created hacc hm =>
      exact .created hacc ⟨hm.parentJobId, hm.retryCount, hm.taskName, hm.payload,
        hm.idempotencyKey⟩
  | retried hacc hmem hr =>
      exact .retried hacc hmem ⟨hr.parentJobId, hr.retryCount, hr.taskName, hr.payload⟩

theorem Job.Stems.step {r : Job} (h : r.Stems p w c) (hs : Sessions w) (he : SysStep J w e w') :
    r.Stems ((w, e) :: p) w' c := by
  cases h with
  | created hacc hmade => exact .created (hacc.mono _) hmade
  | @retried original hacc hmem hret =>
      obtain ⟨original', hmem', ho⟩ := he.origin hs hmem
      exact .retried (ho.id ▸ hacc.mono _) hmem' (hret.origin (.refl r) ho)

/-- The row a call is about to insert stems from its request. -/
theorem Lineages.builds (h : Lineages p w) {n : Nat} {sub : Submission}
    (hb : Builds w (w.calls c) n sub) : sub.job.Stems p w c := by
  generalize hx : w.calls c = x at hb
  cases hb with
  | create => exact .created (h.accepted c _ (by rw [hx]; rfl)) ⟨rfl, rfl, rfl, rfl, rfl⟩
  | @retry j began original =>
      obtain ⟨rfl, r, hr, ho⟩ := h.checked c j began original hx
      have hret : (retryJob (w.uuid + 1) (dlqRetryKey w.uuid) original began).Retries original :=
        ⟨rfl, rfl, rfl, rfl⟩
      exact .retried (ho.id ▸ h.accepted c _ (by rw [hx]; rfl)) hr (hret.origin (.refl _) ho)

theorem Lineages.step (h : Lineages p w) (hg : Ground w) (hs : (system J).step w e = some w') :
    Lineages ((w, e) :: p) w' := by
  have he := step_cases hs
  constructor
  · intro c op hop
    rcases step_op? hs hop with hop₀ | ⟨rfl, hmem⟩
    · exact (h.accepted c op hop₀).mono _
    · exact ⟨w, List.mem_cons_self, hmem⟩
  · intro c j began original hc
    have hold : (original.id = j ∧ ∃ r ∈ w.db.rows, original.Origin r) →
        original.id = j ∧ ∃ r ∈ w'.db.rows, original.Origin r := by
      rintro ⟨hid, r, hr, ho⟩
      obtain ⟨r', hr', ho'⟩ := he.origin hg.sessions hr
      exact ⟨hid, r', hr', ho.trans ho'⟩
    by_cases hc₀ : e.call? = some c
    · obtain ⟨hf, -⟩ := (step_api hc₀ hs).checked_retry hc
      obtain ⟨hmem, hid⟩ := Store.find_eq_some.mp hf
      exact hold ⟨hid, original, hmem, .refl _⟩
    · rw [step_calls_ne hc₀ hs] at hc
      exact hold (h.checked c j began original hc)
  · intro c sub stage hc
    rcases he.api_or_offstage with ⟨c₀, -, ha⟩ | ⟨-, ho⟩
    · by_cases hne : c = c₀
      · subst hne
        rcases ha.submitting hc with ⟨n, hb⟩ | ⟨stage', hc'⟩
        · exact (h.builds hb).step hg.sessions he
        · exact (h.submitting c sub stage' hc').step hg.sessions he
      · exact (h.submitting c sub stage (ha.calls_ne hne ▸ hc)).step hg.sessions he
    · exact (h.submitting c sub stage (ho.calls ▸ hc)).step hg.sessions he
  · intro r hr
    rcases he.row_origin hg hr with ⟨r₀, hr₀, ho⟩ | ⟨c, sub, t, hc, hx, rfl⟩
    · obtain ⟨c, hcom, hst⟩ := h.rows r₀ hr₀
      exact ⟨c, ho.id ▸ he.trace_suffix.subset hcom, (hst.origin ho).step hg.sessions he⟩
    · have hnew : sub.row t ∉ w.db.rows := by
        intro hmem
        exact Store.find_eq_none.mp (hg.sessions.unborn hx nofun) _ hmem rfl
      refine ⟨c, (step_api hc hs).shows_commit hx hr hnew, ?_⟩
      exact ((h.submitting c sub _ hx).row t).step hg.sessions he
  · intro c m hm
    rcases he.shows_published hm with hm₀ | ⟨sub, -, hx, rfl⟩
    · obtain ⟨r, hst, henq⟩ := h.published c m hm₀
      exact ⟨r, hst.step hg.sessions he, henq⟩
    · refine ⟨sub.row w.uuid, ?_, (hg.submissions.coherent c sub _ hx).enqueuedAs w.uuid⟩
      exact ((h.submitting c sub _ hx).row w.uuid).step hg.sessions he

end Step

/-! ## The forest -/

/-- Climbing from `r` ends at `root`, which call `c` has made of the accepted request `req`,
and every row on the way carries the request's task name and payload. -/
structure Job.Rooted (p : Past) (w : World) (r root : Job) (c : CallId) (req : JobCreateRequest) :
    Prop where
  climb : Forest.climb (parentOf w.db) r.retryCount r = some root
  accepted : (Op.createJob req).Accepted p c
  made : root.MadeOf req
  committed : root ∈ w.db.rows ∧ .committed c root.id ∈ w.trace
  along : ∀ n a, Forest.climb (parentOf w.db) n r = some a → a ∈ w.db.rows ∧
    a.taskName = req.taskName ∧ a.payload = req.payload ∧ a.retryCount + n = r.retryCount ∧
    (a.parentJobId = none ↔ n = r.retryCount)
  simple : ∀ m n a, Forest.climb (parentOf w.db) m r = some a →
    Forest.climb (parentOf w.db) n r = some a → m = n

section Forest
variable {p : Past} {w : World}

/-- A row is a root, or a retry of the row its `parent_job_id` names. -/
theorem Lineages.parent (h : Lineages p w) {r : Job} (hr : r ∈ w.db.rows) :
    (∃ c req, (Op.createJob req).Accepted p c ∧ r.MadeOf req ∧ .committed c r.id ∈ w.trace ∧
        parentOf w.db r = none) ∨
      ∃ original ∈ w.db.rows, r.Retries original ∧ parentOf w.db r = some original := by
  obtain ⟨c, hcom, hst⟩ := h.rows r hr
  cases hst with
  | created hacc hmade =>
      refine .inl ⟨c, _, hacc, hmade, hcom, ?_⟩
      rw [parentOf, hmade.parentJobId]
      rfl
  | @retried original _ hmem hret =>
      refine .inr ⟨original, hmem, hret, ?_⟩
      rw [parentOf, hret.parentJobId]
      exact Store.find_eq_some.mpr ⟨hmem, rfl⟩

theorem Lineages.ranked (h : Lineages p w) :
    Forest.Ranked (parentOf w.db) Job.retryCount (· ∈ w.db.rows) where
  root r hr hnone := by
    rcases h.parent hr with ⟨_, _, _, hmade, _, _⟩ | ⟨_, _, _, hsome⟩
    · exact hmade.retryCount
    · rw [hnone] at hsome
      cases hsome
  child r a hr hp := by
    rcases h.parent hr with ⟨_, _, _, _, _, hnone⟩ | ⟨original, hmem, hret, hsome⟩
    · rw [hnone] at hp
      cases hp
    · obtain rfl : original = a := Option.some.inj (hsome.symm.trans hp)
      exact ⟨hmem, hret.retryCount⟩

/-- The rows on a climb share their task name and payload. -/
theorem Lineages.climb (h : Lineages p w) {n : Nat} {r a : Job} (hr : r ∈ w.db.rows)
    (ha : Forest.climb (parentOf w.db) n r = some a) :
    a ∈ w.db.rows ∧ a.taskName = r.taskName ∧ a.payload = r.payload := by
  refine Forest.climb_rel (P := (· ∈ w.db.rows))
    (R := fun r a => a.taskName = r.taskName ∧ a.payload = r.payload) (fun _ => ⟨rfl, rfl⟩)
    (fun h h' => ⟨h'.1.trans h.1, h'.2.trans h.2⟩) ?_ hr ha
  intro r a hr hp
  rcases h.parent hr with ⟨_, _, _, _, _, hnone⟩ | ⟨original, hmem, hret, hsome⟩
  · rw [hnone] at hp
    cases hp
  · obtain rfl : original = a := Option.some.inj (hsome.symm.trans hp)
    exact ⟨hmem, hret.taskName.symm, hret.payload.symm⟩

theorem Lineages.parentJobId_eq_none (h : Lineages p w) {r : Job} (hr : r ∈ w.db.rows) :
    r.parentJobId = none ↔ parentOf w.db r = none := by
  constructor
  · intro hnone
    rw [parentOf, hnone]
    rfl
  · intro hnone
    rcases h.parent hr with ⟨_, _, _, hmade, _, _⟩ | ⟨_, _, _, hsome⟩
    · exact hmade.parentJobId
    · rw [hnone] at hsome
      cases hsome

theorem Lineages.rooted (h : Lineages p w) {r : Job} (hr : r ∈ w.db.rows) :
    ∃ root c req, r.Rooted p w root c req := by
  obtain ⟨root, hroot, hmem, hnone⟩ := h.ranked.exists_root hr rfl
  obtain ⟨-, htask, hpay⟩ := h.climb hr hroot
  rcases h.parent hmem with ⟨c, req, hacc, hmade, hcom, -⟩ | ⟨_, _, _, hsome⟩
  · refine ⟨root, c, req, hroot, hacc, hmade, ⟨hmem, hcom⟩, ?_, ?_⟩
    · intro n a ha
      obtain ⟨hmem', htask', hpay'⟩ := h.climb hr ha
      refine ⟨hmem', ?_, ?_, (h.ranked.climb_rank hr ha).2, ?_⟩
      · rw [htask', ← htask, hmade.taskName]
      · rw [hpay', ← hpay, hmade.payload]
      · rw [h.parentJobId_eq_none hmem']
        exact h.ranked.root_iff hr ha
    · intro m n a hm hn
      exact h.ranked.climb_inj hr hm hn
  · rw [hnone] at hsome
    cases hsome

/-- A published message says what an accepted request said: that of the call that published
it, or the one at the root of the row the call retries. -/
theorem Lineages.message (h : Lineages p w) {c : CallId} {m : Message}
    (hm : .published c m ∈ w.trace) : ∃ c₀ req, (Op.createJob req).Accepted p c₀ ∧
      m.taskName = req.taskName ∧ m.payload = req.payload ∧
      (c₀ = c ∨ ∃ original ∈ w.db.rows, ∃ root, (Op.retryDlqJob original.id).Accepted p c ∧
        original.Rooted p w root c₀ req) := by
  obtain ⟨r, hst, henq⟩ := h.published c m hm
  rw [henq.taskName, henq.payload]
  cases hst with
  | created hacc hmade => exact ⟨c, _, hacc, hmade.taskName, hmade.payload, .inl rfl⟩
  | @retried original hacc hmem hret =>
      obtain ⟨root, c₀, req, hrooted⟩ := h.rooted hmem
      obtain ⟨-, htask, hpay, -⟩ := hrooted.along 0 original rfl
      exact ⟨c₀, req, hrooted.accepted, hret.taskName.trans htask, hret.payload.trans hpay,
        .inr ⟨original, hmem, root, hacc, hrooted⟩⟩

end Forest

/-! ## Whole runs -/

theorem run_lineages {J : JsonCodec} {P : World → Event → Prop} {allowed : List String}
    {es : List Event} {w : World} (h : (system J).Run P (.init allowed) es w) :
    Ground w ∧ Lineages ((system J).past [] (.init allowed) es) w :=
  h.invariant_past (I := fun p w => Ground w ∧ Lineages p w)
    (fun hi _ hs => ⟨hi.1.step (step_cases hs), hi.2.step hi.1 hs⟩)
    ⟨ground_init allowed, lineages_init allowed⟩

/-- Retry lineages are faithful: every row climbs in `retry_count` steps to the root that an
accepted `create_job` request made, past rows with the root's task name and payload; every
published message says what the request at the root said; and no step changes the columns a
row was inserted with. -/
theorem lineage_faithful {J : JsonCodec} {allowed : List String} {es : List Event} {w : World}
    (h : (system J).Run (fun _ _ => True) (.init allowed) es w) :
    (∀ r ∈ w.db.rows, ∃ root c req,
      r.Rooted ((system J).past [] (.init allowed) es) w root c req) ∧
    (∀ c m, .published c m ∈ w.trace → ∃ c₀ req,
      (Op.createJob req).Accepted ((system J).past [] (.init allowed) es) c₀ ∧
      m.taskName = req.taskName ∧ m.payload = req.payload ∧
      (c₀ = c ∨ ∃ original ∈ w.db.rows, ∃ root,
        (Op.retryDlqJob original.id).Accepted ((system J).past [] (.init allowed) es) c ∧
        original.Rooted ((system J).past [] (.init allowed) es) w root c₀ req)) ∧
    ∀ e w', (system J).step w e = some w' → ∀ r ∈ w.db.rows, ∃ r' ∈ w'.db.rows, r.Origin r' := by
  obtain ⟨hg, hl⟩ := run_lineages h
  refine ⟨fun r hr => hl.rooted hr, fun c m hm => hl.message hm, ?_⟩
  intro e w' hs r hr
  exact (step_cases hs).origin hg.sessions hr

/-- A job that goes to DLQ and is retried: the new row is one step from its root. -/
theorem lineage_faithful_ping : ∃ w r, (system nullCodec).exec pingWorld
      (createEvents 0 "k" ++ startEvents 0 "v" ++ buryEvents 0 ++ retryEvents 1 0) = some w ∧
    r ∈ w.db.rows ∧ r.retryCount = 1 ∧ ∃ root c req, r.Rooted ((system nullCodec).past []
      pingWorld (createEvents 0 "k" ++ startEvents 0 "v" ++ buryEvents 0 ++ retryEvents 1 0))
      w root c req := by
  obtain ⟨w, hw, hrun, hcount⟩ := Machine.exists_run_obs (system nullCodec) (fun _ _ => True)
    pingWorld (createEvents 0 "k" ++ startEvents 0 "v" ++ buryEvents 0 ++ retryEvents 1 0)
    (fun w => (w.db.find 5).map Job.retryCount) (some 1) (by decide) (by decide)
  obtain ⟨r, hr, hone⟩ := Option.map_eq_some_iff.mp hcount
  have hmem := (Store.find_eq_some.mp hr).1
  exact ⟨w, r, hw, hmem, hone, (lineage_faithful hrun).1 r hmem⟩

end Aegis
