/-
# `AegisWorkers.Linearization` — every run is a run of the board

The table, seen without transactions and times, is a board (`World.board`), and every
step of the system tells a few actions of the board, most steps none (`World.tells`):

    SELECT of a call                 read, or missing
    INSERT on a used key             taken
    commit of create_job, retry      submit
    commit of cancel_job             cancel
    whitelist check                  refuse
    UPDATE of a worker               report

The actions told along a run lead the empty board to the board of its last state, and the
actions of one call are exactly those its answer calls for (`Call.Told`).  So concurrent
requests, deliveries, crashes and failures do to the jobs what some sequence of whole
actions does, each taken while its call is on its way.
-/
import AegisWorkers.Board
import AegisWorkers.Deduplication
import AegisWorkers.Lineage

namespace Aegis

open BaseTask JobService ReadCommitted

/-! ## The board of a world -/

/-- What a client is shown of a row. -/
def Job.entry (r : Job) : Entry where
  taskName := r.taskName
  payload := r.payload
  idempotencyKey := r.idempotencyKey
  parentJobId := r.parentJobId
  retryCount := r.retryCount
  status := r.status
  executionCount := r.executionCount
  result := r.result
  errorDetail := r.errorDetail

def World.board (w : World) : Board where
  entry i := (w.db.find i).map Job.entry
  allowedTaskNames := w.allowedTaskNames
  distinct := by
    intro i j x y hx hy hk
    obtain ⟨r, hr, rfl⟩ := Option.map_eq_some_iff.mp hx
    obtain ⟨q, hq, rfl⟩ := Option.map_eq_some_iff.mp hy
    obtain ⟨hrm, rfl⟩ := Store.find_eq_some.mp hr
    obtain ⟨hqm, rfl⟩ := Store.find_eq_some.mp hq
    exact congrArg Job.id (Store.rows_eq_of_uk hrm hqm hk)

/-! ## What a step tells -/

/-- The report an UPDATE of `_update_job_status` makes. -/
def BaseTask.Write.report (wr : Write) : Report :=
  match wr.status with
  | .running => .started
  | .completed => .completed wr.fields.result
  | .failed => .failed (wr.fields.errorDetail.map truncate)
  | _ => .buried

/-- The SELECT of a row by its id. -/
def World.tellsFind (w : World) (c : CallId) (i : Uuid) : List Action :=
  match w.db.find i with
  | some r => [.read c i r.entry]
  | none => [.missing c i]

/-- The INSERT of a row. -/
def World.tellsFlush (w : World) (c : CallId) (r : Job) : List Action :=
  match w.db.insert c r with
  | .violates => [.taken c r.idempotencyKey]
  | _ => []

/-- The next external call of the call. -/
def Call.tells (w : World) (c : CallId) : Call → List Action
  | .createJob req .called =>
      match w.db.findKey req.idempotencyKey with
      | some r => [.read c r.id r.entry]
      | none => []
  | .createJob req (.missed began) => w.tellsFlush c (createSubmission w.uuid req began).job
  | .cancelJob jobId .called => w.tellsFind c jobId
  | .cancelJob jobId .updated => [.cancel c jobId]
  | .retryDlqJob jobId .called => w.tellsFind c jobId
  | .retryDlqJob jobId (.checked began original) =>
      w.tellsFlush c (retrySubmission w.uuid (w.uuid + 1) jobId original began).job
  | .submitting sub (.sent _) => [.submit c sub.job.id sub.job.entry]
  | .submitting sub .committed => w.tellsFind c sub.job.id
  | _ => []

/-- A piece of a delivery of `m`. -/
def BaseTask.Effects.tells (e : Effects) (m : Message) : List Action :=
  match e.write with
  | some wr => if wr.ok then [.report m.jobId wr.report] else []
  | none => []

def World.tells (J : JsonCodec) (w : World) : Event → List Action
  | .call c (.createJob req) =>
      if req.taskName ∈ w.allowedTaskNames then [] else [.refuse c req.taskName]
  | .api c => (w.calls c).tells w c
  | .work s i =>
      match w.slots s with
      | .delivered m worker phase =>
          match BaseTask.step J m worker (w.cache (cacheKey m.idempotencyKey)) w.clock phase i with
          | some e => e.tells m
          | none => []
      | _ => []
  | .deploy allowed => [.deploy allowed]
  | _ => []

/-! ## What a call has told -/

/-- The response shows the entry `x` of the job `i`.  The response on a new row has no
result and no error, whatever the row has. -/
structure JobCreateResponse.Shows (r : JobCreateResponse) (i : Uuid) (x : Entry) : Prop where
  id : r.id = i
  taskName : r.taskName = x.taskName
  idempotencyKey : r.idempotencyKey = x.idempotencyKey
  status : r.status = x.status
  payload : r.payload = x.payload.orEmpty
  executionCount : r.executionCount = x.executionCount
  parentJobId : r.parentJobId = x.parentJobId
  result : r.result = if r.wasIdempotent then x.result else none
  errorMessage : r.errorMessage = if r.wasIdempotent then x.errorDetail else none

/-- What the operation has told before it submits the entry `x`: nothing, or that it has
seen the dead letter it copies. -/
inductive Asked (c : CallId) : Op → Entry → List Action → Prop
  | create {req : JobCreateRequest} {x : Entry} : x.Fresh → x.parentJobId = none →
      x.retryCount = 0 → x.taskName = req.taskName → x.payload = req.payload →
      x.idempotencyKey = req.idempotencyKey → Asked c (.createJob req) x []
  | retry {jobId : Uuid} {x y : Entry} : x.Fresh → y.status = .dlq → x.Retries jobId y →
      Asked c (.retryDlqJob jobId) x [.read c jobId y]

/-- What an operation that has returned has told. -/
inductive Answer (c : CallId) : Op → Response → List Action → Prop
  | hit {req : JobCreateRequest} {r : JobCreateResponse} {i : Uuid} {x : Entry} :
      x.idempotencyKey = req.idempotencyKey → r.wasIdempotent = true → r.Shows i x →
      Answer c (.createJob req) (.created r false) [.read c i x]
  | created {req : JobCreateRequest} {r : JobCreateResponse} {i : Uuid} {x y : Entry}
      {as : List Action} : Asked c (.createJob req) x as → x.Later y →
      r.wasIdempotent = false → r.Shows i y →
      Answer c (.createJob req) (.created r true) (as ++ [.submit c i x, .read c i y])
  | cancelled {jobId : Uuid} {x : Entry} : x.status = .pending →
      Answer c (.cancelJob jobId) (.cancelled (cancelResponse jobId))
        [.read c jobId x, .cancel c jobId]
  | retried {jobId : Uuid} {r : JobCreateResponse} {i : Uuid} {x y : Entry}
      {as : List Action} : Asked c (.retryDlqJob jobId) x as → x.Later y →
      r.wasIdempotent = false → r.Shows i y →
      Answer c (.retryDlqJob jobId) (.retried r) (as ++ [.submit c i x, .read c i y])

/-- What an operation that an external call has cut short has told. -/
inductive UnderWay (c : CallId) : Op → List Action → Prop
  | nothing {op : Op} : UnderWay c op []
  | looked {jobId : Uuid} {x : Entry} : x.status = .pending →
      UnderWay c (.cancelJob jobId) [.read c jobId x]
  | asked {op : Op} {x : Entry} {as : List Action} : Asked c op x as → UnderWay c op as
  | submitted {op : Op} {i : Uuid} {x : Entry} {as : List Action} : Asked c op x as →
      UnderWay c op (as ++ [.submit c i x])

/-- What an operation that has raised has told. -/
inductive Refusal (c : CallId) : Op → ApiError → List Action → Prop
  | notAllowed {req : JobCreateRequest} :
      Refusal c (.createJob req) (taskNotAllowed req.taskName) [.refuse c req.taskName]
  | cancelNotFound {jobId : Uuid} :
      Refusal c (.cancelJob jobId) (jobNotFound jobId) [.missing c jobId]
  | retryNotFound {jobId : Uuid} :
      Refusal c (.retryDlqJob jobId) (jobNotFound jobId) [.missing c jobId]
  | cannotCancel {jobId : Uuid} {x : Entry} : x.status ≠ .pending →
      Refusal c (.cancelJob jobId) (cannotCancel x.status) [.read c jobId x]
  | notInDlq {jobId : Uuid} {x : Entry} : x.status ≠ .dlq →
      Refusal c (.retryDlqJob jobId) (notInDlq x.status) [.read c jobId x]
  | duplicate {op : Op} {x : Entry} {as : List Action} : Asked c op x as →
      Refusal c op .integrityError (as ++ [.taken c x.idempotencyKey])
  | failed {op : Op} {as : List Action} : UnderWay c op as → Refusal c op .unavailable as

/-- What a call has told so far. -/
def Call.Told (c : CallId) : Call → List Action → Prop
  | .idle, as => as = []
  | .createJob _ _, as => as = []
  | .cancelJob _ .called, as => as = []
  | .cancelJob jobId _, as => ∃ x, x.status = .pending ∧ as = [.read c jobId x]
  | .retryDlqJob _ .called, as => as = []
  | .retryDlqJob jobId (.checked _ original), as =>
      original.id = jobId ∧ original.status = .dlq ∧ as = [.read c jobId original.entry]
  | .submitting sub .committed, as =>
      ∃ asked, Asked c sub.op sub.job.entry asked ∧
        as = asked ++ [.submit c sub.job.id sub.job.entry]
  | .submitting sub _, as => Asked c sub.op sub.job.entry as
  | .returned op r, as => Answer c op r as
  | .raised op e, as => Refusal c op e as

/-! ## Rows and entries -/

section Board
variable {w w' : World} {c : CallId} {i : Uuid} {r : Job}

theorem entry_of_find (h : w.db.find i = some r) : w.board.entry i = some r.entry := by
  simp only [World.board, h, Option.map_some]

theorem entry_eq_none (h : w.db.find i = none) : w.board.entry i = none := by
  simp only [World.board, h, Option.map_none]

theorem board_congr (hr : w'.db.rows = w.db.rows)
    (ha : w'.allowedTaskNames = w.allowedTaskNames) : w'.board = w.board := by
  refine Board.ext ?_ ha
  funext j
  exact congrArg (Option.map Job.entry) (find_eq_of_rows hr j)

/-- An action that puts up one row, new or in a new version. -/
theorem trail_put {a : Action} (h : w.board.Admits i r.entry)
    (hn : w.board.Next a (w.board.put i r.entry h)) (hi : w'.db.find i = some r)
    (hne : ∀ j, j ≠ i → w'.db.find j = w.db.find j)
    (ha : w'.allowedTaskNames = w.allowedTaskNames) : Trail Board.Next w.board [a] w'.board := by
  have hboard : w'.board = w.board.put i r.entry h := by
    refine Board.ext ?_ ha
    funext j
    by_cases hj : j = i
    · subst hj
      rw [entry_of_find hi, Board.entry_put_self]
    · rw [Board.entry_put_ne h hj]
      exact congrArg (Option.map Job.entry) (hne j hj)
  rw [hboard]
  exact .single hn

theorem trail_find (w : World) (c : CallId) (i : Uuid) :
    Trail Board.Next w.board (w.tellsFind c i) w.board := by
  unfold World.tellsFind
  cases hf : w.db.find i with
  | none => exact .single (.missing (entry_eq_none hf))
  | some r => exact .single (.read (entry_of_find hf))

/-- A new key is on no entry. -/
theorem admits_pending (h : r ∈ w.db.inserts c) : w.board.Admits r.id r.entry := by
  intro j y hy hk
  obtain ⟨q, hq, rfl⟩ := Option.map_eq_some_iff.mp hy
  exact absurd hk (Store.pending_fresh h (Store.find_eq_some.mp hq).1).2

end Board

/-! ## One move of a call -/

/-- What call `c` has told is in the board, in a later version. -/
def Kept (w : World) (as : List Action) : Prop :=
  ∀ a ∈ as, ∀ i x, a.at? = some (i, x) → ∃ y, w.board.entry i = some y ∧ x.Later y

/-- A move of call `c`, which has told `as` before: what it tells happens to the board, and
is what the call is to tell. -/
structure Enacts (w : World) (c : CallId) (as told : List Action) (w' : World) : Prop where
  trail : Trail Board.Next w.board told w'.board
  told : (w'.calls c).Told c (as ++ told)

section Enacts
variable {w w' : World} {c : CallId} {as : List Action} {jobId : Uuid}

/-- A move of which the board sees nothing. -/
theorem Enacts.quiet (hr : w'.db.rows = w.db.rows)
    (ha : w'.allowedTaskNames = w.allowedTaskNames) (ht : (w'.calls c).Told c as) :
    Enacts w c as [] w' :=
  ⟨board_congr hr ha ▸ .nil _, (List.append_nil as).symm ▸ ht⟩

/-- The INSERT of a submission: the row is held back, or its key is in use. -/
theorem flush_moves {n : Nat} {sub : Submission} (hg : Ground w)
    (hb : Builds w (w.calls c) n sub) (hasked : Asked c sub.op sub.job.entry as)
    (h : flush w c n sub = some w') : Enacts w c as (w.tellsFlush c sub.job) w' := by
  unfold flush at h
  unfold World.tellsFlush
  cases hi : w.db.insert c sub.job with
  | waits =>
      rw [hi] at h
      cases h
  | violates =>
      rw [hi] at h
      obtain rfl := Option.some.inj h
      refine ⟨?_, ?_⟩
      · obtain ⟨q, hq, hk⟩ := Store.insert_eq_violates hi
        rw [(hb.session (hg.sessions c)).1] at hq
        have hmem : q ∈ w.db.rows := hq.resolve_right List.not_mem_nil
        have hid : q.id ≠ sub.job.id := Nat.ne_of_lt
          (Nat.lt_of_lt_of_le (hg.submissions.rows q hmem) hb.id_lt.1)
        rw [← hk.resolve_left hid]
        exact .single (.taken (entry_of_find (Store.find_eq_some.mpr ⟨hmem, rfl⟩)))
      · rw [calls_raise_self]
        exact .duplicate hasked
  | inserted db =>
      rw [hi] at h
      obtain rfl := Option.some.inj h
      refine .quiet (Store.insert_eq_inserted hi).1 rfl ?_
      rw [calls_setCall_self]
      exact hasked

theorem createJob_moves {req : JobCreateRequest} {pc : CreatePc} (hg : Ground w)
    (hc : w.calls c = .createJob req pc) (has : (Call.createJob req pc).Told c as)
    (h : createJob w c req pc = some w') :
    Enacts w c as ((Call.createJob req pc).tells w c) w' := by
  obtain rfl : as = [] := has
  cases pc with
  | called =>
      cases hf : w.db.findKey req.idempotencyKey with
      | none =>
          simp only [createJob, hf, Option.some.injEq] at h
          simp only [Call.tells, hf]
          subst h
          refine .quiet rfl rfl ?_
          rw [calls_setCall_self]
          rfl
      | some r =>
          simp only [createJob, hf, Option.some.injEq] at h
          simp only [Call.tells, hf]
          subst h
          obtain ⟨hmem, hkey⟩ := Store.findKey_eq_some.mp hf
          refine ⟨.single (.read (entry_of_find (Store.find_eq_some.mpr ⟨hmem, rfl⟩))), ?_⟩
          rw [calls_return_self]
          exact .hit hkey rfl ⟨rfl, rfl, rfl, rfl, rfl, rfl, rfl, rfl, rfl⟩
  | missed began =>
      exact flush_moves hg (hc ▸ .create) (.create ⟨rfl, rfl, rfl, rfl⟩ rfl rfl rfl rfl rfl) h

theorem cancelJob_moves {pc : CancelPc} (hg : Ground w) (hc : w.calls c = .cancelJob jobId pc)
    (has : (Call.cancelJob jobId pc).Told c as) (hkept : Kept w as)
    (h : cancelJob w c jobId pc = some w') :
    Enacts w c as ((Call.cancelJob jobId pc).tells w c) w' := by
  cases pc with
  | called =>
      obtain rfl : as = [] := has
      have htrail := trail_find w c jobId
      simp only [Call.tells]
      unfold World.tellsFind at htrail ⊢
      cases hf : w.db.find jobId with
      | none =>
          simp only [cancelJob, hf, Option.some.injEq] at h htrail ⊢
          subst h
          refine ⟨htrail, ?_⟩
          rw [calls_raise_self]
          exact .cancelNotFound
      | some job =>
          simp only [cancelJob, hf] at h htrail ⊢
          split at h
          · rename_i hst
            obtain rfl := Option.some.inj h
            refine ⟨htrail, ?_⟩
            rw [calls_raise_self]
            exact .cannotCancel (x := job.entry) hst
          · rename_i hst
            obtain rfl := Option.some.inj h
            refine ⟨htrail, ?_⟩
            rw [calls_setCall_self]
            exact ⟨job.entry, not_not.mp hst, rfl⟩
  | checked began job =>
      cases ht : job.celeryTaskId with
      | none =>
          simp only [cancelJob, ht, Option.some.injEq] at h
          subst h
          refine .quiet rfl rfl ?_
          rw [calls_setCall_self]
          exact has
      | some taskId => simp [cancelJob, ht] at h
  | revoked began =>
      obtain ⟨db, hl, rfl⟩ := Option.map_eq_some_iff.mp h
      obtain ⟨rfl, -⟩ := Store.lock_eq_some hl
      refine .quiet rfl rfl ?_
      rw [calls_setCall_self]
      exact has
  | updated =>
      obtain rfl := Option.some.inj h
      obtain ⟨x, hst, rfl⟩ := has
      obtain ⟨y, hy, -⟩ := hkept _ (List.mem_singleton_self _) jobId x rfl
      obtain ⟨r, hr, rfl⟩ := Option.map_eq_some_iff.mp hy
      have hs := hg.sessions c
      rw [hc] at hs
      obtain ⟨hins, began, hupd⟩ := hs
      have hrows : (w.db.commit c).rows = w.db.rows.map ((cancelPatch began).applyAt jobId) := by
        simp only [Store.rows_commit, hins, hupd, List.append_nil]
        rfl
      refine ⟨?_, ?_⟩
      · have hadm : w.board.Admits jobId ((cancelPatch began).apply r).entry :=
          Board.admits_of_entry hy rfl
        have hfind : (w.db.commit c).find jobId = some ((cancelPatch began).apply r) := by
          rw [find_mapped hrows, hr, Option.map_some,
            Patch.applyAt_of_eq _ (Store.find_eq_some.mp hr).2]
        refine trail_put hadm (.cancel hadm hy) hfind ?_ rfl
        intro j hj
        exact find_mapped_ne hrows hj
      · rw [calls_return_self]
        exact .cancelled hst

theorem retryDlqJob_moves {pc : RetryPc} (hg : Ground w)
    (hc : w.calls c = .retryDlqJob jobId pc) (has : (Call.retryDlqJob jobId pc).Told c as)
    (h : retryDlqJob w c jobId pc = some w') :
    Enacts w c as ((Call.retryDlqJob jobId pc).tells w c) w' := by
  cases pc with
  | called =>
      obtain rfl : as = [] := has
      have htrail := trail_find w c jobId
      simp only [Call.tells]
      unfold World.tellsFind at htrail ⊢
      cases hf : w.db.find jobId with
      | none =>
          simp only [retryDlqJob, hf, Option.some.injEq] at h htrail ⊢
          subst h
          refine ⟨htrail, ?_⟩
          rw [calls_raise_self]
          exact .retryNotFound
      | some original =>
          simp only [retryDlqJob, hf] at h htrail ⊢
          split at h
          · rename_i hst
            obtain rfl := Option.some.inj h
            refine ⟨htrail, ?_⟩
            rw [calls_raise_self]
            exact .notInDlq (x := original.entry) hst
          · rename_i hst
            obtain rfl := Option.some.inj h
            refine ⟨htrail, ?_⟩
            rw [calls_setCall_self]
            exact ⟨(Store.find_eq_some.mp hf).2, not_not.mp hst, rfl⟩
  | checked began original =>
      obtain ⟨hid, hst, rfl⟩ := has
      refine flush_moves hg (hc ▸ .retry) (.retry ⟨rfl, rfl, rfl, rfl⟩ hst ?_) h
      exact ⟨congrArg some hid, rfl, rfl, rfl⟩

/-- A submission's entry is new, and a retry's copies one that is there. -/
theorem Asked.submits {op : Op} {x : Entry} (h : Asked c op x as) (hkept : Kept w as) :
    x.Fresh ∧ (x.parentJobId = none ∧ x.retryCount = 0 ∨
      ∃ k y, w.board.entry k = some y ∧ x.Retries k y) := by
  cases h with
  | create hfresh hp hcount _ _ _ => exact ⟨hfresh, .inl ⟨hp, hcount⟩⟩
  | @retry jobId _ y hfresh _ hret =>
      obtain ⟨z, hz, hl⟩ := hkept _ (List.mem_singleton_self _) jobId y rfl
      exact ⟨hfresh, .inr ⟨jobId, z, hz, hret.later hl⟩⟩

theorem submit_moves {sub : Submission} {stage : Stage} (hg : Ground w)
    (hc : w.calls c = .submitting sub stage) (has : (Call.submitting sub stage).Told c as)
    (hkept : Kept w as) (h : submit w c sub stage = some w') :
    Enacts w c as ((Call.submitting sub stage).tells w c) w' := by
  have hs := hg.sessions c
  rw [hc] at hs
  cases stage with
  | flushed =>
      obtain rfl := Option.some.inj h
      refine .quiet rfl rfl ?_
      rw [calls_setCall_self]
      exact has
  | sent t =>
      obtain rfl := Option.some.inj h
      have hrows := rows_land t hs.1 hs.2
      have hmem : sub.job ∈ w.db.inserts c := hs.1 ▸ List.mem_singleton_self _
      have hunborn := hg.sessions.unborn hc (by simp)
      obtain ⟨hfresh, hparent⟩ := Asked.submits has hkept
      refine ⟨?_, ?_⟩
      · have hadm : w.board.Admits sub.job.id (sub.row t).entry := admits_pending hmem
        refine trail_put hadm (.submit hadm (entry_eq_none hunborn) hfresh hparent) ?_ ?_ ?_
        · simp only [db_setCall, db_countSubmission, db_observe]
          rw [find_landed hrows, hunborn, Option.none_or]
          exact if_pos rfl
        · intro j hj
          simp only [db_setCall, db_countSubmission, db_observe]
          rw [find_landed hrows]
          exact (congrArg _ (if_neg (Ne.symm hj))).trans Option.or_none
        · exact allowed_countSubmission ..
      · rw [calls_setCall_self]
        exact ⟨as, has, rfl⟩
  | committed =>
      obtain ⟨asked, hasked, rfl⟩ := has
      obtain ⟨y, hy, hl⟩ := hkept _ (List.mem_append_right _ (List.mem_singleton_self _)) _ _ rfl
      obtain ⟨row, hrow, rfl⟩ := Option.map_eq_some_iff.mp hy
      simp only [submit, hrow, Option.some.injEq] at h
      simp only [Call.tells, World.tellsFind, hrow]
      subst h
      refine ⟨.single (.read hy), ?_⟩
      rw [calls_return_self, List.append_assoc]
      have hshows : ∀ parent, parent = row.parentJobId →
          (newResponse row parent).Shows sub.job.id row.entry := by
        rintro parent rfl
        exact ⟨(Store.find_eq_some.mp hrow).2, rfl, rfl, rfl, rfl, rfl, rfl, rfl, rfl⟩
      generalize sub.op = op at hasked
      cases hasked with
      | create hfresh hp hcount ht hpay hk =>
          refine .created (.create hfresh hp hcount ht hpay hk) hl rfl (hshows _ ?_)
          exact (hl.parentJobId.trans hp).symm
      | retry hfresh hst hret => exact .retried (.retry hfresh hst hret) hl rfl (hshows _ rfl)

/-- A call that an external call has cut short. -/
theorem Call.Told.underWay {x : Call} {op : Op} (h : x.Told c as) (hop : x.op? = some op) :
    UnderWay c op as := by
  cases x with
  | createJob req pc =>
      obtain rfl : as = [] := h
      exact .nothing
  | cancelJob jobId pc =>
      obtain rfl := Option.some.inj hop
      cases pc with
      | called =>
          obtain rfl : as = [] := h
          exact .nothing
      | _ =>
          obtain ⟨x, hst, rfl⟩ := h
          exact .looked hst
  | retryDlqJob jobId pc =>
      obtain rfl := Option.some.inj hop
      cases pc with
      | called =>
          obtain rfl : as = [] := h
          exact .nothing
      | checked began original =>
          obtain ⟨rfl, hst, rfl⟩ := h
          exact .asked (.retry (x := (retryJob 0 "" original 0).entry) ⟨rfl, rfl, rfl, rfl⟩ hst
            ⟨rfl, rfl, rfl, rfl⟩)
  | submitting sub stage =>
      obtain rfl := Option.some.inj hop
      cases stage with
      | committed =>
          obtain ⟨asked, hasked, rfl⟩ := h
          exact .submitted hasked
      | _ => exact .asked h
  | _ => cases hop

/-- A request comes, and the whitelist may turn it away. -/
theorem call_moves {J : JsonCodec} {op : Op} (has : (w.calls c).Told c as)
    (h : call w c op = some w') : Enacts w c as (w.tells J (.call c op)) w' := by
  obtain ⟨hidle, rfl⟩ := call_eq_some h
  rw [hidle] at has
  obtain rfl : as = [] := has
  cases op with
  | createJob req =>
      by_cases hmem : req.taskName ∈ w.allowedTaskNames
      · simp only [World.tells, if_pos hmem]
        refine .quiet rfl rfl ?_
        rw [calls_setCall_self, enter, if_pos hmem]
        rfl
      · simp only [World.tells, if_neg hmem]
        refine ⟨.single (.refuse hmem), ?_⟩
        rw [calls_setCall_self, enter, if_neg hmem]
        exact .notAllowed
  | cancelJob jobId =>
      refine .quiet rfl rfl ?_
      rw [calls_setCall_self]
      rfl
  | retryDlqJob jobId =>
      refine .quiet rfl rfl ?_
      rw [calls_setCall_self]
      rfl

/-- Whatever the API does with call `c`. -/
theorem api_moves {J : JsonCodec} {e : Event} (hg : Ground w) (he : e.call? = some c)
    (has : (w.calls c).Told c as) (hkept : Kept w as) (hs : (system J).step w e = some w') :
    Enacts w c as (w.tells J e) w' := by
  cases e with
  | call c' op =>
      obtain rfl := Option.some.inj he
      exact call_moves has hs
  | api c' =>
      obtain rfl := Option.some.inj he
      change api w c' = some w' at hs
      unfold api at hs
      simp only [World.tells]
      split at hs
      · rename_i hc
        rw [hc] at has ⊢
        exact createJob_moves hg hc has hs
      · rename_i hc
        rw [hc] at has ⊢
        exact cancelJob_moves hg hc has hkept hs
      · rename_i hc
        rw [hc] at has ⊢
        exact retryDlqJob_moves hg hc has hs
      · rename_i hc
        rw [hc] at has ⊢
        exact submit_moves hg hc has hkept hs
      · cases hs
  | revoke c' receivers =>
      obtain rfl := Option.some.inj he
      obtain ⟨jobId, began, job, taskId, hc, -, rfl⟩ := revoke_eq_some hs
      rw [hc] at has
      refine .quiet rfl rfl ?_
      rw [calls_setCall_self]
      exact has
  | apiFail c' =>
      obtain rfl := Option.some.inj he
      obtain ⟨op, hop, rfl⟩ := apiFail_cases hs
      refine .quiet rfl rfl ?_
      rw [calls_raise_self]
      exact .failed (has.underWay hop)
  | _ => cases he

end Enacts

/-! ## One piece of a delivery -/

/-- A status update is a report. -/
theorem Piece.write_report {J : JsonCodec} {m : Message} {worker : Worker} {cached : Option String}
    {now : Time} {phase : Phase} {i : Input} {e : Effects} {wr : Write}
    (h : Piece J m worker cached now phase i e) (hw : e.write = some wr) (r : Job) :
    ((statusPatch now wr.status wr.fields).apply r).entry = wr.report.on r.entry := by
  cases h with
  | start => obtain rfl := Option.some.inj hw; rfl
  | startFails _ => obtain rfl := Option.some.inj hw; rfl
  | success v => obtain rfl := Option.some.inj hw; cases v <;> rfl
  | successFails v _ => obtain rfl := Option.some.inj hw; cases v <;> rfl
  | failure exc again stage =>
      cases stage with
      | send => cases hw
      | count => cases hw
      | _ => obtain rfl := Option.some.inj hw; rfl
  | failureFails exc exc' again stage hne =>
      cases stage with
      | send => cases hw
      | count => exact absurd rfl hne
      | _ => obtain rfl := Option.some.inj hw; rfl
  | _ => cases hw

theorem trail_work {J : JsonCodec} {w w' : World} {s : SlotId} {i : Input}
    (h : w.work J s i = some w') :
    Trail Board.Next w.board (w.tells J (.work s i)) w'.board := by
  unfold World.work at h
  simp only [World.tells]
  cases hs : w.slots s with
  | delivered m worker phase =>
      simp only [hs] at h ⊢
      obtain ⟨e, he, hp⟩ := Option.bind_eq_some_iff.mp h
      obtain ⟨db, hdb, rfl⟩ := Option.map_eq_some_iff.mp hp
      simp only [he, Effects.tells]
      rcases write_cases hdb with ⟨rfl, hok⟩ | ⟨wr, hw, hok, -, rfl⟩
      · have htells : e.tells m = [] := by
          unfold Effects.tells
          cases hw : e.write with
          | none => rfl
          | some wr => simp [hok wr hw]
        unfold Effects.tells at htells
        rw [htells, board_congr (w := w) rfl rfl]
        exact .nil _
      · simp only [hw, hok, if_true]
        cases hf : w.db.find m.jobId with
        | none =>
            -- no row has the id, and the UPDATE matches none
            have hsame : ∀ j, (w.db.patch m.jobId
                (statusPatch w.clock wr.status wr.fields)).find j = w.db.find j := by
              intro j
              by_cases hj : j = m.jobId
              · rw [hj, Store.find_patch_self, hf, Option.map_none]
              · exact Store.find_patch_ne _ _ hj
            have hboard : (w.apply J s m worker e (w.db.patch m.jobId
                (statusPatch w.clock wr.status wr.fields))).board = w.board := by
              refine Board.ext ?_ rfl
              funext j
              exact congrArg (Option.map Job.entry) (hsame j)
            rw [hboard]
            exact .single (.lost (entry_eq_none hf))
        | some r =>
            have hentry := (step_piece he).write_report hw r
            have hadm : w.board.Admits m.jobId (wr.report.on r.entry) :=
              Board.admits_of_entry (entry_of_find hf) (wr.report.later r.entry).idempotencyKey
            rw [← hentry] at hadm
            refine trail_put hadm ?_ ?_ (fun j hj => Store.find_patch_ne _ _ hj) rfl
            · simp only [hentry]
              exact .report _ (entry_of_find hf)
            · refine (Store.find_patch_self ..).trans ?_
              rw [hf]
              rfl
  | empty => simp [hs] at h
  | queued m => simp [hs] at h

/-! ## Every step -/

/-- The actions of call `c`, the first first. -/
def actionsOf (c : CallId) (as : List Action) : List Action :=
  as.filter fun a => a.call? = some c

section Step
variable {J : JsonCodec} {w w' : World} {e : Event} {c : CallId}

theorem tellsFind_call? {i : Uuid} : ∀ a ∈ w.tellsFind c i, a.call? = some c := by
  unfold World.tellsFind
  split <;> simp [Action.call?]

theorem tellsFlush_call? {r : Job} : ∀ a ∈ w.tellsFlush c r, a.call? = some c := by
  unfold World.tellsFlush
  split <;> simp [Action.call?]

theorem call_tells_call? {x : Call} : ∀ a ∈ x.tells w c, a.call? = some c := by
  unfold Call.tells
  split
  · split <;> simp [Action.call?]
  · exact tellsFlush_call?
  · exact tellsFind_call?
  · simp [Action.call?]
  · exact tellsFind_call?
  · exact tellsFlush_call?
  · simp [Action.call?]
  · exact tellsFind_call?
  · simp

/-- What a step tells is told of the call it moves. -/
theorem tells_call? : ∀ a ∈ w.tells J e, a.call? = e.call? := by
  unfold World.tells
  split
  · split <;> simp [Action.call?, Event.call?]
  · exact call_tells_call?
  · split
    · split
      · unfold Effects.tells
        split
        · split <;> simp [Action.call?, Event.call?]
        · simp
      · simp
    · simp
  · simp [Action.call?, Event.call?]
  · simp

theorem actionsOf_tells_ne (h : e.call? ≠ some c) : actionsOf c (w.tells J e) = [] := by
  refine List.filter_eq_nil_iff.mpr ?_
  intro a ha
  rw [tells_call? a ha]
  simpa using h

theorem actionsOf_tells_self (h : e.call? = some c) :
    actionsOf c (w.tells J e) = w.tells J e := by
  refine List.filter_eq_self.mpr ?_
  intro a ha
  rw [tells_call? a ha]
  simpa using h

/-- The board after a step of a worker, of the broker or of the environment. -/
theorem trail_offstage (he : e.call? = none) (hs : (system J).step w e = some w') :
    Trail Board.Next w.board (w.tells J e) w'.board := by
  have hquiet : w'.db = w.db → w'.allowedTaskNames = w.allowedTaskNames →
      Trail Board.Next w.board [] w'.board := by
    intro hdb ha
    rw [board_congr (congrArg Store.rows hdb) ha]
    exact .nil _
  cases e with
  | work s i => exact trail_work hs
  | deploy allowed =>
      obtain rfl := Option.some.inj hs
      exact .single .deploy
  | take s worker =>
      cases take_cases (J := J) hs with
      | drop _ _ => exact hquiet rfl rfl
      | take _ _ _ => exact hquiet rfl rfl
      | api hc _ => cases hc
      | env hn _ => cases hn
  | crash s =>
      cases step_cases hs with
      | crash _ => exact hquiet rfl rfl
      | api hc _ => cases hc
      | env hn _ => cases hn
  | redeliver s =>
      cases step_cases hs with
      | redeliver _ => exact hquiet rfl rfl
      | api hc _ => cases hc
      | env hn _ => cases hn
  | boot worker =>
      obtain rfl := Option.some.inj hs
      exact hquiet rfl rfl
  | tick n =>
      obtain rfl := Option.some.inj hs
      exact hquiet rfl rfl
  | expire key =>
      obtain rfl := Option.some.inj hs
      exact hquiet rfl rfl
  | dlqReceive =>
      change w.dlqReceive = some w' at hs
      unfold World.dlqReceive at hs
      split at hs
      · obtain rfl := Option.some.inj hs
        exact hquiet rfl rfl
      · cases hs
  | updateDlqMetrics ok =>
      obtain rfl := Option.some.inj hs
      exact hquiet rfl rfl
  | _ => cases he

/-- `as` leads the empty board to the board of `w`, and each call has told its part of it. -/
structure Linearized (allowed : List String) (as : List Action) (w : World) : Prop where
  trail : Trail Board.Next (.empty allowed) as w.board
  told : ∀ c, (w.calls c).Told c (actionsOf c as)

/-- A step is a trail of the board. -/
theorem Linearized.advances {allowed : List String} {as : List Action}
    (h : Linearized allowed as w) (hg : Ground w) (hs : (system J).step w e = some w') :
    Trail Board.Next w.board (w.tells J e) w'.board ∧
      ∀ c, e.call? = some c → (w'.calls c).Told c (actionsOf c as ++ w.tells J e) := by
  cases he : e.call? with
  | none => exact ⟨trail_offstage he hs, fun c hc => by cases hc⟩
  | some c =>
      have hkept : Kept w (actionsOf c as) := by
        intro a ha i x hx
        exact Board.at_later h.trail (List.mem_filter.mp ha).1 hx
      have hm := api_moves hg he (h.told c) hkept hs
      refine ⟨hm.trail, ?_⟩
      intro c' hc
      obtain rfl := Option.some.inj hc
      exact hm.told

theorem Linearized.step {allowed : List String} {as : List Action}
    (h : Linearized allowed as w) (hg : Ground w) (hs : (system J).step w e = some w') :
    Linearized allowed (as ++ w.tells J e) w' := by
  obtain ⟨htrail, htold⟩ := h.advances hg hs
  refine ⟨h.trail.append htrail, ?_⟩
  intro c
  rw [actionsOf, List.filter_append]
  by_cases he : e.call? = some c
  · have hself := actionsOf_tells_self (J := J) (w := w) he
    rw [actionsOf] at hself
    rw [hself]
    exact htold c he
  · have hnone := actionsOf_tells_ne (J := J) (w := w) he
    rw [actionsOf] at hnone
    rw [hnone, List.append_nil, step_calls_ne he hs]
    exact h.told c

end Step

/-! ## Every run -/

theorem linearized_init (allowed : List String) :
    Linearized allowed [] (.init allowed) where
  trail := .nil _
  told _ := rfl

theorem run_linearized {J : JsonCodec} {P : World → Event → Prop} {allowed : List String}
    {es : List Event} {w : World} (h : (system J).Run P (.init allowed) es w) :
    Ground w ∧ Linearized allowed ((system J).log (World.tells J) (.init allowed) es) w :=
  h.invariant_log (I := fun as w => Ground w ∧ Linearized allowed as w) (World.tells J)
    (fun hi _ hs => ⟨hi.1.step (step_cases hs), hi.2.step hi.1 hs⟩)
    [] ⟨ground_init allowed, linearized_init allowed⟩

/-- From any state a run reaches, the board goes on by what is told. -/
theorem Linearized.run {J : JsonCodec} {P : World → Event → Prop} {allowed : List String}
    {as : List Action} {es : List Event} {w w' : World} (h : Linearized allowed as w)
    (hg : Ground w) (hrun : (system J).Run P w es w') :
    Trail Board.Next w.board ((system J).log (World.tells J) w es) w'.board := by
  refine hrun.refines (I := fun v => ∃ as, Ground v ∧ Linearized allowed as v) ?_ ?_ ⟨as, hg, h⟩
  · rintro v v' e ⟨as, hg, h⟩ - hs
    exact ⟨_, hg.step (step_cases hs), h.step hg hs⟩
  · rintro v v' e ⟨as, hg, h⟩ - hs
    exact (h.advances hg hs).1

/-- A call that is over makes no move. -/
theorem ApiStep.not_over {w w' : World} {c : CallId} (h : ApiStep w c w') :
    (w.calls c).over = false := by
  have hop : ∀ {op : Op}, (w.calls c).op? = some op → (w.calls c).over = false := by
    intro op hop
    cases hc : w.calls c with
    | returned op' r => rw [hc] at hop; cases hop
    | raised op' e => rw [hc] at hop; cases hop
    | _ => rfl
  cases h with
  | enter op hidle => rw [hidle]; rfl
  | move hl =>
      generalize w.calls c = x at hl
      cases hl <;> rfl
  | raise h _ => exact hop h
  | violate hb _ => exact hop hb.op?
  | flush hb _ => exact hop hb.op?
  | send hc => rw [hc]; rfl
  | land hc => rw [hc]; rfl
  | lock hc _ => rw [hc]; rfl
  | cancel hc => rw [hc]; rfl
  | revoke _ hc _ => rw [hc]; rfl

/-- After a call is over it tells nothing. -/
theorem run_over {J : JsonCodec} {P : World → Event → Prop} {es : List Event} {w w' : World}
    {c : CallId} (h : (system J).Run P w es w') (hc : (w.calls c).over) :
    actionsOf c ((system J).log (World.tells J) w es) = [] := by
  have hrun := h.invariant_log (I := fun as v => (v.calls c).over = true ∧ actionsOf c as = [])
    (World.tells J) ?_ [] ⟨hc, rfl⟩
  · exact hrun.2
  · rintro as v v' e ⟨hover, has⟩ - hs
    have hne : e.call? ≠ some c := by
      intro he
      rw [(step_api he hs).not_over] at hover
      cases hover
    refine ⟨by rw [step_calls_ne hne hs, hover], ?_⟩
    have htells := actionsOf_tells_ne (J := J) (w := v) hne
    unfold actionsOf at has htells ⊢
    rw [List.filter_append, has, htells, List.append_nil]

/-- The system is linearizable to the board: the log of every run leads the empty board to
the board of the last state, past the board of every state on the way; every call has told
exactly what its answer calls for; and no action of a call comes before its request or after
its answer, so the log keeps the order of calls that do not overlap. -/
theorem linearizable {J : JsonCodec} {allowed : List String} {es fs : List Event} {w w' : World}
    (h : (system J).Run (fun _ _ => True) (.init allowed) es w)
    (h' : (system J).Run (fun _ _ => True) w fs w') :
    Linearized allowed ((system J).log (World.tells J) (.init allowed) (es ++ fs)) w' ∧
    (system J).log (World.tells J) (.init allowed) (es ++ fs) =
      (system J).log (World.tells J) (.init allowed) es ++
        (system J).log (World.tells J) w fs ∧
    Trail Board.Next w.board ((system J).log (World.tells J) w fs) w'.board ∧
    ∀ c, (w.calls c = .idle →
        actionsOf c ((system J).log (World.tells J) (.init allowed) es) = []) ∧
      ((w.calls c).over → actionsOf c ((system J).log (World.tells J) w fs) = []) := by
  obtain ⟨hg, hlin⟩ := run_linearized h
  refine ⟨(run_linearized (h.append h')).2, h.log_append, hlin.run hg h', ?_⟩
  intro c
  refine ⟨?_, run_over h'⟩
  intro hidle
  have htold := hlin.told c
  rw [hidle] at htold
  exact htold

/-- A job is created, buried and retried while a second `create_job` comes with its key. -/
theorem linearizable_ping : ∃ w w', (system nullCodec).exec pingWorld
      (createEvents 0 "k" ++ startEvents 0 "v" ++ buryEvents 0) = some w ∧
    (system nullCodec).exec w (retryEvents 1 0 ++ [.call 2 (.createJob (pingRequest "k")), .api 2])
      = some w' ∧ (w.calls 0).over ∧ (w'.calls 2).over ∧
    Linearized ["ping"] ((system nullCodec).log (World.tells nullCodec) pingWorld
      ((createEvents 0 "k" ++ startEvents 0 "v" ++ buryEvents 0) ++
        (retryEvents 1 0 ++ [.call 2 (.createJob (pingRequest "k")), .api 2]))) w' ∧
    actionsOf 0 ((system nullCodec).log (World.tells nullCodec) w
      (retryEvents 1 0 ++ [.call 2 (.createJob (pingRequest "k")), .api 2])) = [] := by
  obtain ⟨w, hw, hrun, hover⟩ := Machine.exists_run_obs (system nullCodec) (fun _ _ => True)
    pingWorld (createEvents 0 "k" ++ startEvents 0 "v" ++ buryEvents 0)
    (fun w => (w.calls 0).over) true (by decide) (by decide)
  have hexec : ((system nullCodec).exec pingWorld
      ((createEvents 0 "k" ++ startEvents 0 "v" ++ buryEvents 0) ++
        (retryEvents 1 0 ++ [.call 2 (.createJob (pingRequest "k")), .api 2]))).map
      (fun w => (w.calls 2).over) = some true := by decide
  obtain ⟨w', hw', hover'⟩ := Option.map_eq_some_iff.mp hexec
  rw [Machine.exec_append, hw, Option.bind_some] at hw'
  obtain ⟨hlin, -, -, hcalls⟩ := linearizable hrun (Machine.run_of_computed hw')
  exact ⟨w, w', hw, hw', hover, hover', hlin, (hcalls 0).2 hover⟩

end Aegis
