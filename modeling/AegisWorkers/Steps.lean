/-
# `AegisWorkers.Steps` — what one event can do

The inversion lemmas of the step functions, stated once.  Every step of the system
is one of the few forms of `SysStep` (`step_cases`), and invariants are proved by
cases on these and never unfold a step function.

    SysStep J w e w'   the event `e` takes place
    ApiStep w c w'     call `c` makes a move
    Entered op x       the request `op` has just come, and is the call `x`
    Local w x y        the moves that touch nothing but the call itself
    Builds w x n sub   the call is about to insert the row of `sub`
    Piece …            a worker goes one piece further with a delivery
-/
import AegisWorkers.System

namespace Aegis

open BaseTask JobService ReadCommitted

/-! ## The API -/

/-- The operation a call in flight belongs to. -/
def Call.op? : Call → Option Op
  | .createJob req _ => some (.createJob req)
  | .cancelJob jobId _ => some (.cancelJob jobId)
  | .retryDlqJob jobId _ => some (.retryDlqJob jobId)
  | .submitting sub _ => some sub.op
  | _ => none

/-- The call a request becomes. -/
inductive Entered : Op → Call → Prop
  | createJob {req : JobCreateRequest} : Entered (.createJob req) (.createJob req .called)
  | refused {req : JobCreateRequest} :
      Entered (.createJob req) (.raised (.createJob req) (taskNotAllowed req.taskName))
  | cancelJob {jobId : Uuid} : Entered (.cancelJob jobId) (.cancelJob jobId .called)
  | retryDlqJob {jobId : Uuid} : Entered (.retryDlqJob jobId) (.retryDlqJob jobId .called)

theorem enter_cases (allowed : List String) (op : Op) : Entered op (enter allowed op) := by
  cases op with
  | createJob req =>
      simp only [enter]
      split
      · exact .createJob
      · exact .refused
  | cancelJob jobId => exact .cancelJob
  | retryDlqJob jobId => exact .retryDlqJob

/-- The moves of a call that only read. -/
inductive Local (w : World) : Call → Call → Prop
  | hit {req : JobCreateRequest} {existing : Job} :
      w.db.findKey req.idempotencyKey = some existing →
      Local w (.createJob req .called)
        (.returned (.createJob req) (.created (existingResponse existing) false))
  | miss {req : JobCreateRequest} :
      w.db.findKey req.idempotencyKey = none →
      Local w (.createJob req .called) (.createJob req (.missed w.clock))
  | checkCancel {jobId : Uuid} {job : Job} :
      w.db.find jobId = some job → job.status = .pending →
      Local w (.cancelJob jobId .called) (.cancelJob jobId (.checked w.clock job))
  | noTask {jobId : Uuid} {began : Time} {job : Job} :
      job.celeryTaskId = none →
      Local w (.cancelJob jobId (.checked began job)) (.cancelJob jobId (.revoked began))
  | checkRetry {jobId : Uuid} {original : Job} :
      w.db.find jobId = some original → original.status = .dlq →
      Local w (.retryDlqJob jobId .called) (.retryDlqJob jobId (.checked w.clock original))
  | refresh {sub : Submission} {row : Job} :
      w.db.find sub.job.id = some row →
      Local w (.submitting sub .committed) (.returned sub.op (response sub.op row))

/-- The call `x` inserts the row of `sub` next, and has used `n` UUIDs for it. -/
inductive Builds (w : World) : Call → Nat → Submission → Prop
  | create {req : JobCreateRequest} {began : Time} :
      Builds w (.createJob req (.missed began)) 1 (createSubmission w.uuid req began)
  | retry {jobId : Uuid} {began : Time} {original : Job} :
      Builds w (.retryDlqJob jobId (.checked began original)) 2
        (retrySubmission w.uuid (w.uuid + 1) jobId original began)

/-- One move of call `c`. -/
inductive ApiStep (w : World) (c : CallId) : World → Prop
  | enter (op : Op) : w.calls c = .idle →
      ApiStep w c (w.setCall c (enter w.allowedTaskNames op))
  | move {y : Call} : Local w (w.calls c) y → ApiStep w c (w.setCall c y)
  | raise {op : Op} {e : ApiError} : (w.calls c).op? = some op → e ≠ .integrityError →
      ApiStep w c (w.raise c op e)
  | violate {n : Nat} {sub : Submission} : Builds w (w.calls c) n sub →
      w.db.insert c sub.job = .violates →
      ApiStep w c ({ w with uuid := w.uuid + n }.raise c sub.op .integrityError)
  | flush {n : Nat} {sub : Submission} {db : Db} : Builds w (w.calls c) n sub →
      w.db.insert c sub.job = .inserted db →
      ApiStep w c ({ w with db := db, uuid := w.uuid + n }.setCall c (.submitting sub .flushed))
  | send {sub : Submission} : w.calls c = .submitting sub .flushed →
      ApiStep w c ((w.sendTask c (message sub w.uuid)).setCall c (.submitting sub (.sent w.uuid)))
  | land {sub : Submission} {celeryTaskId : Uuid} :
      w.calls c = .submitting sub (.sent celeryTaskId) →
      ApiStep w c ((countSubmission
        ({ w with
          db := (w.db.amend c sub.job.id
            (celeryTaskIdPatch celeryTaskId sub.began)).commit c }.observe
          (.committed c sub.job.id)) sub).setCall c (.submitting sub .committed))
  | lock {jobId : Uuid} {began : Time} {db : Db} : w.calls c = .cancelJob jobId (.revoked began) →
      w.db.lock c jobId (cancelPatch began) = some db →
      ApiStep w c ({ w with db := db }.setCall c (.cancelJob jobId .updated))
  | cancel {jobId : Uuid} : w.calls c = .cancelJob jobId .updated →
      ApiStep w c (({ w with db := w.db.commit c }.observe (.committed c jobId)).return c
        (.cancelJob jobId) (.cancelled (cancelResponse jobId)))
  | revoke {jobId : Uuid} {began : Time} {job : Job} {taskId : Uuid} (receivers : List Worker) :
      w.calls c = .cancelJob jobId (.checked began job) → job.celeryTaskId = some taskId →
      ApiStep w c (({ w with
        heard := fun worker =>
          if worker ∈ receivers then taskId :: w.heard worker else w.heard worker }.observe
        (.revoked c taskId)).setCall c (.cancelJob jobId (.revoked began)))

/-- The call an event of the API moves. -/
def Event.call? : Event → Option CallId
  | .call c _ | .api c | .revoke c _ | .apiFail c => some c
  | _ => none

section Api
variable {w w' : World} {c : CallId}

theorem flush_cases {n : Nat} {sub : Submission} (hb : Builds w (w.calls c) n sub)
    (h : flush w c n sub = some w') : ApiStep w c w' := by
  unfold flush at h
  cases hi : w.db.insert c sub.job with
  | waits => rw [hi] at h; cases h
  | violates => rw [hi] at h; exact Option.some.inj h ▸ .violate hb hi
  | inserted db => rw [hi] at h; exact Option.some.inj h ▸ .flush hb hi

theorem createJob_cases {req : JobCreateRequest} {pc : CreatePc}
    (hc : w.calls c = .createJob req pc) (h : createJob w c req pc = some w') :
    ApiStep w c w' := by
  cases pc with
  | called =>
      cases hf : w.db.findKey req.idempotencyKey with
      | none =>
          simp only [createJob, hf, Option.some.injEq] at h
          exact h ▸ .move (hc ▸ .miss hf)
      | some existing =>
          simp only [createJob, hf, Option.some.injEq] at h
          exact h ▸ .move (hc ▸ .hit hf)
  | missed began => exact flush_cases (hc ▸ .create) h

theorem cancelJob_cases {jobId : Uuid} {pc : CancelPc}
    (hc : w.calls c = .cancelJob jobId pc) (h : cancelJob w c jobId pc = some w') :
    ApiStep w c w' := by
  have hop : (w.calls c).op? = some (.cancelJob jobId) := by rw [hc]; rfl
  cases pc with
  | called =>
      cases hf : w.db.find jobId with
      | none =>
          simp only [cancelJob, hf, Option.some.injEq] at h
          exact h ▸ .raise hop (by simp [jobNotFound])
      | some job =>
          simp only [cancelJob, hf] at h
          split at h
          · exact Option.some.inj h ▸ .raise hop (by simp [cannotCancel])
          · rename_i hs
            exact Option.some.inj h ▸ .move (hc ▸ .checkCancel hf (not_not.mp hs))
  | checked began job =>
      cases ht : job.celeryTaskId with
      | none =>
          simp only [cancelJob, ht, Option.some.injEq] at h
          exact h ▸ .move (hc ▸ .noTask ht)
      | some taskId => simp [cancelJob, ht] at h
  | revoked began =>
      obtain ⟨db, hl, rfl⟩ := Option.map_eq_some_iff.mp h
      exact .lock hc hl
  | updated => exact Option.some.inj h ▸ .cancel hc

theorem retryDlqJob_cases {jobId : Uuid} {pc : RetryPc}
    (hc : w.calls c = .retryDlqJob jobId pc) (h : retryDlqJob w c jobId pc = some w') :
    ApiStep w c w' := by
  have hop : (w.calls c).op? = some (.retryDlqJob jobId) := by rw [hc]; rfl
  cases pc with
  | called =>
      cases hf : w.db.find jobId with
      | none =>
          simp only [retryDlqJob, hf, Option.some.injEq] at h
          exact h ▸ .raise hop (by simp [jobNotFound])
      | some original =>
          simp only [retryDlqJob, hf] at h
          split at h
          · exact Option.some.inj h ▸ .raise hop (by simp [notInDlq])
          · rename_i hs
            exact Option.some.inj h ▸ .move (hc ▸ .checkRetry hf (not_not.mp hs))
  | checked began original => exact flush_cases (hc ▸ .retry) h

theorem submit_cases {sub : Submission} {stage : Stage}
    (hc : w.calls c = .submitting sub stage) (h : submit w c sub stage = some w') :
    ApiStep w c w' := by
  cases stage with
  | flushed => exact Option.some.inj h ▸ .send hc
  | sent celeryTaskId => exact Option.some.inj h ▸ .land hc
  | committed =>
      cases hf : w.db.find sub.job.id with
      | none =>
          simp only [submit, hf, Option.some.injEq] at h
          exact h ▸ .raise (by rw [hc]; rfl) (by simp)
      | some row =>
          simp only [submit, hf, Option.some.injEq] at h
          exact h ▸ .move (hc ▸ .refresh hf)

theorem call_eq_some {op : Op} (h : call w c op = some w') :
    w.calls c = .idle ∧ w' = w.setCall c (enter w.allowedTaskNames op) := by
  unfold call at h
  split at h
  · exact ⟨‹_›, (Option.some.inj h).symm⟩
  · cases h

theorem call_cases {op : Op} (h : call w c op = some w') : ApiStep w c w' := by
  obtain ⟨hidle, rfl⟩ := call_eq_some h
  exact .enter op hidle

theorem api_cases (h : api w c = some w') : ApiStep w c w' := by
  unfold api at h
  split at h
  · exact createJob_cases ‹_› h
  · exact cancelJob_cases ‹_› h
  · exact retryDlqJob_cases ‹_› h
  · exact submit_cases ‹_› h
  · cases h

theorem revoke_eq_some {receivers : List Worker} (h : revoke w c receivers = some w') :
    ∃ jobId began job taskId, w.calls c = .cancelJob jobId (.checked began job) ∧
      job.celeryTaskId = some taskId ∧
      w' = ({ w with
        heard := fun worker =>
          if worker ∈ receivers then taskId :: w.heard worker else w.heard worker }.observe
        (.revoked c taskId)).setCall c (.cancelJob jobId (.revoked began)) := by
  unfold revoke at h
  split at h
  · obtain ⟨taskId, ht, rfl⟩ := Option.map_eq_some_iff.mp h
    exact ⟨_, _, _, taskId, ‹_›, ht, rfl⟩
  · cases h

theorem revoke_cases {receivers : List Worker} (h : revoke w c receivers = some w') :
    ApiStep w c w' := by
  obtain ⟨jobId, began, job, taskId, hc, ht, rfl⟩ := revoke_eq_some h
  exact .revoke receivers hc ht

theorem apiFail_cases (h : apiFail w c = some w') :
    ∃ op, (w.calls c).op? = some op ∧ w' = w.raise c op .unavailable := by
  unfold apiFail at h
  cases hc : w.calls c with
  | createJob req pc => rw [hc] at h; exact ⟨_, rfl, (Option.some.inj h).symm⟩
  | cancelJob jobId pc => rw [hc] at h; exact ⟨_, rfl, (Option.some.inj h).symm⟩
  | retryDlqJob jobId pc => rw [hc] at h; exact ⟨_, rfl, (Option.some.inj h).symm⟩
  | submitting sub stage => rw [hc] at h; exact ⟨_, rfl, (Option.some.inj h).symm⟩
  | _ => rw [hc] at h; cases h

/-- Every event of the API is one of the forms of `ApiStep`. -/
theorem step_api {J : JsonCodec} {e : Event} (hc : e.call? = some c)
    (h : (system J).step w e = some w') : ApiStep w c w' := by
  cases e with
  | call c' op => obtain rfl := Option.some.inj hc; exact call_cases h
  | api c' => obtain rfl := Option.some.inj hc; exact api_cases h
  | revoke c' receivers => obtain rfl := Option.some.inj hc; exact revoke_cases h
  | apiFail c' =>
      obtain rfl := Option.some.inj hc
      obtain ⟨op, hop, rfl⟩ := apiFail_cases h
      exact .raise hop (by simp)
  | _ => cases hc

/-- A call in flight, a cancellation apart, makes its next external call, or fails. -/
theorem api_or_raise {J : JsonCodec} {e : Event} {op : Op} (hc : e.call? = some c)
    (h : (system J).step w e = some w') (hop : (w.calls c).op? = some op)
    (hx : ∀ jobId pc, w.calls c ≠ .cancelJob jobId pc) :
    e = .api c ∨ e = .apiFail c ∧ w' = w.raise c op .unavailable := by
  cases e with
  | call c' op' =>
      obtain rfl := Option.some.inj hc
      rw [(call_eq_some h).1] at hop
      cases hop
  | api c' =>
      obtain rfl := Option.some.inj hc
      exact .inl rfl
  | revoke c' receivers =>
      obtain rfl := Option.some.inj hc
      obtain ⟨_, _, _, _, hx', -, -⟩ := revoke_eq_some h
      exact absurd hx' (hx _ _)
  | apiFail c' =>
      obtain rfl := Option.some.inj hc
      obtain ⟨op', hop', rfl⟩ := apiFail_cases h
      obtain rfl := Option.some.inj (hop.symm.trans hop')
      exact .inr ⟨rfl, rfl⟩
  | _ => cases hc

/-- A `retry_dlq_job` that has come makes its SELECT next, or fails. -/
theorem select_cases {J : JsonCodec} {e : Event} {jobId : Uuid} (hc : e.call? = some c)
    (h : (system J).step w e = some w') (hx : w.calls c = .retryDlqJob jobId .called) :
    e = .api c ∨ w' = w.raise c (.retryDlqJob jobId) .unavailable :=
  (api_or_raise hc h (by rw [hx]; rfl) (by simp [hx])).imp_right And.right

end Api

/-! ## Deliveries -/

/-- The pieces of a delivery, one constructor for each way the code can go. -/
inductive Piece (J : JsonCodec) (m : Message) (worker : Worker) (cached : Option String)
    (now : Time) : Phase → Input → Effects → Prop
  | start : Piece J m worker cached now .received .returns (beforeStart m worker true)
  | startFails (exc : Exc) :
      Piece J m worker cached now .received (.raises exc) (beforeStart m worker false)
  | miss : cached = none → Piece J m worker cached now .started .returns { next := some .missed }
  | hit (v : Json) : cached ≠ none →
      Piece J m worker cached now .started .returns { next := some (.returned v) }
  | undecodable {text : String} : cached = some text →
      Piece J m worker cached now .started .returns (autoretry m (J.fault text))
  | lookupFails (exc : Exc) :
      Piece J m worker cached now .started (.raises exc) (autoretry m exc)
  | execute : Piece J m worker cached now .missed .returns
      { next := some .executing, seen := [.executeCalled m] }
  | returns (v : Json) : Piece J m worker cached now .executing (.ends (.returns v))
      { next := some (.returned v), seen := [.executeReturned m v] }
  | invalid (exc : Exc) : Piece J m worker cached now .executing (.ends (.validationError exc))
      { next := some (.failing exc true .send) }
  | exhausted (exc : Exc) : maxRetries ≤ m.retries →
      Piece J m worker cached now .executing (.ends (.exception exc))
        { next := some (.failing exc false .send) }
  | again (exc : Exc) : m.retries < maxRetries →
      Piece J m worker cached now .executing (.ends (.exception exc))
        { next := some (.retrying (countdown m.retries) true) }
  | ownRetry (delay : Nat) : m.retries < maxRetries →
      Piece J m worker cached now .executing (.ends (.retry delay))
        { next := some (.retrying (countdown m.retries) true)
          queue := some (retryMessage m delay now)
          seen := [.retryPublished (retryMessage m delay now)] }
  | success (v : Json) : Piece J m worker cached now (.returned v) .returns (onSuccess v true)
  | successFails (v : Json) (exc : Exc) :
      Piece J m worker cached now (.returned v) (.raises exc) (onSuccess v false)
  | count (v : Json) : Piece J m worker cached now (.completed v) .returns (countSuccess v)
  | store (v : Json) :
      Piece J m worker cached now (.counted v) .returns (storeIdempotencyResult v)
  | storeFails (v : Json) (exc : Exc) : Piece J m worker cached now (.counted v) (.raises exc)
      { next := some (.failing exc false .send) }
  | failure (exc : Exc) (again : Bool) (stage : FailureStage) :
      Piece J m worker cached now (.failing exc again stage) .returns
        (onFailure exc again true stage)
  | failureFails (exc exc' : Exc) (again : Bool) (stage : FailureStage) : stage ≠ .count →
      Piece J m worker cached now (.failing exc again stage) (.raises exc')
        (onFailure exc again false stage)
  | retry (delay : Nat) (again : Bool) :
      Piece J m worker cached now (.retrying delay again) .returns (retry m delay now)
  | retryFails (delay : Nat) (exc : Exc) :
      Piece J m worker cached now (.retrying delay true) (.raises exc) (autoretry m exc)
  | rejected (delay : Nat) (exc : Exc) :
      Piece J m worker cached now (.retrying delay false) (.raises exc) { next := some .handled }
  | onRetry : Piece J m worker cached now .retried .returns onRetry
  | ack : Piece J m worker cached now .handled .returns { next := none }

section Delivery
variable {J : JsonCodec} {m : Message} {worker : Worker} {cached : Option String} {now : Time}

theorem run_cases :
    Piece J m worker cached now .started .returns (run J m cached) := by
  unfold run checkIdempotency
  cases hc : cached with
  | none => exact .miss rfl
  | some text =>
      by_cases hn : text = "null"
      · simpa [hn] using .hit .null (by simp)
      · cases hl : J.loads text with
        | none => simpa [hn, hl] using .undecodable rfl
        | some v => simpa [hn, hl] using .hit v (by simp)

/-- The autoretry wrapper retries, or lets the exception out of the task. -/
theorem autoretry_cases (m : Message) (exc : Exc) :
    (m.retries < maxRetries ∧
        autoretry m exc = { next := some (.retrying defaultRetryDelay false) }) ∨
      (maxRetries ≤ m.retries ∧ autoretry m exc = { next := some (.failing exc false .send) }) := by
  unfold autoretry
  split
  · exact .inl ⟨‹_›, rfl⟩
  · exact .inr ⟨Nat.le_of_not_lt ‹_›, rfl⟩

theorem reject_cases (delay : Nat) (again : Bool) (exc : Exc) :
    Piece J m worker cached now (.retrying delay again) (.raises exc) (reject m exc again) := by
  cases again with
  | true => exact .retryFails delay exc
  | false => exact .rejected delay exc

theorem executeEnds_cases {o : Outcome} {e : Effects} (h : executeEnds m now o = some e) :
    Piece J m worker cached now .executing (.ends o) e := by
  cases o with
  | returns v => exact Option.some.inj h ▸ .returns v
  | validationError exc => exact Option.some.inj h ▸ .invalid exc
  | exception exc =>
      simp only [executeEnds] at h
      split at h
      · exact Option.some.inj h ▸ .exhausted exc ‹_›
      · exact Option.some.inj h ▸ .again exc (Nat.lt_of_not_le ‹_›)
  | retry delay =>
      simp only [executeEnds] at h
      split at h
      · cases h
      · exact Option.some.inj h ▸ .ownRetry delay (Nat.lt_of_not_le ‹_›)

theorem step_piece {phase : Phase} {i : Input} {e : Effects}
    (h : BaseTask.step J m worker cached now phase i = some e) :
    Piece J m worker cached now phase i e := by
  unfold BaseTask.step at h
  split at h
  · exact Option.some.inj h ▸ .start
  · exact Option.some.inj h ▸ .startFails _
  · exact Option.some.inj h ▸ run_cases
  · exact Option.some.inj h ▸ .lookupFails _
  · exact Option.some.inj h ▸ .execute
  · exact executeEnds_cases h
  · exact Option.some.inj h ▸ .success _
  · exact Option.some.inj h ▸ .successFails _ _
  · exact Option.some.inj h ▸ .count _
  · exact Option.some.inj h ▸ .store _
  · exact Option.some.inj h ▸ .storeFails _ _
  · exact Option.some.inj h ▸ .failure _ _ _
  · split at h
    · cases h
    · exact Option.some.inj h ▸ .failureFails _ _ _ _ ‹_›
  · exact Option.some.inj h ▸ .retry _ _
  · exact Option.some.inj h ▸ reject_cases _ _ _
  · exact Option.some.inj h ▸ .onRetry
  · exact Option.some.inj h ▸ .ack
  · cases h

end Delivery

/-! ## The whole system -/

/-- The environment and the `dlq` queue: rows, messages, calls and trace stay. -/
structure Env (w : World) (e : Event) (w' : World) : Prop where
  db : w'.db = w.db
  slots : w'.slots = w.slots
  nextSlot : w'.nextSlot = w.nextSlot
  calls : w'.calls = w.calls
  uuid : w'.uuid = w.uuid
  trace : w'.trace = w.trace
  heard : ∀ worker, w'.heard worker ⊆ w.heard worker
  cache : ∀ key, e ≠ .expire key → w'.cache (cacheKey key) = w.cache (cacheKey key)

/-- The events that are neither the API's nor a worker's. -/
def Event.ambient : Event → Bool
  | .boot _ => true
  | .tick _ => true
  | .expire _ => true
  | .deploy _ => true
  | .dlqReceive => true
  | .updateDlqMetrics _ => true
  | _ => false

theorem Event.call?_of_ambient {e : Event} (h : e.ambient) : e.call? = none := by
  cases e with
  | boot _ => rfl
  | tick _ => rfl
  | expire _ => rfl
  | deploy _ => rfl
  | dlqReceive => rfl
  | updateDlqMetrics _ => rfl
  | _ => cases h

/-- What an event can do to the world. -/
inductive SysStep (J : JsonCodec) (w : World) : Event → World → Prop
  | api {e : Event} {c : CallId} {w' : World} : e.call? = some c → ApiStep w c w' →
      SysStep J w e w'
  | drop {s : SlotId} {worker : Worker} {m : Message} : w.slots s = .queued m →
      m.id ∈ w.heard worker → SysStep J w (.take s worker) (w.setSlot s .empty)
  | take {s : SlotId} {worker : Worker} {m : Message} : w.slots s = .queued m →
      m.eta ≤ w.clock → m.id ∉ w.heard worker →
      SysStep J w (.take s worker) (w.setSlot s (.delivered m worker .received))
  | work {s : SlotId} {i : Input} {m : Message} {worker : Worker} {phase : Phase} {e : Effects}
      {db : Db} : w.slots s = .delivered m worker phase →
      Piece J m worker (w.cache (cacheKey m.idempotencyKey)) w.clock phase i e →
      w.write m.jobId e.write = some db →
      SysStep J w (.work s i) (w.apply J s m worker e db)
  | crash {s : SlotId} {m : Message} {worker : Worker} {phase : Phase} :
      w.slots s = .delivered m worker phase →
      SysStep J w (.crash s) (w.setSlot s (.queued m))
  | redeliver {s : SlotId} {m : Message} {worker : Worker} {phase : Phase} :
      w.slots s = .delivered m worker phase →
      SysStep J w (.redeliver s) (w.enqueue m)
  | env {e : Event} {w' : World} : e.ambient → Env w e w' → SysStep J w e w'

/-- The coarser split most invariants need: an event is a piece of a delivery, or it is not. -/
inductive Worked (J : JsonCodec) (w : World) (e : Event) (w' : World) : Prop
  | piece {s : SlotId} {i : Input} {m : Message} {worker : Worker} {phase : Phase}
      {eff : Effects} {db : Db} : e = .work s i → w.slots s = .delivered m worker phase →
      Piece J m worker (w.cache (cacheKey m.idempotencyKey)) w.clock phase i eff →
      w.write m.jobId eff.write = some db → w' = w.apply J s m worker eff db → Worked J w e w'
  | other : (∀ s i, e ≠ .work s i) → Worked J w e w'

theorem SysStep.worked {J : JsonCodec} {w w' : World} {e : Event} (h : SysStep J w e w') :
    Worked J w e w' := by
  cases h with
  | work hs hp hdb => exact .piece rfl hs hp hdb rfl
  | api hc _ =>
      refine .other ?_
      rintro s i rfl
      cases hc
  | env hn _ =>
      refine .other ?_
      rintro s i rfl
      cases hn
  | _ =>
      refine .other ?_
      intro s i he
      cases he

/-! ## The slots and the cache after a piece of a delivery -/

section Apply
variable {J : JsonCodec} {w : World} {s s' : SlotId} {m m' : Message} {worker : Worker}
  {phase : Phase} {eff : Effects} {v : Json} {d : Db}

theorem slots_apply_some (h : eff.next = some phase) :
    (w.apply J s m worker eff d).slots s = .delivered m worker phase := by
  simp only [World.apply, h]
  exact Function.update_self ..

theorem slots_apply_none (h : eff.next = none) :
    (w.apply J s m worker eff d).slots s = .empty := by
  simp only [World.apply, h]
  exact Function.update_self ..

theorem slots_apply_ne (hs : s' ≠ s) (h : eff.queue = none) :
    (w.apply J s m worker eff d).slots s' = w.slots s' := by
  simp only [World.apply, h]
  exact Function.update_of_ne hs ..

theorem slots_apply_queue (hs : s' ≠ s) (h : eff.queue = some m') :
    (w.apply J s m worker eff d).slots s' =
      Function.update w.slots w.nextSlot (.queued m') s' := by
  simp only [World.apply, h]
  exact Function.update_of_ne hs ..

theorem cache_apply_some (h : eff.store = some v) : (w.apply J s m worker eff d).cache =
    Function.update w.cache (cacheKey m.idempotencyKey) (some (J.dumps v)) := by
  simp only [World.apply, h]

theorem cache_apply_none (h : eff.store = none) :
    (w.apply J s m worker eff d).cache = w.cache := by
  simp only [World.apply, h]

end Apply

theorem cacheKey_injective : Function.Injective cacheKey := by
  intro a b h
  exact (String.append_right_inj _).mp h

section System
variable {J : JsonCodec} {w w' : World}

theorem take_cases {s : SlotId} {worker : Worker} (h : w.take s worker = some w') :
    SysStep J w (.take s worker) w' := by
  unfold World.take at h
  cases hs : w.slots s with
  | queued m =>
      simp only [hs] at h
      split at h
      · cases h
      · split at h
        · exact Option.some.inj h ▸ .drop hs ‹_›
        · exact Option.some.inj h ▸ .take hs (Nat.le_of_not_lt ‹_›) ‹_›
  | empty => simp [hs] at h
  | delivered m worker' phase => simp [hs] at h

theorem work_cases {s : SlotId} {i : Input} (h : w.work J s i = some w') :
    SysStep J w (.work s i) w' := by
  unfold World.work at h
  cases hs : w.slots s with
  | delivered m worker phase =>
      simp only [hs] at h
      obtain ⟨e, he, hp⟩ := Option.bind_eq_some_iff.mp h
      obtain ⟨db, hdb, rfl⟩ := Option.map_eq_some_iff.mp hp
      exact .work hs (step_piece he) hdb
  | empty => simp [hs] at h
  | queued m => simp [hs] at h

/-- The inversion lemma of the system. -/
theorem step_cases {e : Event} (h : (system J).step w e = some w') : SysStep J w e w' := by
  cases e with
  | call c op => exact .api rfl (step_api (J := J) rfl h)
  | api c => exact .api rfl (step_api (J := J) rfl h)
  | revoke c receivers => exact .api rfl (step_api (J := J) rfl h)
  | apiFail c => exact .api rfl (step_api (J := J) rfl h)
  | take s worker => exact take_cases h
  | work s i => exact work_cases h
  | crash s =>
      change w.crash s = some w' at h
      cases hs : w.slots s with
      | delivered m worker phase =>
          simp only [World.crash, hs, Option.some.injEq] at h
          exact h ▸ .crash hs
      | empty => simp [World.crash, hs] at h
      | queued m => simp [World.crash, hs] at h
  | redeliver s =>
      change w.redeliver s = some w' at h
      cases hs : w.slots s with
      | delivered m worker phase =>
          simp only [World.redeliver, hs, Option.some.injEq] at h
          exact h ▸ .redeliver hs
      | empty => simp [World.redeliver, hs] at h
      | queued m => simp [World.redeliver, hs] at h
  | boot worker =>
      obtain rfl := Option.some.inj h
      refine .env rfl ⟨rfl, rfl, rfl, rfl, rfl, rfl, ?_, fun _ _ => rfl⟩
      intro worker'
      by_cases hw : worker' = worker
      · subst hw; simp
      · simp [Function.update_of_ne hw]
  | tick n =>
      obtain rfl := Option.some.inj h
      exact .env rfl ⟨rfl, rfl, rfl, rfl, rfl, rfl, fun _ => List.Subset.refl _, fun _ _ => rfl⟩
  | expire key =>
      obtain rfl := Option.some.inj h
      refine .env rfl ⟨rfl, rfl, rfl, rfl, rfl, rfl, fun _ => List.Subset.refl _, ?_⟩
      intro key' hne
      refine Function.update_of_ne ?_ ..
      intro hk
      exact hne (congrArg Event.expire (cacheKey_injective hk).symm)
  | deploy allowed =>
      obtain rfl := Option.some.inj h
      exact .env rfl ⟨rfl, rfl, rfl, rfl, rfl, rfl, fun _ => List.Subset.refl _, fun _ _ => rfl⟩
  | dlqReceive =>
      change w.dlqReceive = some w' at h
      unfold World.dlqReceive at h
      split at h
      · obtain rfl := Option.some.inj h
        exact .env rfl ⟨rfl, rfl, rfl, rfl, rfl, rfl, fun _ => List.Subset.refl _, fun _ _ => rfl⟩
      · cases h
  | updateDlqMetrics ok =>
      obtain rfl := Option.some.inj h
      exact .env rfl ⟨rfl, rfl, rfl, rfl, rfl, rfl, fun _ => List.Subset.refl _, fun _ _ => rfl⟩

end System

end Aegis
