/-
# `AegisWorkers.BaseTask` — one delivery on a worker

`BaseTask` of `workers/base_task.py` for a task whose `run` is `BaseTask.run`,
together with what Celery does around it: `before_start` ahead of `run`,
`on_success`, `on_failure` or `on_retry` after it, the autoretry wrapper for an
exception that leaves `run`, and the late acknowledgement.

A delivery is cut at its external calls.  `step` says what one piece of the code
does, as `Effects`: the phase the delivery is in afterwards, and the writes and
publications made on the way.  Nothing here knows the state of the system; the
piece is given what it reads (the cached text, the clock) and whether its
external call returns.  A call that raises has had no effect.

    received   before_start: UPDATE RUNNING
    started    run: _check_idempotency
    missed     run: execute() is called
    executing  run: execute() ends
    returned   on_success: UPDATE COMPLETED
    completed  on_success: jobs_total{success}
    counted    on_success: SETEX
    failing    on_failure: dlq.receive · UPDATE FAILED · UPDATE DLQ · jobs_total{failed}, dlq_size
    retrying   retry(): the message with retries + 1
    retried    on_retry: jobs_total{retry}
    handled    acknowledgement, or rejection
-/
import AegisWorkers.World

namespace Aegis.BaseTask

/-! ## Class attributes -/

def maxRetries : Nat := 5

def defaultRetryDelay : Nat := 10

/-- `2 ** retries * 10`. -/
def countdown (retries : Nat) : Nat := Nat.pow 2 retries * 10

/-- `error_detail[:4096]`. -/
def truncate (text : String) : String := String.ofList (text.toList.take 4096)

/-! ## `_update_job_status` -/

/-- The keyword arguments of `_update_job_status`; `None` is `none`, and for
`result` it is `null`. -/
structure StatusUpdate where
  workerId : Option Worker := none
  errorDetail : Option String := none
  result : Json := .null
  incrementExecution : Bool := false

/-- The columns `_update_job_status` sets. -/
def values (now : Time) (status : JobStatus) (u : StatusUpdate) (job : Job) : Job :=
  { job with
    status := status
    updatedAt := now
    workerId := u.workerId.or job.workerId
    errorDetail := (u.errorDetail.map truncate).or job.errorDetail
    result := match u.result with
      | .null => job.result
      | v => some v
    startedAt := if status = .running then some now else job.startedAt
    completedAt :=
      if status = .completed ∨ status = .failed ∨ status = .dlq then some now
      else job.completedAt
    executionCount := if u.incrementExecution then job.executionCount + 1 else job.executionCount }

def statusPatch (now : Time) (status : JobStatus) (u : StatusUpdate) : JobPatch where
  apply := values now status u
  pk_apply _ := rfl
  uk_apply _ := rfl

/-- One call of `_update_job_status`; `ok`: nothing in it raised.  It returns
normally either way. -/
structure Write where
  status : JobStatus
  fields : StatusUpdate
  ok : Bool

/-! ## Effects -/

/-- What one piece of a delivery does. -/
structure Effects where
  /-- the phase afterwards; `none`: the message is acknowledged -/
  next : Option Phase
  /-- a call of `_update_job_status` -/
  write : Option Write := none
  /-- a message published to the default queue -/
  queue : Option Message := none
  /-- a `dlq.receive` message, by its `error_detail` -/
  dlq : Option String := none
  /-- a result stored under the idempotency key -/
  store : Option Json := none
  /-- a `jobs_total` increment -/
  counts : Option JobMetric := none
  /-- `dlq_size.inc()` -/
  dlqSizeInc : Bool := false
  seen : List Obs := []

/-- How `execute()` ends. -/
inductive Outcome where
  | returns (v : Json)
  | validationError (exc : Exc)
  /-- any other exception that is not Celery's -/
  | exception (exc : Exc)
  /-- `execute()` has called `self.retry(countdown=…)`, which raised `Retry` -/
  | retry (countdown : Nat)

/-- What the code next hears from outside. -/
inductive Input where
  /-- its external call returns -/
  | returns
  /-- its external call raises -/
  | raises (exc : Exc)
  /-- `execute()` ends -/
  | ends (o : Outcome)

/-! ## The hooks -/

def beforeStart (m : Message) (worker : Worker) (ok : Bool) : Effects where
  next := some .started
  write := some
    { status := .running
      fields := { workerId := some worker, incrementExecution := true }
      ok := ok }
  seen := [.beforeStart m.jobId]

def onSuccess (v : Json) (ok : Bool) : Effects where
  next := some (.completed v)
  write := some { status := .completed, fields := { result := v }, ok := ok }

/-- `jobs_total.labels(task_name, "success").inc()` in `on_success`. -/
def countSuccess (v : Json) : Effects where
  next := some (.counted v)
  counts := some .success

/-- `_store_idempotency_result`, the end of `on_success`. -/
def storeIdempotencyResult (v : Json) : Effects where
  next := some .handled
  store := some v

/-- `on_failure`, one external call at a time, and the counting at its end.  A failed publish
and a failed UPDATE are logged and passed over. -/
def onFailure (exc : Exc) (again ok : Bool) : FailureStage → Effects
  | .send =>
      { next := some (.failing exc again .failed)
        dlq := if ok then some exc.str else none }
  | .failed =>
      { next := some (.failing exc again .dlq)
        write := some
          { status := .failed
            fields := { errorDetail := some (truncate (exc.str ++ "\n\n" ++ exc.traceback)) }
            ok := ok } }
  | .dlq =>
      { next := some (.failing exc again .count)
        write := some { status := .dlq, fields := {}, ok := ok } }
  | .count =>
      { next := some (if again then .failing exc false .send else .handled)
        counts := some .failed
        dlqSizeInc := true }

def onRetry : Effects where
  next := some .handled
  counts := some .retry

/-! ## `run` and the autoretry wrapper -/

/-- The message `retry()` publishes. -/
def retryMessage (m : Message) (countdown : Nat) (now : Time) : Message :=
  { m with retries := m.retries + 1, eta := now + countdown }

/-- Celery's wrapper around `run`, for an exception `run` did not turn into a
retry itself: `retry()` without a countdown, which raises the exception again
once the retries are used up. -/
def autoretry (m : Message) (exc : Exc) : Effects where
  next := some (if m.retries < maxRetries then .retrying defaultRetryDelay false
    else .failing exc false .send)

/-- `idempotency:{key}`. -/
def cacheKey (idempotencyKey : String) : String := "idempotency:" ++ idempotencyKey

/-- What `_check_idempotency` makes of the cached text. -/
inductive Lookup where
  | miss
  | hit (v : Json)
  | undecodable (text : String)

def checkIdempotency (J : JsonCodec) : Option String → Lookup
  | none => .miss
  | some cached =>
      if cached ≠ "null" then
        match J.loads cached with
        | some v => .hit v
        | none => .undecodable cached
      else .hit .null

/-- `run`, up to the call of `execute()`. -/
def run (J : JsonCodec) (m : Message) (cached : Option String) : Effects :=
  match checkIdempotency J cached with
  | .miss => { next := some .missed }
  | .hit v => { next := some (.returned v) }
  | .undecodable text => autoretry m (J.fault text)

/-- `run`, from the end of `execute()` on.  The `except Exception` clause also
catches a `Retry` that `execute()` raised itself. -/
def executeEnds (m : Message) (now : Time) : Outcome → Option Effects
  | .returns v => some { next := some (.returned v), seen := [.executeReturned m v] }
  | .validationError exc => some { next := some (.failing exc true .send) }
  | .exception exc =>
      if maxRetries ≤ m.retries then some { next := some (.failing exc false .send) }
      else some { next := some (.retrying (countdown m.retries) true) }
  | .retry delay =>
      if maxRetries ≤ m.retries then none
      else some
        { next := some (.retrying (countdown m.retries) true)
          queue := some (retryMessage m delay now)
          seen := [.retryPublished (retryMessage m delay now)] }

/-- `retry()`: the message is published, then `Retry` is raised. -/
def retry (m : Message) (delay : Nat) (now : Time) : Effects where
  next := some .retried
  queue := some (retryMessage m delay now)
  seen := [.retryPublished (retryMessage m delay now)]

/-- The publish of `retry()` fails: `Reject` is raised.  Out of `run` it comes to the autoretry
wrapper; out of the wrapper it ends the delivery with no hook, and the message is rejected and
not queued again. -/
def reject (m : Message) (exc : Exc) (again : Bool) : Effects :=
  if again then autoretry m exc else { next := some .handled }

/-- The next piece of a delivery, if the input fits it. -/
def step (J : JsonCodec) (m : Message) (worker : Worker) (cached : Option String) (now : Time) :
    Phase → Input → Option Effects
  | .received, .returns => some (beforeStart m worker true)
  | .received, .raises _ => some (beforeStart m worker false)
  | .started, .returns => some (run J m cached)
  | .started, .raises exc => some (autoretry m exc)
  | .missed, .returns => some { next := some .executing, seen := [.executeCalled m] }
  | .executing, .ends o => executeEnds m now o
  | .returned v, .returns => some (onSuccess v true)
  | .returned v, .raises _ => some (onSuccess v false)
  | .completed v, .returns => some (countSuccess v)
  | .counted v, .returns => some (storeIdempotencyResult v)
  -- the exception leaves `on_success`, and Celery calls `on_failure` for it
  | .counted _, .raises exc => some { next := some (.failing exc false .send) }
  | .failing exc again stage, .returns => some (onFailure exc again true stage)
  | .failing exc again stage, .raises _ =>
      if stage = .count then none else some (onFailure exc again false stage)
  | .retrying delay _, .returns => some (retry m delay now)
  | .retrying _ again, .raises exc => some (reject m exc again)
  | .retried, .returns => some onRetry
  | .handled, .returns => some { next := none }
  | _, _ => none

end Aegis.BaseTask
