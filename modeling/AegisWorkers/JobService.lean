/-
# `AegisWorkers.JobService` — the API operations, one external call at a time

`create_job`, `cancel_job` and `retry_dlq_job` of `app/services/job_service.py`.
Each is cut where the code awaits the database or calls the broker, since that
is where another party can act:

    create_job      SELECT by key · flush · send_task · commit · refresh
    cancel_job      SELECT by id · revoke · UPDATE · commit
    retry_dlq_job   SELECT by id · flush · send_task · commit · refresh

`get_job` is one SELECT, and `getJob` is a function of the table and the time.

A step is `none` where the database makes the call wait.  Any of these calls may
fail instead (`apiFail`): the exception leaves the operation and
`get_db_session` rolls the session back (`app/db/session.py`).
-/
import AegisWorkers.World

namespace Aegis

open ReadCommitted

/-- An exception leaves the operation: the session is rolled back. -/
def World.raise (w : World) (c : CallId) (op : Op) (e : ApiError) : World :=
  { w with db := w.db.rollback c }.setCall c (.raised op e)

def World.return (w : World) (c : CallId) (op : Op) (r : Response) : World :=
  w.setCall c (.returned op r)

/-- `send_task` inside an API call; the task id is the message's `id`. -/
def World.sendTask (w : World) (c : CallId) (m : Message) : World :=
  (({ w with uuid := w.uuid + 1 }).enqueue m).observe (.published c m)

section Calls
variable (w : World) (c : CallId) (op : Op) (e : ApiError) (r : Response)

@[simp] theorem calls_raise_self : (w.raise c op e).calls c = .raised op e :=
  Function.update_self ..

@[simp] theorem calls_raise_ne {c' : CallId} (h : c' ≠ c) :
    (w.raise c op e).calls c' = w.calls c' := Function.update_of_ne h ..

@[simp] theorem db_raise : (w.raise c op e).db = w.db.rollback c := rfl

@[simp] theorem calls_sendTask (m : Message) : (w.sendTask c m).calls = w.calls := rfl

@[simp] theorem calls_return_self : (w.return c op r).calls c = .returned op r :=
  Function.update_self ..

@[simp] theorem calls_return_ne {c' : CallId} (h : c' ≠ c) :
    (w.return c op r).calls c' = w.calls c' := Function.update_of_ne h ..

@[simp] theorem db_return : (w.return c op r).db = w.db := rfl

end Calls

namespace JobService

/-! ## Rows and updates -/

/-- `Job(…)` in `create_job`, with the defaults of the INSERT. -/
def newJob (id : Uuid) (req : JobCreateRequest) (began : Time) : Job where
  id := id
  taskName := req.taskName
  payload := req.payload
  idempotencyKey := req.idempotencyKey
  createdAt := began
  updatedAt := began

/-- `f"dlq-retry-{uuid.uuid4()}"`. -/
def dlqRetryKey (u : Uuid) : String := "dlq-retry-" ++ toString u

/-- `Job(…)` in `retry_dlq_job`, with the defaults of the INSERT. -/
def retryJob (id : Uuid) (newIdempotencyKey : String) (original : Job) (began : Time) : Job where
  id := id
  taskName := original.taskName
  payload := original.payload
  idempotencyKey := newIdempotencyKey
  parentJobId := some original.id
  retryCount := original.retryCount + 1
  createdAt := began
  updatedAt := began

/-- `job.celery_task_id = celery_result.id`, as the flush of `commit` writes it. -/
def celeryTaskIdPatch (celeryTaskId : Uuid) (began : Time) : JobPatch where
  apply job := { job with celeryTaskId := some celeryTaskId, updatedAt := began }
  pk_apply _ := rfl
  uk_apply _ := rfl

/-- The UPDATE of `cancel_job`.  The trigger of the table sets `updated_at` to
the start of the transaction, whatever the statement says. -/
def cancelPatch (began : Time) : JobPatch where
  apply job := { job with status := .cancelled, updatedAt := began }
  pk_apply _ := rfl
  uk_apply _ := rfl

/-! ## Responses and messages -/

/-- The response on an idempotency hit. -/
def existingResponse (existing : Job) : JobCreateResponse where
  id := existing.id
  taskName := existing.taskName
  idempotencyKey := existing.idempotencyKey
  status := existing.status
  payload := existing.payload.orEmpty
  celeryTaskId := existing.celeryTaskId
  executionCount := existing.executionCount
  parentJobId := existing.parentJobId
  result := existing.result
  errorMessage := existing.errorDetail
  createdAt := existing.createdAt
  updatedAt := existing.updatedAt
  wasIdempotent := true

/-- The response for a new row; `parent` is what the operation passes as `parent_job_id`. -/
def newResponse (job : Job) (parent : Option Uuid) : JobCreateResponse where
  id := job.id
  taskName := job.taskName
  idempotencyKey := job.idempotencyKey
  status := job.status
  payload := job.payload.orEmpty
  celeryTaskId := job.celeryTaskId
  executionCount := job.executionCount
  parentJobId := parent
  result := none
  errorMessage := none
  createdAt := job.createdAt
  updatedAt := job.updatedAt
  wasIdempotent := false

def cancelResponse (jobId : Uuid) : JobCancelResponse where
  id := jobId
  status := .cancelled
  message := "Job successfully cancelled"

def taskNotAllowed (taskName : String) : ApiError :=
  .taskNotAllowed ("Task '" ++ taskName ++ "' is not in the allowed task whitelist")

def jobNotFound (jobId : Uuid) : ApiError :=
  .jobNotFound ("Job " ++ toString jobId ++ " not found")

def cannotCancel (status : JobStatus) : ApiError :=
  .jobConflict ("Cannot cancel job in status '" ++ status.value ++
    "'. Only PENDING jobs can be cancelled.") status

def notInDlq (status : JobStatus) : ApiError :=
  .jobConflict ("Job is not in DLQ (current status: '" ++ status.value ++
    "'). Only DLQ jobs can be retried via this endpoint.") status

/-! ## Reading -/

/-- `timedelta.max`, in days. -/
def timedeltaMaxDays : Nat := 999999999

/-- `datetime.max`, in whole seconds. -/
def datetimeMax : Time := 3652059 * 86400 - 1

/-- `datetime.now(timezone.utc) + timedelta(seconds=countdown)` does not overflow. -/
def fits (now : Time) (countdown : Nat) : Bool :=
  countdown / 86400 ≤ timedeltaMaxDays && now + countdown ≤ datetimeMax

/-- `estimated_next_run` of `get_job`, at the time `now`. -/
def estimatedNextRun (now : Time) (job : Job) : Except ReadError (Option Time) :=
  if job.status = .pending ∧ 0 < job.retryCount then
    let countdown := Nat.pow 2 job.retryCount * 10
    if fits now countdown then .ok (some (now + countdown)) else .error .overflow
  else .ok none

/-- `get_job`: one SELECT and a response. -/
def getJob (db : Db) (now : Time) (jobId : Uuid) : Except ReadError JobResponse :=
  match db.find jobId with
  | none => .error (.api (jobNotFound jobId))
  | some job =>
      (estimatedNextRun now job).map fun estimate =>
        { id := job.id
          taskName := job.taskName
          idempotencyKey := job.idempotencyKey
          status := job.status
          payload := job.payload.orEmpty
          celeryTaskId := job.celeryTaskId
          executionCount := job.executionCount
          parentJobId := job.parentJobId
          result := job.result
          errorMessage := job.errorDetail
          createdAt := job.createdAt
          updatedAt := job.updatedAt
          estimatedNextRun := estimate }

/-! ## The operations -/

/-- The call arrives.  The whitelist check of `create_job` comes before its first
external call. -/
def enter (allowed : List String) : Op → Call
  | .createJob req =>
      if req.taskName ∈ allowed then .createJob req .called
      else .raised (.createJob req) (taskNotAllowed req.taskName)
  | .cancelJob jobId => .cancelJob jobId .called
  | .retryDlqJob jobId => .retryDlqJob jobId .called

/-- `create_job` up to the flush: the row and the message of a new key. -/
def createSubmission (id : Uuid) (req : JobCreateRequest) (began : Time) : Submission where
  op := .createJob req
  began := began
  job := newJob id req began
  taskName := req.taskName
  idempotencyKey := req.idempotencyKey
  payload := req.payload

/-- `retry_dlq_job` up to the flush: a new row and message for `original`. -/
def retrySubmission (keyUuid id jobId : Uuid) (original : Job) (began : Time) : Submission where
  op := .retryDlqJob jobId
  began := began
  job := retryJob id (dlqRetryKey keyUuid) original began
  taskName := original.taskName
  idempotencyKey := dlqRetryKey keyUuid
  payload := original.payload

/-- The message `send_task` publishes under the task id `taskId`. -/
def message (sub : Submission) (taskId : Uuid) : Message where
  id := taskId
  taskName := sub.taskName
  jobId := sub.job.id
  idempotencyKey := sub.idempotencyKey
  payload := sub.payload

/-- What the operation returns, given the refreshed row. -/
def response (op : Op) (row : Job) : Response :=
  match op with
  | .retryDlqJob _ => .retried (newResponse row row.parentJobId)
  | _ => .created (newResponse row none) true

/-- `self._db.add(job)` and `flush`, with `uuids` generated UUIDs used up. -/
def flush (w : World) (c : CallId) (uuids : Nat) (sub : Submission) : Option World :=
  match w.db.insert c sub.job with
  | .waits => none
  | .violates => some ({ w with uuid := w.uuid + uuids }.raise c sub.op .integrityError)
  | .inserted db =>
      some ({ w with db := db, uuid := w.uuid + uuids }.setCall c (.submitting sub .flushed))

/-- The metric `retry_dlq_job` emits after its commit. -/
def countSubmission (w : World) (sub : Submission) : World :=
  match sub.op with
  | .retryDlqJob _ => w.count sub.taskName .dlqRetry
  | _ => w

@[simp] theorem db_countSubmission (w : World) (sub : Submission) :
    (countSubmission w sub).db = w.db := by
  unfold countSubmission; split <;> rfl

@[simp] theorem calls_countSubmission (w : World) (sub : Submission) :
    (countSubmission w sub).calls = w.calls := by
  unfold countSubmission; split <;> rfl

@[simp] theorem slots_countSubmission (w : World) (sub : Submission) :
    (countSubmission w sub).slots = w.slots := by
  unfold countSubmission; split <;> rfl

@[simp] theorem nextSlot_countSubmission (w : World) (sub : Submission) :
    (countSubmission w sub).nextSlot = w.nextSlot := by
  unfold countSubmission; split <;> rfl

@[simp] theorem trace_countSubmission (w : World) (sub : Submission) :
    (countSubmission w sub).trace = w.trace := by
  unfold countSubmission; split <;> rfl

@[simp] theorem uuid_countSubmission (w : World) (sub : Submission) :
    (countSubmission w sub).uuid = w.uuid := by
  unfold countSubmission; split <;> rfl

@[simp] theorem cache_countSubmission (w : World) (sub : Submission) :
    (countSubmission w sub).cache = w.cache := by
  unfold countSubmission; split <;> rfl

@[simp] theorem heard_countSubmission (w : World) (sub : Submission) :
    (countSubmission w sub).heard = w.heard := by
  unfold countSubmission; split <;> rfl

@[simp] theorem allowed_countSubmission (w : World) (sub : Submission) :
    (countSubmission w sub).allowedTaskNames = w.allowedTaskNames := by
  unfold countSubmission; split <;> rfl

/-- `create_job` and `retry_dlq_job` from the flush on: `send_task`, `commit`, `refresh`. -/
def submit (w : World) (c : CallId) (sub : Submission) : Stage → Option World
  | .flushed =>
      some ((w.sendTask c (message sub w.uuid)).setCall c (.submitting sub (.sent w.uuid)))
  | .sent celeryTaskId =>
      let db := (w.db.amend c sub.job.id (celeryTaskIdPatch celeryTaskId sub.began)).commit c
      some ((countSubmission ({ w with db := db }.observe (.committed c sub.job.id)) sub).setCall c
        (.submitting sub .committed))
  | .committed =>
      match w.db.find sub.job.id with
      | some row => some (w.return c sub.op (response sub.op row))
      | none => some (w.raise c sub.op .unavailable)

def createJob (w : World) (c : CallId) (req : JobCreateRequest) : CreatePc → Option World
  | .called =>
      match w.db.findKey req.idempotencyKey with
      | some existing =>
          some (w.return c (.createJob req) (.created (existingResponse existing) false))
      | none => some (w.setCall c (.createJob req (.missed w.clock)))
  | .missed began => flush w c 1 (createSubmission w.uuid req began)

def cancelJob (w : World) (c : CallId) (jobId : Uuid) : CancelPc → Option World
  | .called =>
      match w.db.find jobId with
      | none => some (w.raise c (.cancelJob jobId) (jobNotFound jobId))
      | some job =>
          if job.status ≠ .pending then
            some (w.raise c (.cancelJob jobId) (cannotCancel job.status))
          else some (w.setCall c (.cancelJob jobId (.checked w.clock job)))
  | .checked began job =>
      -- `if job.celery_task_id:`; the broadcast itself is `revoke` below
      match job.celeryTaskId with
      | none => some (w.setCall c (.cancelJob jobId (.revoked began)))
      | some _ => none
  | .revoked began =>
      (w.db.lock c jobId (cancelPatch began)).map fun db =>
        { w with db := db }.setCall c (.cancelJob jobId .updated)
  | .updated =>
      some (({ w with db := w.db.commit c }.observe (.committed c jobId)).return c
        (.cancelJob jobId) (.cancelled (cancelResponse jobId)))

/-- `celery_app.control.revoke(job.celery_task_id, terminate=False)`: the workers
in `receivers` are up and receive the broadcast. -/
def revoke (w : World) (c : CallId) (receivers : List Worker) : Option World :=
  match w.calls c with
  | .cancelJob jobId (.checked began job) =>
      job.celeryTaskId.map fun taskId =>
        ({ w with
          heard := fun worker =>
            if worker ∈ receivers then taskId :: w.heard worker else w.heard worker }.observe
          (.revoked c taskId)).setCall c (.cancelJob jobId (.revoked began))
  | _ => none

def retryDlqJob (w : World) (c : CallId) (jobId : Uuid) : RetryPc → Option World
  | .called =>
      match w.db.find jobId with
      | none => some (w.raise c (.retryDlqJob jobId) (jobNotFound jobId))
      | some original =>
          if original.status ≠ .dlq then
            some (w.raise c (.retryDlqJob jobId) (notInDlq original.status))
          else some (w.setCall c (.retryDlqJob jobId (.checked w.clock original)))
  | .checked began original =>
      flush w c 2 (retrySubmission w.uuid (w.uuid + 1) jobId original began)

/-- A request reaches the API. -/
def call (w : World) (c : CallId) (op : Op) : Option World :=
  match w.calls c with
  | .idle => some (w.setCall c (enter w.allowedTaskNames op))
  | _ => none

/-- The next external call of `c` returns (`revoke` apart). -/
def api (w : World) (c : CallId) : Option World :=
  match w.calls c with
  | .createJob req pc => createJob w c req pc
  | .cancelJob jobId pc => cancelJob w c jobId pc
  | .retryDlqJob jobId pc => retryDlqJob w c jobId pc
  | .submitting sub stage => submit w c sub stage
  | _ => none

/-- The next external call of `c` raises. -/
def apiFail (w : World) (c : CallId) : Option World :=
  match w.calls c with
  | .createJob req _ => some (w.raise c (.createJob req) .unavailable)
  | .cancelJob jobId _ => some (w.raise c (.cancelJob jobId) .unavailable)
  | .retryDlqJob jobId _ => some (w.raise c (.retryDlqJob jobId) .unavailable)
  | .submitting sub _ => some (w.raise c sub.op .unavailable)
  | _ => none

end JobService

end Aegis
