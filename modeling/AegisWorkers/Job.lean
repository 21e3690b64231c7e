/-
# `AegisWorkers.Job` — the data of the job system

The row of the `jobs` table (`app/models/job.py`, `alembic/versions/001_initial.py`),
the requests and responses of the API (`app/schemas/job.py`) and the messages of
the two queues.

UUIDs and Celery task ids are numbers: the code compares, stores and prints them and
does nothing else with them.  A time is a number of seconds, counted from the first of
year 1, where the years of `datetime` begin.  A JSON value is what Python's
`json` reads and writes, `NaN` and the infinities included.  The column
`max_retries` of the row is left out, since no function reads or writes it.
-/
import AegisWorkers.ReadCommitted

namespace Aegis

abbrev Uuid := Nat

abbrev Time := Nat

/-- `self.request.hostname`: the name of a worker process. -/
abbrev Worker := String

/-! ## JSON -/

/-- A number as `json.loads` reads it. -/
inductive Num where
  | dec (mantissa exponent : Int)
  | nan
  | inf (negative : Bool)
  deriving DecidableEq, Repr

inductive Json where
  | null
  | bool (b : Bool)
  | num (n : Num)
  | str (s : String)
  | arr (xs : List Json)
  | obj (kvs : List (String × Json))
  deriving Repr, Inhabited

namespace Json

/-- Python's truth value. -/
def truthy : Json → Bool
  | .null => false
  | .bool b => b
  | .num (.dec m _) => m != 0
  | .num _ => true
  | .str s => s != ""
  | .arr xs => !xs.isEmpty
  | .obj kvs => !kvs.isEmpty

/-- `v or {}`. -/
def orEmpty (v : Json) : Json := if v.truthy then v else .obj []

/-- `v if isinstance(v, dict) else {}`. -/
def dictOrEmpty : Json → Json
  | .obj kvs => .obj kvs
  | _ => .obj []

end Json

/-- An exception: `str(exc)` and the text of `traceback.format_exc()`. -/
structure Exc where
  str : String
  traceback : String

/-- `json.dumps` and `json.loads`, as far as the worker's cache uses them; `fault` is what
`json.loads` raises on a text that is not JSON. -/
structure JsonCodec where
  dumps : Json → String
  loads : String → Option Json
  fault : String → Exc

/-! ## The row -/

inductive JobStatus where
  | pending | running | completed | failed | cancelled | dlq
  deriving DecidableEq, Repr

def JobStatus.value : JobStatus → String
  | .pending => "PENDING"
  | .running => "RUNNING"
  | .completed => "COMPLETED"
  | .failed => "FAILED"
  | .cancelled => "CANCELLED"
  | .dlq => "DLQ"

structure Job where
  id : Uuid
  taskName : String
  celeryTaskId : Option Uuid := none
  payload : Json
  idempotencyKey : String
  status : JobStatus := .pending
  retryCount : Nat := 0
  workerId : Option Worker := none
  errorDetail : Option String := none
  result : Option Json := none
  dlqMessageId : Option Uuid := none
  executionCount : Nat := 0
  parentJobId : Option Uuid := none
  createdAt : Time
  updatedAt : Time
  startedAt : Option Time := none
  completedAt : Option Time := none

/-- One API call is one session, hence one transaction. -/
abbrev CallId := Nat

/-- The `jobs` table with its primary key and `ix_jobs_idempotency_key`. -/
abbrev Db := ReadCommitted.Store Job.id Job.idempotencyKey CallId

/-- An UPDATE of a row that leaves `id` and `idempotency_key` alone. -/
abbrev JobPatch := ReadCommitted.Patch Job.id Job.idempotencyKey

/-! ## Messages -/

/-- A message of the default queue: `kwargs` of `send_task`, the task id Celery
gives it (kept by every retry), the retry counter and the earliest time of delivery. -/
structure Message where
  id : Uuid
  taskName : String
  jobId : Uuid
  idempotencyKey : String
  payload : Json
  retries : Nat := 0
  eta : Time := 0

/-- A `dlq.receive` message. -/
structure DlqMessage where
  id : Uuid
  originalJobId : Uuid
  originalTaskName : String
  payload : Json
  errorDetail : String

/-! ## Requests and responses -/

structure JobCreateRequest where
  taskName : String
  payload : Json
  idempotencyKey : String

structure JobCreateResponse where
  id : Uuid
  taskName : String
  idempotencyKey : String
  status : JobStatus
  payload : Json
  celeryTaskId : Option Uuid
  executionCount : Nat
  parentJobId : Option Uuid
  result : Option Json
  errorMessage : Option String
  createdAt : Time
  updatedAt : Time
  wasIdempotent : Bool

/-- The response of `get_job`. -/
structure JobResponse where
  id : Uuid
  taskName : String
  idempotencyKey : String
  status : JobStatus
  payload : Json
  celeryTaskId : Option Uuid
  executionCount : Nat
  parentJobId : Option Uuid
  result : Option Json
  errorMessage : Option String
  createdAt : Time
  updatedAt : Time
  estimatedNextRun : Option Time

structure JobCancelResponse where
  id : Uuid
  status : JobStatus
  message : String

/-- What an API call can raise: the three errors of `job_service.py`, the unique
violation of an INSERT, and a database or broker call that fails. -/
inductive ApiError where
  | taskNotAllowed (message : String)
  | jobNotFound (message : String)
  | jobConflict (message : String) (currentStatus : JobStatus)
  | integrityError
  | unavailable

/-- What `get_job` can raise besides: the `OverflowError` of `timedelta` and `datetime`. -/
inductive ReadError where
  | api (e : ApiError)
  | overflow

/-- What an API call can return; `create_job` returns `(response, was_created)`. -/
inductive Response where
  | created (response : JobCreateResponse) (wasCreated : Bool)
  | cancelled (response : JobCancelResponse)
  | retried (response : JobCreateResponse)

/-- The values of the `status` label of `jobs_total`. -/
inductive JobMetric where
  | success | failed | retry | dlqRetry
  deriving DecidableEq, Repr

end Aegis
