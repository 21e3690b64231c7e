/-
# `AegisWorkers.World` — the state of the deployed system

One database, one broker with its two queues, the idempotency cache, the API
calls in flight and the deliveries in flight.

A message of the default queue sits in a *slot*.  A slot is queued (which
includes waiting for a countdown), or delivered to a worker and not yet
acknowledged, and then it remembers how far the worker has come (`Phase`); an
acknowledged message leaves its slot empty.  Slots are never reused, so a slot
names one delivery chain of one copy of a message.

An API call remembers the last external call that returned and the local
variables that are still read (`Call`).  `create_job` and `retry_dlq_job` end in
the same way, so they share their states from the flush on (`Submission`).

`trace` lists what an observer of the system has seen, the latest first.
-/
import AegisWorkers.Job
import Mathlib.Logic.Function.Basic

namespace Aegis

/-! ## Deliveries -/

/-- What `on_failure` does next: its three external calls, and the counting after them. -/
inductive FailureStage where
  | send | failed | dlq | count
  deriving DecidableEq, Repr

/-- How far a worker has come with a delivery. -/
inductive Phase where
  /-- taken from the queue; `before_start` has not run -/
  | received
  /-- `before_start` has returned -/
  | started
  /-- `_check_idempotency` has returned `(False, None)` -/
  | missed
  /-- `execute()` is running -/
  | executing
  /-- `run()` has returned `v` -/
  | returned (v : Json)
  /-- `on_success` has issued its UPDATE -/
  | completed (v : Json)
  /-- `on_success` has counted the success; nothing is stored under the key -/
  | counted (v : Json)
  /-- inside `on_failure`; `again`: `run()` made the call, Celery will make it once more -/
  | failing (exc : Exc) (again : Bool) (stage : FailureStage)
  /-- `retry()` has been called; its message is not published.  `again`: `run()` made the call,
  and the autoretry wrapper will make it once more if the publish fails -/
  | retrying (countdown : Nat) (again : Bool)
  /-- the retry message is published -/
  | retried
  /-- all hooks have returned; the message is not acknowledged -/
  | handled

abbrev SlotId := Nat

inductive Slot where
  | empty
  | queued (m : Message)
  | delivered (m : Message) (worker : Worker) (phase : Phase)

/-! ## API calls -/

inductive Op where
  | createJob (req : JobCreateRequest)
  | cancelJob (jobId : Uuid)
  | retryDlqJob (jobId : Uuid)

/-- A new job on its way to the table and to the queue: the row, and what
`send_task` is called with.  `began` is the start of the session's transaction,
the value of `now()` in it. -/
structure Submission where
  op : Op
  began : Time
  job : Job
  taskName : String
  idempotencyKey : String
  payload : Json

/-- The last external call of a submission that returned. -/
inductive Stage where
  | flushed
  | sent (celeryTaskId : Uuid)
  | committed

inductive CreatePc where
  | called
  | missed (began : Time)

inductive CancelPc where
  | called
  | checked (began : Time) (job : Job)
  | revoked (began : Time)
  | updated

inductive RetryPc where
  | called
  | checked (began : Time) (original : Job)

inductive Call where
  | idle
  | createJob (req : JobCreateRequest) (pc : CreatePc)
  | cancelJob (jobId : Uuid) (pc : CancelPc)
  | retryDlqJob (jobId : Uuid) (pc : RetryPc)
  /-- `create_job` and `retry_dlq_job` from the flush on -/
  | submitting (sub : Submission) (stage : Stage)
  | returned (op : Op) (r : Response)
  | raised (op : Op) (e : ApiError)

/-! ## What is observed -/

inductive Obs where
  /-- `send_task` of call `c` returned -/
  | published (c : CallId) (m : Message)
  /-- call `c` broadcast the revocation of a task -/
  | revoked (c : CallId) (celeryTaskId : Uuid)
  /-- call `c` committed a row -/
  | committed (c : CallId) (jobId : Uuid)
  /-- `before_start` was called -/
  | beforeStart (jobId : Uuid)
  /-- `_update_job_status` was called; `ok`: its UPDATE did not fail -/
  | update (jobId : Uuid) (status : JobStatus) (ok : Bool)
  | executeCalled (m : Message)
  | executeReturned (m : Message) (v : Json)
  /-- a retry message was published -/
  | retryPublished (m : Message)

/-! ## The world -/

structure World where
  db : Db
  slots : SlotId → Slot
  nextSlot : SlotId
  /-- the queue `dlq` -/
  dlq : List DlqMessage
  /-- the Redis keys `idempotency:…` -/
  cache : String → Option String
  /-- the revocations each worker process has received since it started -/
  heard : Worker → List Uuid
  calls : CallId → Call
  /-- the counter `jobs_total`, by task name and status -/
  jobsTotal : String → JobMetric → Nat
  /-- the gauge `dlq_size` -/
  dlqSize : Int
  /-- `Settings.allowed_task_names` -/
  allowedTaskNames : List String
  /-- the next generated UUID -/
  uuid : Uuid
  clock : Time
  trace : List Obs

namespace World

/-- Nothing stored, nothing queued, nobody calling. -/
def init (allowed : List String) : World where
  db := .empty
  slots := fun _ => .empty
  nextSlot := 0
  dlq := []
  cache := fun _ => none
  heard := fun _ => []
  calls := fun _ => .idle
  jobsTotal := fun _ _ => 0
  dlqSize := 0
  allowedTaskNames := allowed
  uuid := 0
  clock := 0
  trace := []

def setCall (w : World) (c : CallId) (x : Call) : World :=
  { w with calls := Function.update w.calls c x }

def setSlot (w : World) (s : SlotId) (x : Slot) : World :=
  { w with slots := Function.update w.slots s x }

/-- A message enters the default queue, in a slot of its own. -/
def enqueue (w : World) (m : Message) : World :=
  { w with slots := Function.update w.slots w.nextSlot (.queued m), nextSlot := w.nextSlot + 1 }

def observe (w : World) (o : Obs) : World :=
  { w with trace := o :: w.trace }

/-- `jobs_total.labels(task_name, status).inc()`. -/
def count (w : World) (taskName : String) (status : JobMetric) : World :=
  { w with
    jobsTotal := Function.update w.jobsTotal taskName
      (Function.update (w.jobsTotal taskName) status (w.jobsTotal taskName status + 1)) }

end World

/-! ### What a call sees of its own move -/

section Calls
variable (w : World) (c : CallId) (x : Call) (o : Obs)

@[simp] theorem calls_setCall_self : (w.setCall c x).calls c = x := Function.update_self ..

@[simp] theorem calls_setCall_ne {c' : CallId} (h : c' ≠ c) :
    (w.setCall c x).calls c' = w.calls c' := Function.update_of_ne h ..

@[simp] theorem db_setCall : (w.setCall c x).db = w.db := rfl

@[simp] theorem slots_setCall : (w.setCall c x).slots = w.slots := rfl

@[simp] theorem nextSlot_setCall : (w.setCall c x).nextSlot = w.nextSlot := rfl

@[simp] theorem heard_setCall : (w.setCall c x).heard = w.heard := rfl

@[simp] theorem uuid_setCall : (w.setCall c x).uuid = w.uuid := rfl

@[simp] theorem cache_setCall : (w.setCall c x).cache = w.cache := rfl

@[simp] theorem trace_setCall : (w.setCall c x).trace = w.trace := rfl

@[simp] theorem calls_observe : (w.observe o).calls = w.calls := rfl

@[simp] theorem db_observe : (w.observe o).db = w.db := rfl

@[simp] theorem slots_observe : (w.observe o).slots = w.slots := rfl

@[simp] theorem nextSlot_observe : (w.observe o).nextSlot = w.nextSlot := rfl

@[simp] theorem heard_observe : (w.observe o).heard = w.heard := rfl

@[simp] theorem uuid_observe : (w.observe o).uuid = w.uuid := rfl

@[simp] theorem cache_observe : (w.observe o).cache = w.cache := rfl

@[simp] theorem trace_observe : (w.observe o).trace = o :: w.trace := rfl

end Calls

end Aegis
