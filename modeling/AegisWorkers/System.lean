/-
# `AegisWorkers.System` — the system as one machine

API calls, deliveries and the environment interleave in any order.  An event
says who moves and what an external call answers:

    call api revoke apiFail        the API        (`AegisWorkers.JobService`)
    take work crash redeliver      the workers    (`AegisWorkers.BaseTask`)
    boot tick expire deploy        the environment
    dlqReceive updateDlqMetrics    the consumer of `dlq`, and the periodic task

`take` is Celery's revocation check: a worker that has received the revocation
of the task drops the message.  A killed worker's message goes back to the queue
(`task_acks_late`, `task_reject_on_worker_lost`), and a message that is not
acknowledged can be delivered once more while its first delivery is still
running (the broker's visibility timeout).
-/
import AegisWorkers.Machine
import AegisWorkers.JobService
import AegisWorkers.BaseTask

namespace Aegis

open BaseTask ReadCommitted

inductive Event where
  | call (c : CallId) (op : Op)
  | api (c : CallId)
  | revoke (c : CallId) (receivers : List Worker)
  | apiFail (c : CallId)
  | take (s : SlotId) (worker : Worker)
  | work (s : SlotId) (i : Input)
  | crash (s : SlotId)
  | redeliver (s : SlotId)
  | boot (worker : Worker)
  | tick (n : Nat)
  | expire (idempotencyKey : String)
  | deploy (allowedTaskNames : List String)
  | dlqReceive
  | updateDlqMetrics (ok : Bool)

namespace World

/-- The table after the UPDATE a piece of a delivery issues, with the time it takes effect;
`none` while the row is locked.  The UPDATE and its commit are one step, so no delivery holds
the row between the two. -/
def write (w : World) (jobId : Uuid) : Option Write → Option Db
  | some wr =>
      if wr.ok then w.db.update jobId (statusPatch w.clock wr.status wr.fields) else some w.db
  | none => some w.db

/-- The world after the piece `e` of the delivery in slot `s`, which left the table at `db`. -/
def apply (J : JsonCodec) (w : World) (s : SlotId) (m : Message) (worker : Worker)
    (e : Effects) (db : Db) : World :=
  { w with
    db := db
    slots := Function.update
      (match e.queue with
        | some m' => Function.update w.slots w.nextSlot (.queued m')
        | none => w.slots)
      s
      (match e.next with
        | some phase => .delivered m worker phase
        | none => .empty)
    nextSlot := if e.queue.isSome then w.nextSlot + 1 else w.nextSlot
    dlq := match e.dlq with
      | some errorDetail => w.dlq ++
          [{ id := w.uuid, originalJobId := m.jobId, originalTaskName := m.taskName,
             payload := m.payload.dictOrEmpty, errorDetail := errorDetail }]
      | none => w.dlq
    uuid := if e.dlq.isSome then w.uuid + 1 else w.uuid
    cache := match e.store with
      | some v => Function.update w.cache (cacheKey m.idempotencyKey) (some (J.dumps v))
      | none => w.cache
    jobsTotal := match e.counts with
      | some status => (w.count m.taskName status).jobsTotal
      | none => w.jobsTotal
    dlqSize := if e.dlqSizeInc then w.dlqSize + 1 else w.dlqSize
    trace := match e.write with
      | some wr => e.seen ++ .update m.jobId wr.status wr.ok :: w.trace
      | none => e.seen ++ w.trace }

/-- A piece of the delivery in slot `s` takes effect. -/
def perform (J : JsonCodec) (w : World) (s : SlotId) (m : Message) (worker : Worker)
    (e : Effects) : Option World :=
  (w.write m.jobId e.write).map (w.apply J s m worker e)

/-- A worker takes the message in slot `s`, unless it has been told to revoke it. -/
def take (w : World) (s : SlotId) (worker : Worker) : Option World :=
  match w.slots s with
  | .queued m =>
      if w.clock < m.eta then none
      else if m.id ∈ w.heard worker then some (w.setSlot s .empty)
      else some (w.setSlot s (.delivered m worker .received))
  | _ => none

/-- The delivery in slot `s` goes on. -/
def work (J : JsonCodec) (w : World) (s : SlotId) (i : Input) : Option World :=
  match w.slots s with
  | .delivered m worker phase =>
      (BaseTask.step J m worker (w.cache (cacheKey m.idempotencyKey)) w.clock phase i).bind
        (w.perform J s m worker)
  | _ => none

/-- The worker of the delivery in slot `s` is killed. -/
def crash (w : World) (s : SlotId) : Option World :=
  match w.slots s with
  | .delivered m _ _ => some (w.setSlot s (.queued m))
  | _ => none

/-- The message in slot `s`, delivered and not acknowledged, is queued once more. -/
def redeliver (w : World) (s : SlotId) : Option World :=
  match w.slots s with
  | .delivered m _ _ => some (w.enqueue m)
  | _ => none

/-- `dlq_receive` takes a message off the queue `dlq`. -/
def dlqReceive (w : World) : Option World :=
  match w.dlq with
  | _ :: rest => some { w with dlq := rest }
  | [] => none

/-- `update_dlq_metrics`: the gauge is set to LLEN, or to the sentinel when the read fails. -/
def updateDlqMetrics (w : World) (ok : Bool) : World :=
  { w with dlqSize := if ok then w.dlq.length else -1 }

end World

/-- The deployed system. -/
def system (J : JsonCodec) : Machine World Event where
  step w
    | .call c op => JobService.call w c op
    | .api c => JobService.api w c
    | .revoke c receivers => JobService.revoke w c receivers
    | .apiFail c => JobService.apiFail w c
    | .take s worker => w.take s worker
    | .work s i => w.work J s i
    | .crash s => w.crash s
    | .redeliver s => w.redeliver s
    | .boot worker => some { w with heard := Function.update w.heard worker [] }
    | .tick n => some { w with clock := w.clock + n }
    | .expire key => some { w with cache := Function.update w.cache (cacheKey key) none }
    | .deploy allowed => some { w with allowedTaskNames := allowed }
    | .dlqReceive => w.dlqReceive
    | .updateDlqMetrics ok => some (w.updateDlqMetrics ok)

/-! ## A small instance

One task, `ping`, whose result is `None`, and the schedules the concrete runs of
the later modules are put together from. -/

/-- `json` on the results of `ping`. -/
def nullCodec : JsonCodec where
  dumps _ := "null"
  loads text := if text = "null" then some .null else none
  fault _ := ⟨"Expecting value: line 1 column 1 (char 0)", "json.decoder.JSONDecodeError"⟩

def pingRequest (idempotencyKey : String) : JobCreateRequest where
  taskName := "ping"
  payload := .obj []
  idempotencyKey := idempotencyKey

/-- The world `ping` is deployed in. -/
def pingWorld : World := .init ["ping"]

/-- `create_job` in call `c`, from the request to its last external call. -/
def createEvents (c : CallId) (key : String) : List Event :=
  .call c (.createJob (pingRequest key)) :: List.replicate 5 (.api c)

/-- A worker takes the message in slot `s` and calls `execute()`. -/
def startEvents (s : SlotId) (worker : Worker) : List Event :=
  .take s worker :: List.replicate 3 (.work s .returns)

/-- `execute()` returns `None`, and the delivery is seen to its acknowledgement. -/
def finishEvents (s : SlotId) : List Event :=
  .work s (.ends (.returns .null)) :: List.replicate 4 (.work s .returns)

/-- `execute()` raises a ValidationError, and the delivery is seen to its acknowledgement. -/
def buryEvents (s : SlotId) : List Event :=
  .work s (.ends (.validationError ⟨"invalid", "Traceback"⟩)) :: List.replicate 9 (.work s .returns)

/-- `retry_dlq_job` in call `c`, from the request to its last external call. -/
def retryEvents (c : CallId) (jobId : Uuid) : List Event :=
  .call c (.retryDlqJob jobId) :: List.replicate 5 (.api c)

end Aegis
