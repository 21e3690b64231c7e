/-
# `AegisWorkers.Routes` — what a status code tells the client

The endpoints of `app/routes/jobs.py` turn what the service returns or raises into a status
code and a body; what no endpoint catches, the handler of `app/main.py` answers with a 500.
A client sees nothing else.  The contract (`Contract`) says, endpoint by endpoint and code by
code, what the client may conclude: what the call has told the board, and what it has left in
the queue, the table and the workers (its footprint).

    2xx        the operation is done, once
    400..409   nothing has happened
    500        done, half done or not done (`Unfinished`); or the key was taken meanwhile

An error leaves nothing because it is raised before the first external call that leaves
something; a 500 tells nothing because an external call can fail anywhere.
-/
import Mathlib.Data.List.Infix
import AegisWorkers.Footprint
import AegisWorkers.Guarantees

namespace Aegis

open BaseTask JobService ReadCommitted

/-! ## The endpoints -/

namespace Routes

inductive Body where
  | created (response : JobCreateResponse)
  | cancelled (response : JobCancelResponse)
  | job (response : JobResponse)
  /-- `{"detail": …}` -/
  | detail (text : String)

structure HttpResponse where
  statusCode : Nat
  body : Body

/-- `unhandled_exception_handler`. -/
def unhandled : HttpResponse := ⟨500, .detail "Internal server error"⟩

def notFound : HttpResponse := ⟨404, .detail "Job not found"⟩

/-- `POST /jobs`, given what `service.create_job` returns or raises. -/
def createJob : Except ApiError (JobCreateResponse × Bool) → HttpResponse
  | .ok (response, wasCreated) =>
      if ¬ wasCreated then ⟨200, .created response⟩ else ⟨201, .created response⟩
  | .error (.taskNotAllowed message) => ⟨400, .detail message⟩
  | .error _ => unhandled

/-- `GET /jobs/{job_id}`, given what `service.get_job` returns or raises. -/
def getJob : Except ReadError JobResponse → HttpResponse
  | .ok response => ⟨200, .job response⟩
  | .error (.api (.jobNotFound _)) => notFound
  | .error _ => unhandled

/-- `"running" in error_msg.lower()`. -/
def saysRunning (errorMsg : String) : Bool :=
  decide ("running".toList <:+: errorMsg.toLower.toList)

/-- `POST /jobs/{job_id}/cancel`, given what `service.cancel_job` returns or raises. -/
def cancelJob : Except ApiError JobCancelResponse → HttpResponse
  | .ok response => ⟨200, .cancelled response⟩
  | .error (.jobNotFound _) => notFound
  | .error (.jobConflict errorMsg currentStatus) =>
      ⟨409, .detail (if saysRunning errorMsg then "Cannot cancel a running job"
        else "Cannot cancel job with status '" ++ currentStatus.value ++ "'")⟩
  | .error _ => unhandled

/-- `POST /jobs/{job_id}/retry`, given what `service.retry_dlq_job` returns or raises. -/
def retryDlqJob : Except ApiError JobCreateResponse → HttpResponse
  | .ok response => ⟨201, .created response⟩
  | .error (.jobNotFound _) => notFound
  | .error (.jobConflict message _) => ⟨409, .detail message⟩
  | .error _ => unhandled

/-- The text of a refused cancellation, by the status that was read. -/
def cancelDetail (status : JobStatus) : String :=
  if status = .running then "Cannot cancel a running job"
  else "Cannot cancel job with status '" ++ status.value ++ "'"

/-- The search for `running` in the text of the error finds the status RUNNING, and no other. -/
theorem cancelJob_cannotCancel (status : JobStatus) :
    cancelJob (.error (cannotCancel status)) = ⟨409, .detail (cancelDetail status)⟩ := by
  have hsays : saysRunning ("Cannot cancel job in status '" ++ status.value ++
      "'. Only PENDING jobs can be cancelled.") = decide (status = .running) := by
    cases status <;> decide +kernel
  simp only [cancelJob, cannotCancel, hsays, cancelDetail, decide_eq_true_eq]

end Routes

open Routes (Body HttpResponse unhandled cancelDetail)

/-- The request of a finished call, and what its client is answered. -/
def Call.exchange? : Call → Option (Op × HttpResponse)
  | .returned op (.created response wasCreated) =>
      some (op, Routes.createJob (.ok (response, wasCreated)))
  | .returned op (.cancelled response) => some (op, Routes.cancelJob (.ok response))
  | .returned op (.retried response) => some (op, Routes.retryDlqJob (.ok response))
  | .raised (.createJob req) e => some (.createJob req, Routes.createJob (.error e))
  | .raised (.cancelJob jobId) e => some (.cancelJob jobId, Routes.cancelJob (.error e))
  | .raised (.retryDlqJob jobId) e => some (.retryDlqJob jobId, Routes.retryDlqJob (.error e))
  | _ => none

/-! ## The contract -/

/-- The message runs the entry `x` of the job `i`. -/
structure Message.Carries (m : Message) (i : Uuid) (x : Entry) : Prop where
  jobId : m.jobId = i
  taskName : m.taskName = x.taskName
  idempotencyKey : m.idempotencyKey = x.idempotencyKey
  payload : m.payload = x.payload

/-- How far a call has come that an external call has cut short: what it has told, and what
it has left. -/
inductive Unfinished (w : World) (c : CallId) : Op → List Action → List Obs → Prop
  | untouched {op : Op} {as : List Action} : UnderWay c op as → (∀ i x, .submit c i x ∉ as) →
      Unfinished w c op as []
  /-- the message is published, its row rolled back -/
  | published {op : Op} {i : Uuid} {x : Entry} {as : List Action} {m : Message} :
      Asked c op x as → m.Carries i x → Unfinished w c op as [.published c m]
  | committed {op : Op} {i : Uuid} {x : Entry} {as : List Action} {m : Message} :
      Asked c op x as → m.Carries i x →
      Unfinished w c op (as ++ [.submit c i x]) [.committed c i, .published c m]
  | revoked {jobId : Uuid} {x : Entry} {m : Message} : x.status = .pending →
      m ∈ w.publishedFor jobId →
      Unfinished w c (.cancelJob jobId) [.read c jobId x] [.revoked c m.id]

/-- What a client may conclude from an answer: what the call has told the board, and its
footprint. -/
inductive Contract (w : World) (c : CallId) :
    Op → HttpResponse → List Action → List Obs → Prop
  | created {req : JobCreateRequest} {r : JobCreateResponse} {i : Uuid} {x y : Entry}
      {m : Message} : Asked c (.createJob req) x [] → x.Later y → r.Shows i y →
      m.Carries i x →
      Contract w c (.createJob req) ⟨201, .created r⟩ [.submit c i x, .read c i y]
        [.committed c i, .published c m]
  | existing {req : JobCreateRequest} {r : JobCreateResponse} {i : Uuid} {x : Entry} :
      x.idempotencyKey = req.idempotencyKey → r.Shows i x → r.wasIdempotent = true →
      Contract w c (.createJob req) ⟨200, .created r⟩ [.read c i x] []
  | notAllowed {req : JobCreateRequest} {text : String} :
      taskNotAllowed req.taskName = .taskNotAllowed text →
      Contract w c (.createJob req) ⟨400, .detail text⟩ [.refuse c req.taskName] []
  | cancelled {jobId : Uuid} {x : Entry} {m : Message} : x.status = .pending →
      m ∈ w.publishedFor jobId →
      Contract w c (.cancelJob jobId) ⟨200, .cancelled (cancelResponse jobId)⟩
        [.read c jobId x, .cancel c jobId] [.committed c jobId, .revoked c m.id]
  | cannotCancel {jobId : Uuid} {x : Entry} : x.status ≠ .pending →
      Contract w c (.cancelJob jobId) ⟨409, .detail (cancelDetail x.status)⟩
        [.read c jobId x] []
  | retried {jobId : Uuid} {r : JobCreateResponse} {i : Uuid} {x y z : Entry} {m : Message} :
      y.status = .dlq → x.Retries jobId y → x.Later z → r.Shows i z → m.Carries i x →
      Contract w c (.retryDlqJob jobId) ⟨201, .created r⟩
        [.read c jobId y, .submit c i x, .read c i z] [.committed c i, .published c m]
  | notInDlq {jobId : Uuid} {x : Entry} {text : String} : x.status ≠ .dlq →
      notInDlq x.status = .jobConflict text x.status →
      Contract w c (.retryDlqJob jobId) ⟨409, .detail text⟩ [.read c jobId x] []
  | notFound {op : Op} {jobId : Uuid} : op = .cancelJob jobId ∨ op = .retryDlqJob jobId →
      Contract w c op Routes.notFound [.missing c jobId] []
  | taken {op : Op} {x : Entry} {as : List Action} : Asked c op x as →
      Contract w c op unhandled (as ++ [.taken c x.idempotencyKey]) []
  | unfinished {op : Op} {as : List Action} {obs : List Obs} : Unfinished w c op as obs →
      Contract w c op unhandled as obs

/-- A client error leaves nothing behind. -/
theorem Contract.refused {w : World} {c : CallId} {op : Op} {a : HttpResponse}
    {as : List Action} {obs : List Obs} (h : Contract w c op a as obs)
    (hlow : 400 ≤ a.statusCode) (hhigh : a.statusCode < 500) : obs = [] := by
  cases h with
  | created => exact absurd (show 400 ≤ 201 from hlow) (by decide)
  | cancelled => exact absurd (show 400 ≤ 200 from hlow) (by decide)
  | retried => exact absurd (show 400 ≤ 201 from hlow) (by decide)
  | unfinished => exact absurd (show 500 < 500 from hhigh) (by decide)
  | _ => rfl

/-- What a client may conclude from the answer to `GET /jobs/{job_id}`. -/
inductive Reading (i : Uuid) : Option Entry → HttpResponse → Prop
  | job {r : JobResponse} {x : Entry} : r.Shows i x → Reading i (some x) ⟨200, .job r⟩
  | notFound : Reading i none Routes.notFound
  /-- the estimate overflows -/
  | failed {x : Entry} : Reading i (some x) unhandled

theorem getJob_reading (w : World) (i : Uuid) (now : Time) :
    Reading i (w.board.entry i) (Routes.getJob (getJob w.db now i)) := by
  cases hx : w.board.entry i with
  | none =>
      have hf : w.db.find i = none := Option.map_eq_none_iff.mp hx
      simp only [getJob, hf]
      exact .notFound
  | some x =>
      rcases getJob_of_entry hx now with ⟨r, hr, hshows⟩ | hover
      · rw [hr]
        exact .job hshows
      · rw [hover]
        exact .failed

/-! ## What a call has left -/

/-- What a finished call has told and left: the footprint of an operation that is done, none
for one that was turned away. -/
def Call.Settles (w : World) (c : CallId) : Call → List Action → List Obs → Prop
  | .returned _ (.created _ false), _, obs => obs = []
  | .returned _ (.cancelled r), _, obs =>
      ∃ m ∈ w.publishedFor r.id, obs = [.committed c r.id, .revoked c m.id]
  | .returned _ _, as, obs => ∃ i x m, .submit c i x ∈ as ∧ m.Carries i x ∧
      obs = [.committed c i, .published c m]
  | .raised op .unavailable, as, obs => Unfinished w c op as obs
  | .raised _ _, _, obs => obs = []
  | _, _, _ => True

section Moves
variable {w w' : World} {c : CallId} {as : List Action} {obs : List Obs} {jobId : Uuid}

theorem Call.Settles.mono {x : Call} (h : x.Settles w c as obs)
    (hp : ∀ j, w.publishedFor j ⊆ w'.publishedFor j) : x.Settles w' c as obs := by
  cases x with
  | returned op r =>
      cases r with
      | created r wasCreated => cases wasCreated <;> exact h
      | cancelled r =>
          obtain ⟨m, hm, ho⟩ := h
          exact ⟨m, hp _ hm, ho⟩
      | retried r => exact h
  | raised op e =>
      cases e with
      | unavailable =>
          cases h with
          | untouched hu hn => exact .untouched hu hn
          | published ha hm => exact .published ha hm
          | committed ha hm => exact .committed ha hm
          | revoked hst hm => exact .revoked hst (hp _ hm)
      | _ => exact h
  | _ => trivial

/-- The message of a submission carries its entry. -/
theorem Submission.Coherent.carries {sub : Submission} (h : sub.Coherent) (t : Uuid) :
    (message sub t).Carries sub.job.id sub.job.entry where
  jobId := rfl
  taskName := h.taskName.symm
  idempotencyKey := h.idempotencyKey.symm
  payload := h.payload.symm

theorem Asked.not_submit {op : Op} {x : Entry} (h : Asked c op x as) (i : Uuid) (y : Entry) :
    .submit c i y ∉ as := by
  cases h with
  | create => exact List.not_mem_nil
  | retry =>
      intro hm
      cases List.mem_singleton.mp hm

/-- A call that an external call cuts short is unfinished. -/
theorem Call.Told.unfinished {x : Call} {op : Op} (h : x.Told c as) (hl : x.Leaves w c obs)
    (hsub : ∀ sub stage, x = .submitting sub stage → sub.Coherent) (hop : x.op? = some op) :
    Unfinished w c op as obs := by
  have hunder := h.underWay hop
  cases x with
  | createJob req pc =>
      obtain rfl := hl
      obtain rfl : as = [] := h
      exact .untouched hunder fun _ _ => List.not_mem_nil
  | cancelJob j pc =>
      obtain rfl := Option.some.inj hop
      cases pc with
      | called =>
          obtain rfl := hl
          obtain rfl : as = [] := h
          exact .untouched hunder fun _ _ => List.not_mem_nil
      | checked began job =>
          obtain rfl := hl
          obtain ⟨y, hst, rfl⟩ := h
          refine .untouched hunder ?_
          intro i x hm
          cases List.mem_singleton.mp hm
      | revoked began =>
          obtain ⟨y, hst, rfl⟩ := h
          obtain ⟨m, hm, rfl⟩ := hl
          exact .revoked hst hm
      | updated =>
          obtain ⟨y, hst, rfl⟩ := h
          obtain ⟨m, hm, rfl⟩ := hl
          exact .revoked hst hm
  | retryDlqJob j pc =>
      obtain rfl := hl
      cases pc with
      | called =>
          obtain rfl : as = [] := h
          exact .untouched hunder fun _ _ => List.not_mem_nil
      | checked began original =>
          obtain ⟨-, -, rfl⟩ := h
          refine .untouched hunder ?_
          intro i x hm
          cases List.mem_singleton.mp hm
  | submitting sub stage =>
      obtain rfl := Option.some.inj hop
      have hco := hsub sub stage rfl
      cases stage with
      | flushed =>
          obtain rfl := hl
          exact .untouched hunder (Asked.not_submit h)
      | sent t =>
          obtain rfl := hl
          exact .published h (hco.carries t)
      | committed =>
          obtain ⟨asked, hasked, rfl⟩ := h
          obtain ⟨⟨t, rfl⟩, -⟩ := hl
          exact .committed hasked (hco.carries t)
  | _ => cases hop

theorem Call.Settles.of_eq {x : Call} (hc : w'.calls c = x) (hf : w'.footprint c = obs)
    (h : x.Settles w' c as obs) : (w'.calls c).Settles w' c as (w'.footprint c) := by
  rw [hc, hf]
  exact h

/-- A unique violation of the INSERT leaves nothing. -/
theorem flush_settles {n : Nat} {sub : Submission} (hb : Builds w (w.calls c) n sub)
    (hl : (w.calls c).Leaves w c (w.footprint c)) (h : flush w c n sub = some w') :
    (w'.calls c).Settles w' c as (w'.footprint c) := by
  have hnil := hb.leaves hl
  unfold flush at h
  cases hi : w.db.insert c sub.job with
  | waits =>
      rw [hi] at h
      cases h
  | violates =>
      rw [hi] at h
      obtain rfl := Option.some.inj h
      exact .of_eq (calls_raise_self ..) hnil rfl
  | inserted db =>
      rw [hi] at h
      obtain rfl := Option.some.inj h
      exact .of_eq (calls_setCall_self ..) hnil trivial

theorem createJob_settles {req : JobCreateRequest} {pc : CreatePc}
    (hc : w.calls c = .createJob req pc) (hl : (w.calls c).Leaves w c (w.footprint c))
    (h : createJob w c req pc = some w') :
    (w'.calls c).Settles w' c as (w'.footprint c) := by
  cases pc with
  | called =>
      have hnil : w.footprint c = [] := by
        rw [hc] at hl
        exact hl
      cases hf : w.db.findKey req.idempotencyKey with
      | none =>
          simp only [createJob, hf, Option.some.injEq] at h
          subst h
          exact .of_eq (calls_setCall_self ..) hnil trivial
      | some r =>
          simp only [createJob, hf, Option.some.injEq] at h
          subst h
          exact .of_eq (calls_return_self ..) hnil rfl
  | missed began => exact flush_settles (hc ▸ .create) hl h

theorem cancelJob_settles {pc : CancelPc} (hc : w.calls c = .cancelJob jobId pc)
    (hl : (w.calls c).Leaves w c (w.footprint c)) (h : cancelJob w c jobId pc = some w') :
    (w'.calls c).Settles w' c as (w'.footprint c) := by
  rw [hc] at hl
  cases pc with
  | called =>
      cases hf : w.db.find jobId with
      | none =>
          simp only [cancelJob, hf, Option.some.injEq] at h
          subst h
          exact .of_eq (calls_raise_self ..) hl rfl
      | some job =>
          simp only [cancelJob, hf] at h
          split at h
          · obtain rfl := Option.some.inj h
            exact .of_eq (calls_raise_self ..) hl rfl
          · obtain rfl := Option.some.inj h
            exact .of_eq (calls_setCall_self ..) hl trivial
  | checked began job =>
      cases ht : job.celeryTaskId with
      | none =>
          simp only [cancelJob, ht, Option.some.injEq] at h
          subst h
          exact .of_eq (calls_setCall_self ..) hl trivial
      | some taskId => simp [cancelJob, ht] at h
  | revoked began =>
      obtain ⟨db, -, rfl⟩ := Option.map_eq_some_iff.mp h
      exact .of_eq (calls_setCall_self ..) rfl trivial
  | updated =>
      obtain rfl := Option.some.inj h
      obtain ⟨m, hm, hobs⟩ := hl
      refine .of_eq (calls_return_self ..) (footprint_own (w := w) rfl rfl) ⟨m, hm, ?_⟩
      rw [hobs]
      rfl

theorem retryDlqJob_settles {pc : RetryPc} (hc : w.calls c = .retryDlqJob jobId pc)
    (hl : (w.calls c).Leaves w c (w.footprint c)) (h : retryDlqJob w c jobId pc = some w') :
    (w'.calls c).Settles w' c as (w'.footprint c) := by
  cases pc with
  | called =>
      have hnil : w.footprint c = [] := by
        rw [hc] at hl
        exact hl
      cases hf : w.db.find jobId with
      | none =>
          simp only [retryDlqJob, hf, Option.some.injEq] at h
          subst h
          exact .of_eq (calls_raise_self ..) hnil rfl
      | some original =>
          simp only [retryDlqJob, hf] at h
          split at h
          · obtain rfl := Option.some.inj h
            exact .of_eq (calls_raise_self ..) hnil rfl
          · obtain rfl := Option.some.inj h
            exact .of_eq (calls_setCall_self ..) hnil trivial
  | checked began original => exact flush_settles (hc ▸ .retry) hl h

/-- A submission that returns has told its entry, and its message carries it. -/
theorem submit_settles {sub : Submission} {stage : Stage} {told : List Action}
    (hc : w.calls c = .submitting sub stage) (hco : sub.Coherent)
    (hl : (w.calls c).Leaves w c (w.footprint c)) (has : (w.calls c).Told c as)
    (h : submit w c sub stage = some w') :
    (w'.calls c).Settles w' c (as ++ told) (w'.footprint c) := by
  rw [hc] at hl has
  cases stage with
  | flushed =>
      obtain rfl := Option.some.inj h
      exact .of_eq (calls_setCall_self ..) rfl trivial
  | sent t =>
      obtain rfl := Option.some.inj h
      exact .of_eq (calls_setCall_self ..) rfl trivial
  | committed =>
      obtain ⟨⟨t, hobs⟩, r, hr, hid, -⟩ := hl
      obtain ⟨asked, -, rfl⟩ := has
      have hfind : w.db.find sub.job.id = some r := Store.find_eq_some.mpr ⟨hr, hid⟩
      simp only [submit, hfind, Option.some.injEq] at h
      subst h
      have hmem : .submit c sub.job.id sub.job.entry ∈
          asked ++ [.submit c sub.job.id sub.job.entry] ++ told :=
        List.mem_append_left _ (List.mem_append_right _ (List.mem_singleton_self _))
      refine .of_eq (calls_return_self ..) hobs ?_
      cases hop : sub.op with
      | cancelJob j => exact absurd hop (hco.op j)
      | createJob req => exact ⟨_, _, _, hmem, hco.carries t, rfl⟩
      | retryDlqJob j => exact ⟨_, _, _, hmem, hco.carries t, rfl⟩

/-- Whatever the API does with call `c`. -/
theorem api_settles {J : JsonCodec} {e : Event} {told : List Action} (hg : Ground w)
    (he : e.call? = some c) (has : (w.calls c).Told c as)
    (hl : (w.calls c).Leaves w c (w.footprint c)) (htold : (∃ c, e = .apiFail c) → told = [])
    (hs : (system J).step w e = some w') :
    (w'.calls c).Settles w' c (as ++ told) (w'.footprint c) := by
  have hsub : ∀ sub stage, w.calls c = .submitting sub stage → sub.Coherent :=
    hg.submissions.coherent c
  cases e with
  | call c' op =>
      obtain rfl := Option.some.inj he
      obtain ⟨hidle, rfl⟩ := call_eq_some hs
      rw [hidle] at hl
      refine .of_eq (calls_setCall_self ..) hl ?_
      cases op with
      | createJob req =>
          by_cases hmem : req.taskName ∈ w.allowedTaskNames
          · rw [enter, if_pos hmem]
            trivial
          · rw [enter, if_neg hmem]
            exact rfl
      | _ => trivial
  | api c' =>
      obtain rfl := Option.some.inj he
      change api w c' = some w' at hs
      unfold api at hs
      split at hs
      · exact createJob_settles ‹_› hl hs
      · exact cancelJob_settles ‹_› hl hs
      · exact retryDlqJob_settles ‹_› hl hs
      · rename_i hc
        exact submit_settles hc (hsub _ _ hc) hl has hs
      · cases hs
  | revoke c' receivers =>
      obtain rfl := Option.some.inj he
      obtain ⟨jobId, began, job, taskId, -, -, rfl⟩ := revoke_eq_some hs
      exact .of_eq (calls_setCall_self ..) rfl trivial
  | apiFail c' =>
      obtain rfl := Option.some.inj he
      obtain ⟨op, hop, rfl⟩ := apiFail_cases hs
      rw [htold ⟨_, rfl⟩, List.append_nil]
      refine .of_eq (calls_raise_self ..) rfl ?_
      exact has.unfinished hl hsub hop
  | _ => cases he

/-- The entry that was submitted is the one the message carries. -/
theorem Asked.submitted {op : Op} {i i' : Uuid} {x x' y : Entry} (h : Asked c op x as)
    (hm : .submit c i' x' ∈ as ++ [.submit c i x, .read c i y]) : i' = i ∧ x' = x := by
  rcases List.mem_append.mp hm with hm | hm
  · exact absurd hm (h.not_submit i' x')
  · rcases List.mem_cons.mp hm with hm | hm
    · injection hm with _ hi hx
      exact ⟨hi, hx⟩
    · cases List.mem_singleton.mp hm

/-- What a finished call has told and left is what its answer promises. -/
theorem Call.contract {x : Call} {op : Op} {a : HttpResponse} (hx : x.exchange? = some (op, a))
    (htold : x.Told c as) (hset : x.Settles w c as obs) : Contract w c op a as obs := by
  cases x with
  | returned op' r =>
      change Answer c op' r as at htold
      cases htold with
      | hit hkey hid hshows =>
          obtain ⟨rfl, rfl⟩ := Prod.mk.inj (Option.some.inj hx)
          obtain rfl := hset
          exact .existing hkey hshows hid
      | created hasked hl _ hshows =>
          obtain ⟨rfl, rfl⟩ := Prod.mk.inj (Option.some.inj hx)
          obtain ⟨i, y, m, hm, hcarries, rfl⟩ := hset
          obtain ⟨rfl, rfl⟩ := hasked.submitted hm
          cases hasked with
          | create hfresh hp hcount ht hpay hk =>
              exact .created (.create hfresh hp hcount ht hpay hk) hl hshows hcarries
      | cancelled hst =>
          obtain ⟨rfl, rfl⟩ := Prod.mk.inj (Option.some.inj hx)
          obtain ⟨m, hm, rfl⟩ := hset
          exact .cancelled hst hm
      | retried hasked hl _ hshows =>
          obtain ⟨rfl, rfl⟩ := Prod.mk.inj (Option.some.inj hx)
          obtain ⟨i, y, m, hm, hcarries, rfl⟩ := hset
          obtain ⟨rfl, rfl⟩ := hasked.submitted hm
          cases hasked with
          | retry hfresh hst hret => exact .retried hst hret hl hshows hcarries
  | raised op' e =>
      change Refusal c op' e as at htold
      cases htold with
      | notAllowed =>
          obtain ⟨rfl, rfl⟩ := Prod.mk.inj (Option.some.inj hx)
          obtain rfl := hset
          exact .notAllowed rfl
      | cancelNotFound =>
          obtain ⟨rfl, rfl⟩ := Prod.mk.inj (Option.some.inj hx)
          obtain rfl := hset
          exact .notFound (.inl rfl)
      | retryNotFound =>
          obtain ⟨rfl, rfl⟩ := Prod.mk.inj (Option.some.inj hx)
          obtain rfl := hset
          exact .notFound (.inr rfl)
      | cannotCancel hst =>
          obtain ⟨rfl, rfl⟩ := Prod.mk.inj (Option.some.inj hx)
          obtain rfl := hset
          rw [Routes.cancelJob_cannotCancel]
          exact .cannotCancel hst
      | notInDlq hst =>
          obtain ⟨rfl, rfl⟩ := Prod.mk.inj (Option.some.inj hx)
          obtain rfl := hset
          exact .notInDlq hst rfl
      | duplicate hasked =>
          obtain rfl := hset
          have ha : a = unhandled := by
            cases op' <;> exact (Prod.mk.inj (Option.some.inj hx)).2.symm
          obtain rfl : op' = op := by
            cases op' <;> exact (Prod.mk.inj (Option.some.inj hx)).1
          exact ha ▸ .taken hasked
      | failed hunder =>
          have ha : a = unhandled := by
            cases op' <;> exact (Prod.mk.inj (Option.some.inj hx)).2.symm
          obtain rfl : op' = op := by
            cases op' <;> exact (Prod.mk.inj (Option.some.inj hx)).1
          exact ha ▸ .unfinished hset
  | _ => cases hx

end Moves

/-! ## Every run -/

/-- Every finished call has told and left what it is to. -/
def Honoured (as : List Action) (w : World) : Prop :=
  ∀ c, (w.calls c).Settles w c (actionsOf c as) (w.footprint c)

theorem Honoured.step {J : JsonCodec} {allowed : List String} {as : List Action} {w w' : World}
    {e : Event} (h : Honoured as w) (hg : Ground w) (hf : Footprints w)
    (hlin : Linearized allowed as w) (hs : (system J).step w e = some w') :
    Honoured (as ++ w.tells J e) w' := by
  intro c
  have hactions : actionsOf c (as ++ w.tells J e) = actionsOf c as ++ actionsOf c (w.tells J e) :=
    List.filter_append ..
  by_cases he : e.call? = some c
  · have htold : (∃ c, e = .apiFail c) → w.tells J e = [] := by
      rintro ⟨c', rfl⟩
      rfl
    rw [hactions, actionsOf_tells_self he]
    exact api_settles hg he (hlin.told c) (hf c) htold hs
  · have hsys := step_cases hs
    have hpub : w.published ⊆ w'.published := by
      rcases hsys.api_or_offstage with ⟨c', -, ha⟩ | ⟨-, ho⟩
      · exact ha.published_subset
      · exact ho.published ▸ List.Subset.refl _
    have hfoot : w'.footprint c = w.footprint c := by
      rcases hsys.api_or_offstage with ⟨c', hc', ha⟩ | ⟨-, ho⟩
      · exact ha.footprint_ne fun hcc => he (hcc ▸ hc')
      · exact ho.footprint c
    rw [hactions, actionsOf_tells_ne he, List.append_nil, hfoot, step_calls_ne he hs]
    refine (h c).mono ?_
    intro j m hm
    obtain ⟨hm, hj⟩ := mem_publishedFor.mp hm
    exact mem_publishedFor.mpr ⟨hpub hm, hj⟩

theorem run_honoured {J : JsonCodec} {P : World → Event → Prop} {allowed : List String}
    {es : List Event} {w : World} (h : (system J).Run P (.init allowed) es w) :
    Linearized allowed ((system J).log (World.tells J) (.init allowed) es) w ∧
      Honoured ((system J).log (World.tells J) (.init allowed) es) w := by
  have hrun := h.invariant_log
    (I := fun as w => (Ground w ∧ Enqueued w ∧ Footprints w) ∧ Linearized allowed as w ∧
      Honoured as w) (World.tells J)
    (fun hi _ hs => ⟨⟨hi.1.1.step (step_cases hs), hi.1.2.1.step hi.1.1 (step_cases hs),
        hi.1.2.2.step hi.1.1 hi.1.2.1 (step_cases hs)⟩,
      hi.2.1.step hi.1.1 hs, hi.2.2.step hi.1.1 hi.1.2.2 hi.2.1 hs⟩) []
    ⟨⟨ground_init allowed, enqueued_init allowed, footprints_init allowed⟩,
      linearized_init allowed, fun _ => trivial⟩
  exact hrun.2

/-- The contract of the API: in every run every finished call has told the board, and left in
the table, the queue and the workers, exactly what its status code promises; a call that is
answered with a client error has changed nothing at any of its moves; and a `GET` is answered
from the board of the moment. -/
theorem contract_kept {J : JsonCodec} {allowed : List String} {es : List Event} {w : World}
    {c : CallId} {op : Op} {a : HttpResponse}
    (h : (system J).Run (fun _ _ => True) (.init allowed) es w)
    (hc : (w.calls c).exchange? = some (op, a)) :
    Contract w c op a (actionsOf c ((system J).log (World.tells J) (.init allowed) es))
      (w.footprint c) ∧
    (400 ≤ a.statusCode → a.statusCode < 500 →
      (system J).Along (Silent J c) (.init allowed) es) ∧
    ∀ i now, Reading i (w.board.entry i) (Routes.getJob (getJob w.db now i)) := by
  obtain ⟨hlin, hset⟩ := run_honoured h
  have hkept := Call.contract hc (hlin.told c) (hset c)
  refine ⟨hkept, ?_, getJob_reading w⟩
  intro hlow hhigh
  exact along_silent h (hkept.refused hlow hhigh)

/-- The cancellation of a running job. -/
theorem contract_kept_ping : ∃ w, (system nullCodec).exec pingWorld
      (createEvents 0 "k" ++ startEvents 0 "v" ++ [.call 1 (.cancelJob 0), .api 1]) = some w ∧
    (w.calls 1).exchange? =
      some (.cancelJob 0, ⟨409, .detail "Cannot cancel a running job"⟩) ∧
    (system nullCodec).Along (Silent nullCodec 1) pingWorld
      (createEvents 0 "k" ++ startEvents 0 "v" ++ [.call 1 (.cancelJob 0), .api 1]) := by
  obtain ⟨w, hw, hrun, hcall⟩ := Machine.exists_run_obs (system nullCodec) (fun _ _ => True)
    pingWorld (createEvents 0 "k" ++ startEvents 0 "v" ++ [.call 1 (.cancelJob 0), .api 1])
    (fun w => w.calls 1) (.raised (.cancelJob 0) (cannotCancel .running)) rfl (by decide)
  have hc : (w.calls 1).exchange? =
      some (.cancelJob 0, ⟨409, .detail "Cannot cancel a running job"⟩) := by
    rw [hcall, Call.exchange?, Routes.cancelJob_cannotCancel]
    rfl
  exact ⟨w, hw, hc, (contract_kept hrun hc).2.1 (by decide) (by decide)⟩

end Aegis
