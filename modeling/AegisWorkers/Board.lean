/-
# `AegisWorkers.Board` — what the job system is for, as one sequential object

The board is what an operator would keep on paper: for each job the request it stands
for, the job it retries, and how far it has come.  No two jobs have one idempotency key,
by a field of the type.  Everything that happens to the board is one of a few actions,
each at one moment:

    submit     a new job is put up: a request's, or a retry of a job that is there
    read       a call looks a job up and finds it
    missing    a call looks a job up and does not find it
    taken      a call finds the key of its new job in use
    refuse     a call is turned away by the whitelist
    cancel     a call sets a job to CANCELLED
    report     a worker says how far it has come with a job
    deploy     the whitelist changes

The board knows nothing of transactions, queues, deliveries or failures.  `Board.Later`
is what every action keeps to, and hence every sequence of them.
-/
import AegisWorkers.Refinement
import AegisWorkers.World

namespace Aegis

/-- The columns of a job that the answers to clients are made of, apart from its id, its
`celery_task_id` and the times. -/
structure Entry where
  taskName : String
  payload : Json
  idempotencyKey : String
  parentJobId : Option Uuid
  retryCount : Nat
  status : JobStatus
  executionCount : Nat
  result : Option Json
  errorDetail : Option String

/-- What a worker says of a job. -/
inductive Report where
  | started
  | completed (v : Json)
  | failed (errorDetail : Option String)
  | buried

/-- An entry after a report. -/
def Report.on : Report → Entry → Entry
  | .started, x => { x with status := .running, executionCount := x.executionCount + 1 }
  | .completed .null, x => { x with status := .completed }
  | .completed v, x => { x with status := .completed, result := some v }
  | .failed detail, x => { x with status := .failed, errorDetail := detail.or x.errorDetail }
  | .buried, x => { x with status := .dlq }

/-- The entry of a new job: waiting, and never tried. -/
structure Entry.Fresh (x : Entry) : Prop where
  status : x.status = .pending
  executionCount : x.executionCount = 0
  result : x.result = none
  errorDetail : x.errorDetail = none

/-- `x` is the entry of a job that retries the job `i`, whose entry is `y`. -/
structure Entry.Retries (x : Entry) (i : Uuid) (y : Entry) : Prop where
  parentJobId : x.parentJobId = some i
  retryCount : x.retryCount = y.retryCount + 1
  taskName : x.taskName = y.taskName
  payload : x.payload = y.payload

/-- The entry says the same request, and has come no less far. -/
structure Entry.Later (x y : Entry) : Prop where
  taskName : y.taskName = x.taskName
  payload : y.payload = x.payload
  idempotencyKey : y.idempotencyKey = x.idempotencyKey
  parentJobId : y.parentJobId = x.parentJobId
  retryCount : y.retryCount = x.retryCount
  executionCount : x.executionCount ≤ y.executionCount
  result : x.result ≠ none → y.result ≠ none
  errorDetail : x.errorDetail ≠ none → y.errorDetail ≠ none

theorem Entry.Later.refl (x : Entry) : x.Later x := ⟨rfl, rfl, rfl, rfl, rfl, Nat.le_refl _, id, id⟩

theorem Entry.Later.trans {x y z : Entry} (h : x.Later y) (h' : y.Later z) : x.Later z where
  taskName := h'.taskName.trans h.taskName
  payload := h'.payload.trans h.payload
  idempotencyKey := h'.idempotencyKey.trans h.idempotencyKey
  parentJobId := h'.parentJobId.trans h.parentJobId
  retryCount := h'.retryCount.trans h.retryCount
  executionCount := Nat.le_trans h.executionCount h'.executionCount
  result hx := h'.result (h.result hx)
  errorDetail hx := h'.errorDetail (h.errorDetail hx)

theorem Report.later (r : Report) (x : Entry) : x.Later (r.on x) := by
  have hx := Entry.Later.refl x
  cases r with
  | started => exact { hx with executionCount := Nat.le_succ _ }
  | completed v =>
      cases v with
      | null => exact { hx with }
      | _ => exact { hx with result := fun _ => Option.some_ne_none _ }
  | failed detail =>
      refine { hx with errorDetail := ?_ }
      intro hne
      cases detail with
      | none => exact hne
      | some text => exact Option.some_ne_none _
  | buried => exact { hx with }

/-- A retry of an entry retries its later versions as well. -/
theorem Entry.Retries.later {x y z : Entry} {i : Uuid} (h : x.Retries i y) (hl : y.Later z) :
    x.Retries i z :=
  ⟨h.parentJobId, by rw [h.retryCount, hl.retryCount], h.taskName.trans hl.taskName.symm,
    h.payload.trans hl.payload.symm⟩

/-- The jobs, and the task names a request may have. -/
@[ext] structure Board where
  entry : Uuid → Option Entry
  allowedTaskNames : List String
  distinct : ∀ i j x y, entry i = some x → entry j = some y →
    x.idempotencyKey = y.idempotencyKey → i = j

inductive Action where
  | submit (c : CallId) (id : Uuid) (x : Entry)
  | read (c : CallId) (id : Uuid) (x : Entry)
  | missing (c : CallId) (id : Uuid)
  | taken (c : CallId) (idempotencyKey : String)
  | refuse (c : CallId) (taskName : String)
  | cancel (c : CallId) (id : Uuid)
  | report (id : Uuid) (r : Report)
  | deploy (allowedTaskNames : List String)

/-- The call that takes the action. -/
def Action.call? : Action → Option CallId
  | .submit c _ _ | .read c _ _ | .missing c _ | .taken c _ | .refuse c _ | .cancel c _ => some c
  | .report _ _ | .deploy _ => none

/-- The job the action sees at an entry, or puts there. -/
def Action.at? : Action → Option (Uuid × Entry)
  | .submit _ i x | .read _ i x => some (i, x)
  | _ => none

namespace Board

def empty (allowed : List String) : Board where
  entry _ := none
  allowedTaskNames := allowed
  distinct _ _ _ _ h := nomatch h

variable {b b' : Board} {i : Uuid} {x y : Entry} {a : Action}

/-- No job but `i` has the key of `x`. -/
def Admits (b : Board) (i : Uuid) (x : Entry) : Prop :=
  ∀ j y, b.entry j = some y → y.idempotencyKey = x.idempotencyKey → j = i

/-- The entry of job `i` becomes `x`. -/
def put (b : Board) (i : Uuid) (x : Entry) (h : b.Admits i x) : Board where
  entry := Function.update b.entry i (some x)
  allowedTaskNames := b.allowedTaskNames
  distinct := by
    intro j k y z hj hk hkey
    by_cases hji : j = i
    · subst hji
      rw [Function.update_self, Option.some.injEq] at hj
      subst hj
      by_cases hki : k = j
      · exact hki.symm
      · rw [Function.update_of_ne hki] at hk
        exact (h k z hk hkey.symm).symm
    · rw [Function.update_of_ne hji] at hj
      by_cases hki : k = i
      · subst hki
        rw [Function.update_self, Option.some.injEq] at hk
        subst hk
        exact h j y hj hkey
      · rw [Function.update_of_ne hki] at hk
        exact b.distinct j k y z hj hk hkey

@[simp] theorem entry_put_self (h : b.Admits i x) : (b.put i x h).entry i = some x :=
  Function.update_self ..

@[simp] theorem entry_put_ne (h : b.Admits i x) {j : Uuid} (hj : j ≠ i) :
    (b.put i x h).entry j = b.entry j := Function.update_of_ne hj ..

/-- An entry can be rewritten under its key. -/
theorem admits_of_entry (hy : b.entry i = some y) (hk : x.idempotencyKey = y.idempotencyKey) :
    b.Admits i x :=
  fun j z hz hzk => b.distinct j i z y hz hy (hzk.trans hk)

/-- What an action does to the board, and when it can be taken. -/
inductive Next (b : Board) : Action → Board → Prop
  /-- the id and the key are new; a retry copies the job it retries -/
  | submit {c : CallId} {i : Uuid} {x : Entry} (h : b.Admits i x) : b.entry i = none → x.Fresh →
      (x.parentJobId = none ∧ x.retryCount = 0 ∨
        ∃ k y, b.entry k = some y ∧ x.Retries k y) →
      Next b (.submit c i x) (b.put i x h)
  | read {c : CallId} {i : Uuid} {x : Entry} : b.entry i = some x → Next b (.read c i x) b
  | missing {c : CallId} {i : Uuid} : b.entry i = none → Next b (.missing c i) b
  | taken {c : CallId} {i : Uuid} {x : Entry} : b.entry i = some x →
      Next b (.taken c x.idempotencyKey) b
  | refuse {c : CallId} {taskName : String} : taskName ∉ b.allowedTaskNames →
      Next b (.refuse c taskName) b
  | cancel {c : CallId} {i : Uuid} {x : Entry} (h : b.Admits i { x with status := .cancelled }) :
      b.entry i = some x → Next b (.cancel c i) (b.put i { x with status := .cancelled } h)
  | report {i : Uuid} {x : Entry} {r : Report} (h : b.Admits i (r.on x)) : b.entry i = some x →
      Next b (.report i r) (b.put i (r.on x) h)
  /-- a report on a job that is not there changes nothing -/
  | lost {i : Uuid} {r : Report} : b.entry i = none → Next b (.report i r) b
  | deploy {allowed : List String} :
      Next b (.deploy allowed) { b with allowedTaskNames := allowed }

/-- Jobs stay, say the same request, and come no less far. -/
def Later (b b' : Board) : Prop := ∀ i x, b.entry i = some x → ∃ y, b'.entry i = some y ∧ x.Later y

theorem Later.refl (b : Board) : b.Later b := fun _ x hx => ⟨x, hx, .refl x⟩

theorem Later.trans {b b' b'' : Board} (h : b.Later b') (h' : b'.Later b'') : b.Later b'' := by
  intro i x hx
  obtain ⟨y, hy, hxy⟩ := h i x hx
  obtain ⟨z, hz, hyz⟩ := h' i y hy
  exact ⟨z, hz, hxy.trans hyz⟩

/-- A job rewritten under its own request. -/
theorem Later.put {h : b.Admits i x} (hx : ∀ y, b.entry i = some y → y.Later x) :
    b.Later (b.put i x h) := by
  intro j y hy
  by_cases hj : j = i
  · subst hj
    exact ⟨x, entry_put_self h, hx y hy⟩
  · exact ⟨y, (entry_put_ne h hj).trans hy, .refl y⟩

theorem Next.later (h : b.Next a b') : b.Later b' := by
  cases h with
  | submit _ hnone _ _ =>
      refine .put ?_
      intro y hy
      rw [hnone] at hy
      cases hy
  | @cancel c i x _ hx =>
      refine .put ?_
      intro y hy
      obtain rfl := Option.some.inj (hx.symm.trans hy)
      exact { Entry.Later.refl x with }
  | @report i x r _ hx =>
      refine .put ?_
      intro y hy
      obtain rfl := Option.some.inj (hx.symm.trans hy)
      exact r.later x
  | deploy => exact fun _ x hx => ⟨x, hx, .refl x⟩
  | _ => exact .refl b

theorem later_of_trail {as : List Action} (h : Trail Next b as b') : b.Later b' :=
  h.rel .refl Later.trans Next.later

/-- What has been seen or put up is there afterwards, in a later version. -/
theorem at_later {as : List Action} (h : Trail Next b as b') (ha : a ∈ as)
    (hx : a.at? = some (i, x)) : ∃ y, b'.entry i = some y ∧ x.Later y := by
  obtain ⟨_, _, s, t, -, -, hn, hrest⟩ := h.at_mem ha
  refine later_of_trail hrest i x ?_
  cases hn with
  | submit _ _ _ _ =>
      obtain ⟨rfl, rfl⟩ := Prod.mk.inj (Option.some.inj hx)
      exact entry_put_self _
  | read hy =>
      obtain ⟨rfl, rfl⟩ := Prod.mk.inj (Option.some.inj hx)
      exact hy
  | _ => cases hx

end Board

end Aegis
