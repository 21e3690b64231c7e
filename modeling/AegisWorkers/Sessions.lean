/-
# `AegisWorkers.Sessions` — calls, their transactions, and the rows

What every run keeps, whatever fails and whoever moves:

  * `Sessions`: a call's transaction holds exactly the row the call has flushed,
    or the update it has issued, and nothing once the call is over;
  * `Submissions`: the row a call is submitting has an id no other call has, and
    its message will carry the row's own task name, key and payload;
  * `Bounded`: slots that were never used are empty.

`Origin` relates two versions of a row: no UPDATE of the code touches the columns
a row was inserted with, apart from `celery_task_id` in the inserting transaction.
-/
import AegisWorkers.Steps

namespace Aegis

open BaseTask JobService ReadCommitted

/-! ## The columns no UPDATE touches -/

/-- `r'` is a later version of the row `r`. -/
structure Job.Origin (r r' : Job) : Prop where
  id : r'.id = r.id
  taskName : r'.taskName = r.taskName
  celeryTaskId : r'.celeryTaskId = r.celeryTaskId
  payload : r'.payload = r.payload
  idempotencyKey : r'.idempotencyKey = r.idempotencyKey
  retryCount : r'.retryCount = r.retryCount
  parentJobId : r'.parentJobId = r.parentJobId
  createdAt : r'.createdAt = r.createdAt

theorem Job.Origin.refl (r : Job) : r.Origin r := ⟨rfl, rfl, rfl, rfl, rfl, rfl, rfl, rfl⟩

theorem Job.Origin.trans {r r' r'' : Job} (h : r.Origin r') (h' : r'.Origin r'') : r.Origin r'' :=
  ⟨h'.id.trans h.id, h'.taskName.trans h.taskName, h'.celeryTaskId.trans h.celeryTaskId,
    h'.payload.trans h.payload, h'.idempotencyKey.trans h.idempotencyKey,
    h'.retryCount.trans h.retryCount, h'.parentJobId.trans h.parentJobId,
    h'.createdAt.trans h.createdAt⟩

/-- An UPDATE that leaves the inserted columns alone. -/
def KeepsOrigin (p : JobPatch) : Prop := ∀ r : Job, r.Origin (p.apply r)

theorem keepsOrigin_status (now : Time) (status : JobStatus) (u : StatusUpdate) :
    KeepsOrigin (statusPatch now status u) :=
  fun _ => ⟨rfl, rfl, rfl, rfl, rfl, rfl, rfl, rfl⟩

theorem keepsOrigin_cancel (began : Time) : KeepsOrigin (cancelPatch began) :=
  fun _ => ⟨rfl, rfl, rfl, rfl, rfl, rfl, rfl, rfl⟩

theorem KeepsOrigin.applyAt {p : JobPatch} (hp : KeepsOrigin p) (i : Uuid) (r : Job) :
    r.Origin (p.applyAt i r) := by
  by_cases h : r.id = i
  · rw [p.applyAt_of_eq h]; exact hp r
  · rw [p.applyAt_of_ne h]; exact .refl r

/-! ## What a piece of a delivery writes and shows -/

/-- The table after a status update: unchanged, or patched while nobody held the row. -/
theorem write_cases {w : World} {jobId : Uuid} {wr? : Option Write} {db : Db}
    (h : w.write jobId wr? = some db) :
    (db = w.db ∧ ∀ wr, wr? = some wr → wr.ok = false) ∨
      ∃ wr, wr? = some wr ∧ wr.ok = true ∧ (∀ l ∈ w.db.locks, l.2.1 ≠ jobId) ∧
        db = w.db.patch jobId (statusPatch w.clock wr.status wr.fields) := by
  cases wr? with
  | none => exact .inl ⟨(Option.some.inj h).symm, fun _ hw => nomatch hw⟩
  | some wr =>
      simp only [World.write] at h
      split at h
      · rename_i hok
        obtain ⟨hdb, hl⟩ := Store.update_eq_some h
        exact .inr ⟨wr, rfl, hok, hl, hdb⟩
      · rename_i hok
        refine .inl ⟨(Option.some.inj h).symm, ?_⟩
        intro wr' hw
        rw [← Option.some.inj hw]
        simpa using hok

/-- The observations only an API call makes. -/
def Obs.OfApi : Obs → Prop
  | .published _ _ | .revoked _ _ | .committed _ _ => True
  | _ => False

theorem Piece.seen_not_ofApi {J : JsonCodec} {m : Message} {worker : Worker}
    {cached : Option String} {now : Time} {phase : Phase} {i : Input} {e : Effects}
    (h : Piece J m worker cached now phase i e) : ∀ o ∈ e.seen, ¬ o.OfApi := by
  cases h with
  | failure exc again stage => cases stage <;> simp [onFailure]
  | failureFails exc exc' again stage => cases stage <;> simp [onFailure]
  | _ => simp [beforeStart, autoretry, onSuccess, countSuccess, storeIdempotencyResult,
      BaseTask.retry, BaseTask.onRetry, Obs.OfApi]

/-! ## Events that are not the API's -/

/-- What the calls and their transactions see of the rest of the system. -/
structure Offstage (w w' : World) : Prop where
  calls : w'.calls = w.calls
  inserts : ∀ c, w'.db.inserts c = w.db.inserts c
  updates : ∀ c, w'.db.updates c = w.db.updates c
  uuid : w.uuid ≤ w'.uuid
  rows : ∃ i p, KeepsOrigin p ∧ w'.db.rows = w.db.rows.map (p.applyAt i)
  trace : ∃ new, w'.trace = new ++ w.trace ∧ ∀ o ∈ new, ¬ o.OfApi

/-- A patch that changes nothing. -/
def JobPatch.none : JobPatch where
  apply r := r
  pk_apply _ := rfl
  uk_apply _ := rfl

theorem keepsOrigin_none : KeepsOrigin JobPatch.none := fun r => .refl r

theorem Offstage.of_eq {w w' : World} (hc : w'.calls = w.calls) (hd : w'.db = w.db)
    (hu : w'.uuid = w.uuid) (ht : w'.trace = w.trace) : Offstage w w' where
  calls := hc
  inserts c := by rw [hd]
  updates c := by rw [hd]
  uuid := Nat.le_of_eq hu.symm
  rows := ⟨0, .none, keepsOrigin_none, by
    rw [hd]
    refine (List.map_id'' ?_ _).symm
    intro r
    unfold Patch.applyAt
    split <;> rfl⟩
  trace := ⟨[], by simpa using ht, by simp⟩

theorem Offstage.of_work {J : JsonCodec} {w : World} {s : SlotId} {m : Message}
    {worker : Worker} {cached : Option String} {phase : Phase} {i : Input} {e : Effects} {db : Db}
    (hp : Piece J m worker cached w.clock phase i e) (hdb : w.write m.jobId e.write = some db) :
    Offstage w (w.apply J s m worker e db) := by
  have huuid : w.uuid ≤ (w.apply J s m worker e db).uuid := by
    simp only [World.apply]; split
    · exact Nat.le_succ _
    · exact Nat.le_refl _
  have htrace : ∃ new, (w.apply J s m worker e db).trace = new ++ w.trace ∧
      ∀ o ∈ new, ¬ o.OfApi := by
    cases hw : e.write with
    | none => exact ⟨e.seen, by simp [World.apply, hw], hp.seen_not_ofApi⟩
    | some wr =>
        refine ⟨e.seen ++ [.update m.jobId wr.status wr.ok], by simp [World.apply, hw], ?_⟩
        intro o ho
        rcases List.mem_append.mp ho with ho | ho
        · exact hp.seen_not_ofApi o ho
        · rw [List.mem_singleton.mp ho]; exact id
  rcases write_cases hdb with ⟨rfl, -⟩ | ⟨wr, -, -, -, rfl⟩
  · have h := @Offstage.of_eq w w rfl rfl rfl rfl
    exact ⟨rfl, fun _ => rfl, fun _ => rfl, huuid, h.rows, htrace⟩
  · exact ⟨rfl, fun _ => rfl, fun _ => rfl, huuid,
      ⟨m.jobId, _, keepsOrigin_status _ _ _, rfl⟩, htrace⟩

theorem SysStep.offstage {J : JsonCodec} {w w' : World} {e : Event} (h : SysStep J w e w')
    (hc : e.call? = none) : Offstage w w' := by
  cases h with
  | api hc' _ => rw [hc] at hc'; cases hc'
  | drop _ _ => exact .of_eq rfl rfl rfl rfl
  | take _ _ _ => exact .of_eq rfl rfl rfl rfl
  | work _ hp hdb => exact .of_work hp hdb
  | crash _ => exact .of_eq rfl rfl rfl rfl
  | redeliver _ => exact .of_eq rfl rfl rfl rfl
  | env _ he => exact .of_eq he.calls he.db he.uuid he.trace

/-- A step is a move of one call, or no call sees it. -/
theorem SysStep.api_or_offstage {J : JsonCodec} {w w' : World} {e : Event}
    (h : SysStep J w e w') :
    (∃ c, e.call? = some c ∧ ApiStep w c w') ∨ (e.call? = none ∧ Offstage w w') := by
  cases hc : e.call? with
  | none => exact .inr ⟨rfl, h.offstage hc⟩
  | some c =>
      cases h with
      | api hc' ha =>
          obtain rfl := Option.some.inj (hc.symm.trans hc')
          exact .inl ⟨c, rfl, ha⟩
      | env hn _ => rw [Event.call?_of_ambient hn] at hc; cases hc
      | _ => cases hc

/-! ## A call and its transaction -/

/-- What the transaction of a call holds. -/
def Call.Session : Call → List Job → List (Uuid × JobPatch) → Prop
  | .submitting sub .flushed, ins, upd => ins = [sub.job] ∧ upd = []
  | .submitting sub (.sent _), ins, upd => ins = [sub.job] ∧ upd = []
  | .cancelJob jobId .updated, ins, upd => ins = [] ∧ ∃ began, upd = [(jobId, cancelPatch began)]
  | _, ins, upd => ins = [] ∧ upd = []

/-- Every call's transaction holds what the call has written. -/
def Sessions (w : World) : Prop :=
  ∀ c, (w.calls c).Session (w.db.inserts c) (w.db.updates c)

theorem Entered.session {op : Op} {x : Call} (h : Entered op x) : x.Session [] [] := by
  cases h <;> exact ⟨rfl, rfl⟩

theorem Local.session {w : World} {x y : Call} {ins : List Job} {upd : List (Uuid × JobPatch)}
    (h : Local w x y) (hs : x.Session ins upd) : y.Session ins upd := by
  cases h <;> exact hs

theorem Builds.session {w : World} {x : Call} {n : Nat} {sub : Submission} {ins : List Job}
    {upd : List (Uuid × JobPatch)} (h : Builds w x n sub) (hs : x.Session ins upd) :
    ins = [] ∧ upd = [] := by
  cases h <;> exact hs

section ApiStep
variable {w w' : World} {c : CallId}

/-- A call moves itself only. -/
theorem ApiStep.calls_ne (h : ApiStep w c w') {c' : CallId} (hc : c' ≠ c) :
    w'.calls c' = w.calls c' := by
  cases h <;> simp [hc]

/-- A call moves its own transaction only. -/
theorem ApiStep.session_ne (h : ApiStep w c w') {c' : CallId} (hc : c' ≠ c) :
    w'.db.inserts c' = w.db.inserts c' ∧ w'.db.updates c' = w.db.updates c' := by
  cases h with
  | enter op _ => exact ⟨rfl, rfl⟩
  | move _ => exact ⟨rfl, rfl⟩
  | raise _ _ =>
      exact ⟨(Store.inserts_rollback ..).trans (if_neg hc),
        (Store.updates_rollback ..).trans (if_neg hc)⟩
  | violate _ _ =>
      exact ⟨(Store.inserts_rollback ..).trans (if_neg hc),
        (Store.updates_rollback ..).trans (if_neg hc)⟩
  | flush _ hi =>
      obtain ⟨-, hl, hp, -⟩ := Store.insert_eq_inserted hi
      exact ⟨(Store.inserts_cons hp c').trans (if_neg hc), by
        simp only [db_setCall, Store.updates, hl]⟩
  | send _ => exact ⟨rfl, rfl⟩
  | land _ =>
      simp only [db_setCall, db_countSubmission, db_observe]
      refine ⟨(Store.inserts_commit ..).trans ?_, (Store.updates_commit ..).trans ?_⟩
      · rw [if_neg hc, Store.inserts_amend, if_neg hc]
      · rw [if_neg hc, Store.updates_amend]
  | lock _ hl =>
      obtain ⟨rfl, -⟩ := Store.lock_eq_some hl
      exact ⟨rfl, (Store.updates_cons rfl c').trans (if_neg hc)⟩
  | cancel _ =>
      exact ⟨(Store.inserts_commit ..).trans (if_neg hc),
        (Store.updates_commit ..).trans (if_neg hc)⟩
  | revoke _ _ _ => exact ⟨rfl, rfl⟩

theorem ApiStep.session_self (h : ApiStep w c w')
    (hs : (w.calls c).Session (w.db.inserts c) (w.db.updates c)) :
    (w'.calls c).Session (w'.db.inserts c) (w'.db.updates c) := by
  cases h with
  | enter op hi =>
      rw [hi] at hs
      rw [calls_setCall_self, db_setCall, hs.1, hs.2]
      exact (enter_cases _ op).session
  | move hl =>
      rw [calls_setCall_self]
      exact hl.session hs
  | raise _ _ =>
      rw [calls_raise_self, db_raise]
      exact ⟨(Store.inserts_rollback ..).trans (if_pos rfl),
        (Store.updates_rollback ..).trans (if_pos rfl)⟩
  | violate _ _ =>
      rw [calls_raise_self, db_raise]
      exact ⟨(Store.inserts_rollback ..).trans (if_pos rfl),
        (Store.updates_rollback ..).trans (if_pos rfl)⟩
  | flush hb hi =>
      obtain ⟨-, hl, hp, -⟩ := Store.insert_eq_inserted hi
      obtain ⟨hins, hupd⟩ := hb.session hs
      rw [calls_setCall_self]
      refine ⟨(Store.inserts_cons hp c).trans ?_, ?_⟩
      · rw [if_pos rfl, hins]
      · rw [← hupd]
        simp only [db_setCall, Store.updates, hl]
  | send hc =>
      rw [hc] at hs
      rw [calls_setCall_self]
      exact hs
  | land hc =>
      rw [calls_setCall_self, db_setCall, db_countSubmission, db_observe]
      exact ⟨(Store.inserts_commit ..).trans (if_pos rfl),
        (Store.updates_commit ..).trans (if_pos rfl)⟩
  | @lock jobId began _ hc hl =>
      rw [hc] at hs
      obtain ⟨rfl, -⟩ := Store.lock_eq_some hl
      rw [calls_setCall_self]
      refine ⟨hs.1, began, (Store.updates_cons rfl c).trans ?_⟩
      rw [if_pos rfl, hs.2]
  | cancel hc =>
      rw [calls_return_self, db_return, db_observe]
      exact ⟨(Store.inserts_commit ..).trans (if_pos rfl),
        (Store.updates_commit ..).trans (if_pos rfl)⟩
  | revoke _ hc _ =>
      rw [hc] at hs
      rw [calls_setCall_self]
      exact hs

end ApiStep

/-- An event leaves the calls it is not about alone. -/
theorem step_calls_ne {J : JsonCodec} {w w' : World} {e : Event} {c : CallId}
    (he : e.call? ≠ some c) (hs : (system J).step w e = some w') : w'.calls c = w.calls c := by
  cases hc : e.call? with
  | none => rw [((step_cases hs).offstage hc).calls]
  | some c' => exact (step_api hc hs).calls_ne fun h => he (hc.trans (congrArg some h.symm))

/-! ## Calls not made -/

/-- The event moves none of the calls from `n` on. -/
def Event.within (n : Nat) (e : Event) : Bool :=
  match e.call? with
  | some c => c < n
  | none => true

/-- The calls from `n` on have not come. -/
def IdleFrom (n : Nat) (w : World) : Prop := ∀ c, n ≤ c → w.calls c = .idle

theorem IdleFrom.step {J : JsonCodec} {w w' : World} {e : Event} {n : Nat} (h : IdleFrom n w)
    (he : e.within n) (hs : (system J).step w e = some w') : IdleFrom n w' := by
  intro c hc
  rw [step_calls_ne ?_ hs]
  · exact h c hc
  · intro hce
    simp only [Event.within, hce] at he
    exact absurd (of_decide_eq_true he) (Nat.not_lt.mpr hc)

/-- What holds of an idle call need be checked of the first `n` calls only. -/
theorem IdleFrom.forall {w : World} {n : Nat} (h : IdleFrom n w) {Q : Call → Prop}
    (hidle : Q .idle) (hQ : ∀ c < n, Q (w.calls c)) (c : CallId) : Q (w.calls c) := by
  by_cases hc : c < n
  · exact hQ c hc
  · rw [h c (Nat.le_of_not_lt hc)]
    exact hidle

/-! ## The sessions -/

theorem sessions_init (allowed : List String) : Sessions (.init allowed) :=
  fun _ => ⟨rfl, rfl⟩

theorem Sessions.step {J : JsonCodec} {w w' : World} {e : Event} (hs : Sessions w)
    (h : SysStep J w e w') : Sessions w' := by
  intro c'
  rcases h.api_or_offstage with ⟨c, -, ha⟩ | ⟨-, ho⟩
  · by_cases hne : c' = c
    · subst hne
      exact ha.session_self (hs c')
    · rw [ha.calls_ne hne, (ha.session_ne hne).1, (ha.session_ne hne).2]
      exact hs c'
  · rw [ho.calls, ho.inserts, ho.updates]
    exact hs c'

/-- A call of `cancel_job` holds the row from its UPDATE to its commit. -/
theorem Sessions.holds {w : World} (h : Sessions w) {c : CallId} {j : Uuid}
    (hc : w.calls c = .cancelJob j .updated) : ∃ l ∈ w.db.locks, l.2.1 = j := by
  have hs := h c
  rw [hc] at hs
  obtain ⟨-, began, hu⟩ := hs
  have hmem : (j, cancelPatch began) ∈ w.db.updates c := hu ▸ List.mem_singleton_self _
  obtain ⟨l, hl, he⟩ := List.mem_map.mp hmem
  exact ⟨l, (List.mem_filter.mp hl).1, congrArg Prod.fst he⟩

/-- Only a call of `cancel_job` holds a row. -/
theorem Sessions.held_by {w : World} (h : Sessions w) {l : CallId × Uuid × JobPatch}
    (hl : l ∈ w.db.locks) : w.calls l.1 = .cancelJob l.2.1 .updated := by
  have hmem : l.2 ∈ w.db.updates l.1 :=
    List.mem_map_of_mem (List.mem_filter.mpr ⟨hl, decide_eq_true rfl⟩)
  have hs := h l.1
  cases hc : w.calls l.1 with
  | cancelJob jobId pc =>
      rw [hc] at hs
      cases pc with
      | updated =>
          obtain ⟨-, began, hu⟩ := hs
          rw [hu, List.mem_singleton] at hmem
          rw [hmem]
      | _ => rw [hs.2] at hmem; cases hmem
  | submitting sub stage =>
      rw [hc] at hs
      cases stage <;> rw [hs.2] at hmem <;> cases hmem
  | _ => rw [hc] at hs; rw [hs.2] at hmem; cases hmem

/-- The row of a submission is there when the submission is committed, and not before. -/
theorem Sessions.unborn {w : World} (h : Sessions w) {c : CallId} {sub : Submission}
    {stage : Stage} (hc : w.calls c = .submitting sub stage) (hstage : stage ≠ .committed) :
    w.db.find sub.job.id = none := by
  have hs := h c
  rw [hc] at hs
  have hins : sub.job ∈ w.db.inserts c := by
    cases stage with
    | flushed => exact hs.1 ▸ List.mem_singleton_self _
    | sent t => exact hs.1 ▸ List.mem_singleton_self _
    | committed => exact absurd rfl hstage
  refine Store.find_eq_none.mpr ?_
  intro r hr
  exact (Store.pending_fresh hins hr).1

/-! ## What a call does to the rows -/

/-- The row of a submission as its commit shows it. -/
def Submission.row (sub : Submission) (celeryTaskId : Uuid) : Job :=
  (celeryTaskIdPatch celeryTaskId sub.began).apply sub.job

/-- What one move of call `c` does to the committed rows. -/
inductive RowsStep (w : World) (c : CallId) (w' : World) : Prop
  | same : w'.db.rows = w.db.rows → RowsStep w c w'
  | landed (sub : Submission) (celeryTaskId : Uuid) :
      w.calls c = .submitting sub (.sent celeryTaskId) → w'.calls c = .submitting sub .committed →
      w'.db.rows = w.db.rows ++ [sub.row celeryTaskId] → RowsStep w c w'
  | cancelled (jobId : Uuid) (began : Time) : w.calls c = .cancelJob jobId .updated →
      w'.calls c = .returned (.cancelJob jobId) (.cancelled (cancelResponse jobId)) →
      w'.db.rows = w.db.rows.map ((cancelPatch began).applyAt jobId) → RowsStep w c w'

/-- The commit of a submission adds its row, with the task id in it. -/
theorem rows_land {db : Db} {c : CallId} {sub : Submission} (t : Uuid)
    (hi : db.inserts c = [sub.job]) (hu : db.updates c = []) :
    ((db.amend c sub.job.id (celeryTaskIdPatch t sub.began)).commit c).rows =
      db.rows ++ [sub.row t] := by
  rw [Store.rows_commit, Store.rows_amend, Store.updates_amend, Store.inserts_amend, if_pos rfl,
    hi, hu, List.map_singleton, Patch.applyAt_of_eq _ rfl]
  exact List.map_id _

theorem ApiStep.rows {w w' : World} {c : CallId} (h : ApiStep w c w')
    (hs : (w.calls c).Session (w.db.inserts c) (w.db.updates c)) : RowsStep w c w' := by
  cases h with
  | enter op _ => exact .same rfl
  | move _ => exact .same rfl
  | raise _ _ => exact .same rfl
  | violate _ _ => exact .same rfl
  | flush _ hi => exact .same (Store.insert_eq_inserted hi).1
  | send _ => exact .same rfl
  | @land sub celeryTaskId hc =>
      rw [hc] at hs
      refine .landed sub celeryTaskId hc (Function.update_self ..) ?_
      simp only [db_setCall, db_countSubmission, db_observe]
      exact rows_land celeryTaskId hs.1 hs.2
  | lock _ hl =>
      obtain ⟨rfl, -⟩ := Store.lock_eq_some hl
      exact .same rfl
  | @cancel jobId hc =>
      rw [hc] at hs
      obtain ⟨hins, began, hupd⟩ := hs
      refine .cancelled jobId began hc (Function.update_self ..) ?_
      simp only [db_return, db_observe, Store.rows_commit, hins, hupd,
        List.append_nil]
      rfl
  | revoke _ _ _ => exact .same rfl

theorem find_eq_of_rows {db db' : Db} (h : db'.rows = db.rows) (j : Uuid) :
    db'.find j = db.find j := by
  simp only [Store.find, h]

theorem find_landed {db db' : Db} {r : Job} (h : db'.rows = db.rows ++ [r]) (j : Uuid) :
    db'.find j = (db.find j).or (if r.id = j then some r else none) := by
  simp only [Store.find, h, List.find?_append]
  congr 1
  by_cases hr : r.id = j <;> simp [hr]

theorem find_mapped {db db' : Db} {i : Uuid} {p : JobPatch}
    (h : db'.rows = db.rows.map (p.applyAt i)) (j : Uuid) :
    db'.find j = (db.find j).map (p.applyAt i) := by
  simp only [Store.find, h, List.find?_map]
  congr 2
  funext r; simp [p.pk_applyAt]

theorem find_mapped_ne {db db' : Db} {i j : Uuid} {p : JobPatch}
    (h : db'.rows = db.rows.map (p.applyAt i)) (hj : j ≠ i) : db'.find j = db.find j := by
  rw [find_mapped h]
  cases hf : db.find j with
  | none => rfl
  | some r => rw [Option.map_some, p.applyAt_of_ne ((Store.find_eq_some.mp hf).2 ▸ hj)]

theorem RowsStep.origin {w w' : World} {c : CallId} (h : RowsStep w c w') {r : Job}
    (hr : r ∈ w.db.rows) : ∃ r' ∈ w'.db.rows, r.Origin r' := by
  cases h with
  | same hrows => exact ⟨r, hrows ▸ hr, .refl r⟩
  | landed sub t _ _ hrows =>
      refine ⟨r, ?_, .refl r⟩
      rw [hrows]
      exact List.mem_append_left _ hr
  | cancelled jobId began _ _ hrows =>
      refine ⟨_, ?_, (keepsOrigin_cancel began).applyAt jobId r⟩
      rw [hrows]
      exact List.mem_map_of_mem hr

/-- Rows are never deleted, and keep what they were inserted with. -/
theorem SysStep.origin {J : JsonCodec} {w w' : World} {e : Event} (hs : Sessions w)
    (h : SysStep J w e w') {r : Job} (hr : r ∈ w.db.rows) : ∃ r' ∈ w'.db.rows, r.Origin r' := by
  rcases h.api_or_offstage with ⟨c, -, ha⟩ | ⟨-, ho⟩
  · exact (ha.rows (hs c)).origin hr
  · obtain ⟨i, p, hp, hrows⟩ := ho.rows
    refine ⟨_, ?_, hp.applyAt i r⟩
    rw [hrows]
    exact List.mem_map_of_mem hr

/-! ## Submissions -/

/-- The row a submission will insert and the message it will publish agree, and
the row is new. -/
structure Submission.Coherent (sub : Submission) : Prop where
  taskName : sub.job.taskName = sub.taskName
  idempotencyKey : sub.job.idempotencyKey = sub.idempotencyKey
  payload : sub.job.payload = sub.payload
  pending : sub.job.status = .pending
  executionCount : sub.job.executionCount = 0
  op : ∀ jobId, sub.op ≠ .cancelJob jobId
  key : ∀ req, sub.op = .createJob req → sub.idempotencyKey = req.idempotencyKey

theorem Builds.coherent {w : World} {x : Call} {n : Nat} {sub : Submission}
    (h : Builds w x n sub) : sub.Coherent := by
  cases h with
  | create => exact ⟨rfl, rfl, rfl, rfl, rfl, nofun, fun _ h => Op.createJob.inj h ▸ rfl⟩
  | retry => exact ⟨rfl, rfl, rfl, rfl, rfl, nofun, nofun⟩

theorem Builds.id_lt {w : World} {x : Call} {n : Nat} {sub : Submission} (h : Builds w x n sub) :
    w.uuid ≤ sub.job.id ∧ sub.job.id < w.uuid + n := by
  cases h with
  | create => exact ⟨Nat.le_refl _, Nat.lt_succ_self _⟩
  | retry => exact ⟨Nat.le_succ _, Nat.lt_succ_self _⟩

/-- The id of the row a call is creating or has created. -/
def Call.newId? : Call → Option Uuid
  | .submitting sub _ => some sub.job.id
  | .returned _ (.created response true) => some response.id
  | .returned _ (.retried response) => some response.id
  | _ => none

theorem newId?_response (op : Op) (row : Job) :
    (Call.returned op (response op row)).newId? = some row.id := by
  cases op <;> rfl

theorem Entered.newId? {op : Op} {x : Call} (h : Entered op x) : x.newId? = none := by
  cases h <;> rfl

theorem Local.newId? {w : World} {x y : Call} (h : Local w x y) : y.newId? = x.newId? := by
  cases h with
  | refresh hf => rw [newId?_response, (Store.find_eq_some.mp hf).2]; rfl
  | _ => rfl

theorem Local.not_submitting {w : World} {x : Call} {sub : Submission} {stage : Stage} :
    ¬ Local w x (.submitting sub stage) := nofun

/-- The rows being created have ids of their own, generated before now. -/
structure Submissions (w : World) : Prop where
  fresh : ∀ c n, (w.calls c).newId? = some n → n < w.uuid
  unique : ∀ c c' n, (w.calls c).newId? = some n → (w.calls c').newId? = some n → c = c'
  coherent : ∀ c sub stage, w.calls c = .submitting sub stage → sub.Coherent
  rows : ∀ r ∈ w.db.rows, r.id < w.uuid

section ApiStep
variable {w w' : World} {c : CallId}

theorem ApiStep.uuid_le (h : ApiStep w c w') : w.uuid ≤ w'.uuid := by
  cases h with
  | violate _ _ => exact Nat.le_add_right _ _
  | flush _ _ => exact Nat.le_add_right _ _
  | send _ => exact Nat.le_succ _
  | land _ => simp
  | _ => exact Nat.le_refl _

/-- A call keeps its new row's id, loses it, or has just generated it. -/
theorem ApiStep.newId? (h : ApiStep w c w') :
    (w'.calls c).newId? = none ∨ (w'.calls c).newId? = (w.calls c).newId? ∨
      ∃ n, (w'.calls c).newId? = some n ∧ w.uuid ≤ n ∧ n < w'.uuid := by
  cases h with
  | enter op _ =>
      left
      rw [calls_setCall_self]
      exact (enter_cases _ op).newId?
  | move hl =>
      right; left
      rw [calls_setCall_self]
      exact hl.newId?
  | raise _ _ => left; simp [Call.newId?]
  | violate _ _ => left; simp [Call.newId?]
  | flush hb _ =>
      right; right
      exact ⟨_, by rw [calls_setCall_self]; rfl, hb.id_lt⟩
  | send hc => right; left; simp [hc, Call.newId?]
  | land hc => right; left; simp [hc, Call.newId?]
  | lock _ _ => left; simp [Call.newId?]
  | cancel _ => left; simp [Call.newId?]
  | revoke _ _ _ => left; simp [Call.newId?]

/-- A call in a submission has just built it, or was in it before. -/
theorem ApiStep.submitting (h : ApiStep w c w') {sub : Submission} {stage : Stage}
    (hc : w'.calls c = .submitting sub stage) :
    (∃ n, Builds w (w.calls c) n sub) ∨ ∃ stage', w.calls c = .submitting sub stage' := by
  cases h with
  | enter op _ =>
      rw [calls_setCall_self] at hc
      have hx := enter_cases w.allowedTaskNames op
      rw [hc] at hx
      cases hx
  | move hl =>
      rw [calls_setCall_self] at hc
      exact absurd (hc ▸ hl) Local.not_submitting
  | flush hb _ =>
      rw [calls_setCall_self, Call.submitting.injEq] at hc
      exact .inl ⟨_, hc.1 ▸ hb⟩
  | send hc' =>
      rw [calls_setCall_self, Call.submitting.injEq] at hc
      exact .inr ⟨_, hc.1 ▸ hc'⟩
  | land hc' =>
      rw [calls_setCall_self, Call.submitting.injEq] at hc
      exact .inr ⟨_, hc.1 ▸ hc'⟩
  | _ =>
      simp only [calls_setCall_self, calls_raise_self, calls_return_self] at hc
      cases hc

end ApiStep

theorem submissions_init (allowed : List String) : Submissions (.init allowed) where
  fresh _ _ h := nomatch h
  unique _ _ _ h := nomatch h
  coherent _ _ _ h := nomatch h
  rows _ h := nomatch h

theorem Submissions.step_api {w w' : World} {c : CallId} (h : Submissions w)
    (hs : Sessions w) (ha : ApiStep w c w') : Submissions w' := by
  have hother : ∀ {c' : CallId}, c' ≠ c → w'.calls c' = w.calls c' := fun hne => ha.calls_ne hne
  -- an id a call has after the move is an old one of the same call, or a new one of `c`
  have hid : ∀ {c' : CallId} {n : Uuid}, (w'.calls c').newId? = some n →
      (w.calls c').newId? = some n ∨ c' = c ∧ w.uuid ≤ n ∧ n < w'.uuid := by
    intro c' n hn
    by_cases hne : c' = c
    · subst hne
      rcases ha.newId? with h0 | h1 | ⟨n', h2, hlt⟩
      · rw [h0] at hn; cases hn
      · exact .inl (h1 ▸ hn)
      · rw [h2] at hn
        exact .inr ⟨rfl, Option.some.inj hn ▸ hlt⟩
    · exact .inl (hother hne ▸ hn)
  constructor
  · intro c' n hn
    rcases hid hn with hn | ⟨-, -, hlt⟩
    · exact Nat.lt_of_lt_of_le (h.fresh c' n hn) ha.uuid_le
    · exact hlt
  · intro c₁ c₂ n h₁ h₂
    rcases hid h₁ with h₁ | ⟨rfl, hge, -⟩
    · rcases hid h₂ with h₂ | ⟨rfl, hge, -⟩
      · exact h.unique c₁ c₂ n h₁ h₂
      · exact absurd (h.fresh c₁ n h₁) (Nat.not_lt.mpr hge)
    · rcases hid h₂ with h₂ | ⟨rfl, -, -⟩
      · exact absurd (h.fresh c₂ n h₂) (Nat.not_lt.mpr hge)
      · rfl
  · intro c' sub stage hc'
    by_cases hne : c' = c
    · subst hne
      rcases ha.submitting hc' with ⟨n, hb⟩ | ⟨stage', hc''⟩
      · exact hb.coherent
      · exact h.coherent c' sub stage' hc''
    · exact h.coherent c' sub stage (hother hne ▸ hc')
  · intro r hr
    refine Nat.lt_of_lt_of_le ?_ ha.uuid_le
    cases ha.rows (hs c) with
    | same hrows => exact h.rows r (hrows ▸ hr)
    | landed sub celeryTaskId hc hc' hrows =>
        rw [hrows, List.mem_append, List.mem_singleton] at hr
        rcases hr with hr | rfl
        · exact h.rows r hr
        · exact h.fresh c _ (by rw [hc]; rfl)
    | cancelled jobId began hc hc' hrows =>
        rw [hrows] at hr
        obtain ⟨r₀, hr₀, rfl⟩ := List.mem_map.mp hr
        rw [(keepsOrigin_cancel began).applyAt jobId r₀ |>.id]
        exact h.rows r₀ hr₀

theorem Submissions.step {J : JsonCodec} {w w' : World} {e : Event} (h : Submissions w)
    (hs : Sessions w) (he : SysStep J w e w') : Submissions w' := by
  rcases he.api_or_offstage with ⟨c, -, ha⟩ | ⟨-, ho⟩
  · exact h.step_api hs ha
  · obtain ⟨hcalls, -, -, huuid, ⟨i, p, hp, hrows⟩, -⟩ := ho
    constructor
    · intro c n hn
      rw [hcalls] at hn
      exact Nat.lt_of_lt_of_le (h.fresh c n hn) huuid
    · intro c c' n
      rw [hcalls]
      exact h.unique c c' n
    · intro c sub stage
      rw [hcalls]
      exact h.coherent c sub stage
    · intro r hr
      rw [hrows] at hr
      obtain ⟨r₀, hr₀, rfl⟩ := List.mem_map.mp hr
      rw [(hp.applyAt i r₀).id]
      exact Nat.lt_of_lt_of_le (h.rows r₀ hr₀) huuid

/-! ## Slots -/

/-- What one move of call `c` does to the messages: nothing, or `send_task`. -/
inductive SlotsStep (w : World) (c : CallId) (w' : World) : Prop
  | same : w'.slots = w.slots → w'.nextSlot = w.nextSlot → SlotsStep w c w'
  | sent (sub : Submission) : w.calls c = .submitting sub .flushed →
      w'.calls c = .submitting sub (.sent w.uuid) →
      w'.slots = Function.update w.slots w.nextSlot (.queued (message sub w.uuid)) →
      w'.nextSlot = w.nextSlot + 1 → SlotsStep w c w'

theorem ApiStep.slots {w w' : World} {c : CallId} (h : ApiStep w c w') : SlotsStep w c w' := by
  cases h with
  | send hc => exact .sent _ hc (Function.update_self ..) rfl rfl
  | land _ =>
      refine .same ?_ ?_
      · simp
      · simp
  | _ => exact .same rfl rfl

/-- Slots not handed out yet are empty. -/
def Bounded (w : World) : Prop := ∀ s, w.nextSlot ≤ s → w.slots s = .empty

theorem bounded_init (allowed : List String) : Bounded (.init allowed) := fun _ _ => rfl

theorem Bounded.congr {w w' : World} (h : Bounded w) (hs : w'.slots = w.slots)
    (hn : w'.nextSlot = w.nextSlot) : Bounded w' := by
  unfold Bounded
  rw [hs, hn]
  exact h

theorem Bounded.lt {w : World} (h : Bounded w) {s : SlotId} (hs : w.slots s ≠ .empty) :
    s < w.nextSlot :=
  Nat.lt_of_not_le fun hle => hs (h s hle)

theorem Bounded.set {w : World} (h : Bounded w) {s : SlotId} (hs : w.slots s ≠ .empty)
    (x : Slot) : Bounded (w.setSlot s x) := by
  intro s' hs'
  have hne : s' ≠ s := by
    rintro rfl
    exact Nat.not_le.mpr (h.lt hs) hs'
  simp only [World.setSlot, Function.update_of_ne hne]
  exact h s' hs'

theorem Bounded.enqueue {w : World} (h : Bounded w) (m : Message) : Bounded (w.enqueue m) := by
  intro s' hs'
  have hne : s' ≠ w.nextSlot := by
    rintro rfl
    exact Nat.not_succ_le_self _ hs'
  simp only [World.enqueue, Function.update_of_ne hne]
  exact h s' (Nat.le_of_succ_le hs')

theorem Bounded.apply {J : JsonCodec} {w : World} (h : Bounded w) {s : SlotId} {m : Message}
    {worker : Worker} {phase : Phase} (hs : w.slots s = .delivered m worker phase) (e : Effects)
    (db : Db) : Bounded (w.apply J s m worker e db) := by
  have hlt : s < w.nextSlot := h.lt (by simp [hs])
  intro s' hs'
  simp only [World.apply] at hs'
  cases hq : e.queue with
  | none =>
      simp only [hq, Option.isSome_none, Bool.false_eq_true, if_false] at hs'
      have hne : s' ≠ s := by
        rintro rfl
        exact Nat.not_le.mpr hlt hs'
      rw [slots_apply_ne hne hq]
      exact h s' hs'
  | some m' =>
      simp only [hq, Option.isSome_some, if_true] at hs'
      have hne : s' ≠ s := by
        rintro rfl
        exact Nat.not_le.mpr hlt (Nat.le_of_succ_le hs')
      have hne' : s' ≠ w.nextSlot := by
        rintro rfl
        exact Nat.not_succ_le_self _ hs'
      rw [slots_apply_queue hne hq, Function.update_of_ne hne']
      exact h s' (Nat.le_of_succ_le hs')

theorem Bounded.step {J : JsonCodec} {w w' : World} {e : Event} (h : Bounded w)
    (he : SysStep J w e w') : Bounded w' := by
  cases he with
  | api _ ha =>
      cases ha.slots with
      | same hs hn => exact h.congr hs hn
      | sent sub _ _ hs hn => exact (h.enqueue (message sub _)).congr hs hn
  | drop hs _ => exact h.set (by simp [hs]) _
  | take hs _ _ => exact h.set (by simp [hs]) _
  | work hs _ _ => exact h.apply hs _ _
  | crash hs => exact h.set (by simp [hs]) _
  | redeliver _ => exact h.enqueue _
  | env _ he => exact h.congr he.slots he.nextSlot

/-! ## Every run -/

/-- What holds in every state of every run of the system. -/
structure Ground (w : World) : Prop where
  sessions : Sessions w
  submissions : Submissions w
  bounded : Bounded w

theorem ground_init (allowed : List String) : Ground (.init allowed) :=
  ⟨sessions_init allowed, submissions_init allowed, bounded_init allowed⟩

theorem Ground.step {J : JsonCodec} {w w' : World} {e : Event} (h : Ground w)
    (he : SysStep J w e w') : Ground w' :=
  ⟨h.sessions.step he, h.submissions.step h.sessions he, h.bounded.step he⟩

/-- The rule for invariants of the system: the ground invariants come with every step. -/
theorem run_invariant {J : JsonCodec} {P : World → Event → Prop} {I : World → Prop}
    {w w' : World} {es : List Event} (h : (system J).Run P w es w') (hg : Ground w)
    (hi : I w) (hstep : ∀ {w w' : World} {e : Event}, Ground w → I w → P w e →
      (system J).step w e = some w' → I w') : Ground w' ∧ I w' := by
  refine h.invariant (I := fun w => Ground w ∧ I w) ?_ ⟨hg, hi⟩
  intro w w' e hw hP hs
  exact ⟨hw.1.step (step_cases hs), hstep hw.1 hw.2 hP hs⟩

theorem run_ground {J : JsonCodec} {P : World → Event → Prop} {w w' : World} {es : List Event}
    (h : (system J).Run P w es w') (hg : Ground w) : Ground w' :=
  (run_invariant (I := fun _ => True) h hg trivial fun _ _ _ _ => trivial).1

end Aegis
