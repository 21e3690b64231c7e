/-
# `AegisWorkers.Constraints` — what the table and the task ids never need checked

The table of `001_initial.py` has more constraints than the store of the model: a second
unique index, on `celery_task_id`, and a foreign key from `parent_job_id` to `id`.  Neither
ever rejects anything (`Constrained`), so a row is turned away for its idempotency key only.

The id of a task names its job everywhere: in the row, in the message and its retries, in a
revocation.  A worker therefore drops nothing but messages of jobs that `cancel_job` has been
called for (`Targeted`).
-/
import AegisWorkers.Retries
import AegisWorkers.Routes

namespace Aegis

open BaseTask JobService ReadCommitted

/-! ## The constraints of the table -/

/-- What the database checks of the rows and of the statements to come, beyond the two unique
keys of the store. -/
structure Constrained (w : World) : Prop where
  /-- `ix_jobs_celery_task_id` -/
  celeryTaskId : ∀ r ∈ w.db.rows, ∀ q ∈ w.db.rows, r.celeryTaskId = q.celeryTaskId → r = q
  /-- the same, for the UPDATE that a commit flushes -/
  landing : ∀ c sub t, w.calls c = .submitting sub (.sent t) →
    (∀ r ∈ w.db.rows, r.celeryTaskId ≠ some t) ∧
      ∀ d sub', w.calls d = .submitting sub' (.sent t) → d = c
  /-- `fk_jobs_parent_job_id` -/
  parentJobId : ∀ r ∈ w.db.rows, ∀ i, r.parentJobId = some i → (w.db.find i).isSome
  /-- the same, for an INSERT to come -/
  inserting : ∀ c n sub, Builds w (w.calls c) n sub → ∀ i, sub.job.parentJobId = some i →
    (w.db.find i).isSome

section Rows
variable {w : World} {r q : Job} {m : Message} {c d : CallId} {sub sub' : Submission} {t : Uuid}

/-- The task id of a row is that of one message, and the message names the row. -/
theorem Enqueued.row_of_task (h : Enqueued w) (hr : r ∈ w.db.rows) (hm : m ∈ w.published)
    (ht : r.celeryTaskId = some m.id) : r.id = m.jobId := by
  obtain ⟨m', hm', hrow⟩ := h.rows r hr
  have hmem : m' ∈ w.publishedFor r.id := hm' ▸ List.mem_singleton_self m'
  have hid : m'.id = m.id := Option.some.inj (hrow.celeryTaskId.symm.trans ht)
  rw [← h.unique m' (mem_publishedFor.mp hmem).1 m hm hid]
  exact hrow.jobId.symm

theorem Enqueued.task_of_row (h : Enqueued w) (hr : r ∈ w.db.rows) (hm : m ∈ w.published)
    (hj : r.id = m.jobId) : r.celeryTaskId = some m.id := by
  obtain ⟨m', hm', hrow⟩ := h.rows r hr
  have hmem : m ∈ w.publishedFor r.id := mem_publishedFor.mpr ⟨hm, hj.symm⟩
  rw [hm', List.mem_singleton] at hmem
  rw [hmem]
  exact hrow.celeryTaskId

theorem Enqueued.task_unique (h : Enqueued w) (hr : r ∈ w.db.rows) (hq : q ∈ w.db.rows)
    (ht : r.celeryTaskId = q.celeryTaskId) : r = q := by
  obtain ⟨m, hm, hrow⟩ := h.rows q hq
  have hmem : m ∈ w.published :=
    (mem_publishedFor.mp (hm ▸ List.mem_singleton_self m)).1
  have hid : r.id = q.id :=
    (h.row_of_task hr hmem (ht.trans hrow.celeryTaskId)).trans hrow.jobId
  have hfind : w.db.find q.id = some r := Store.find_eq_some.mpr ⟨hr, hid⟩
  exact Option.some.inj (hfind.symm.trans (Store.find_eq_some.mpr ⟨hq, rfl⟩))

/-- A submission that has sent its message is not committed, and its task id is nobody
else's. -/
theorem Enqueued.landing (h : Enqueued w) (hg : Ground w)
    (hc : w.calls c = .submitting sub (.sent t)) :
    (∀ r ∈ w.db.rows, r.celeryTaskId ≠ some t) ∧
      ∀ d sub', w.calls d = .submitting sub' (.sent t) → d = c := by
  have hsent : message sub t ∈ w.published :=
    (mem_publishedFor.mp (h.sent c sub t hc ▸ List.mem_singleton_self _)).1
  refine ⟨?_, ?_⟩
  · intro r hr ht
    have hid : r.id = sub.job.id := h.row_of_task hr hsent ht
    have hs := hg.sessions c
    rw [hc] at hs
    have hins : sub.job ∈ w.db.inserts c := hs.1 ▸ List.mem_singleton_self _
    exact (Store.pending_fresh hins hr).1 hid
  · intro d sub' hd
    have hsent' : message sub' t ∈ w.published :=
      (mem_publishedFor.mp (h.sent d sub' t hd ▸ List.mem_singleton_self _)).1
    have hjob : sub'.job.id = sub.job.id :=
      congrArg Message.jobId (h.unique _ hsent' _ hsent rfl)
    refine hg.submissions.unique d c sub.job.id ?_ ?_
    · rw [hd, ← hjob]
      rfl
    · rw [hc]
      rfl

/-- A row that an INSERT is to bring copies the id of a committed one, if any. -/
theorem Parented.inserting (h : Parented w) {n : Nat} (hb : Builds w (w.calls c) n sub)
    {i : Uuid} (hi : sub.job.parentJobId = some i) : (w.db.find i).isSome := by
  refine h.calls c i ?_
  generalize w.calls c = x at hb
  cases hb with
  | create => cases hi
  | retry => exact hi

/-- A unique violation names a committed row with the same key. -/
theorem key_of_violates (hg : Ground w) {n : Nat} (hb : Builds w (w.calls c) n sub)
    (hv : w.db.insert c sub.job = .violates) :
    ∃ q ∈ w.db.rows, q.idempotencyKey = sub.job.idempotencyKey := by
  obtain ⟨q, hq, hk⟩ := Store.insert_eq_violates hv
  rw [(hb.session (hg.sessions c)).1] at hq
  have hmem : q ∈ w.db.rows := hq.resolve_right List.not_mem_nil
  have hid : q.id ≠ sub.job.id := Nat.ne_of_lt
    (Nat.lt_of_lt_of_le (hg.submissions.rows q hmem) hb.id_lt.1)
  exact ⟨q, hmem, hk.resolve_left hid⟩

end Rows

/-- No constraint of the table but the one on `idempotency_key` ever rejects anything: in every
reachable state the task ids of the rows are different, and different from those about to be
committed; every parent is a row; and an INSERT that is refused meets its key in a committed
row. -/
theorem constraints_hold {J : JsonCodec} {allowed : List String} {es : List Event} {w : World}
    (h : (system J).Run (fun _ _ => True) (.init allowed) es w) :
    Constrained w ∧ ∀ c n sub, Builds w (w.calls c) n sub → w.db.insert c sub.job = .violates →
      ∃ q ∈ w.db.rows, q.idempotencyKey = sub.job.idempotencyKey := by
  obtain ⟨hg, hen⟩ := run_enqueued h
  have hparented := (run_lineages h).2.parented
  refine ⟨⟨?_, ?_, hparented.rows, ?_⟩, ?_⟩
  · exact fun r hr q hq => hen.task_unique hr hq
  · exact fun c sub t hc => hen.landing hg hc
  · exact fun c n sub hb i hi => hparented.inserting hb hi
  · exact fun c n sub hb hv => key_of_violates hg hb hv

/-- A submission that has sent its message, beside a committed row. -/
theorem constraints_hold_ping : ∃ w sub, (system nullCodec).exec pingWorld
      (createEvents 0 "k" ++ (createEvents 1 "l").take 4) = some w ∧
    w.calls 1 = .submitting sub (.sent 3) ∧ w.db.rows.length = 1 ∧
    ∀ r ∈ w.db.rows, r.celeryTaskId ≠ some 3 := by
  obtain ⟨w, hw, hrun, hobs⟩ := Machine.exists_run_obs (system nullCodec) (fun _ _ => True)
    pingWorld (createEvents 0 "k" ++ (createEvents 1 "l").take 4)
    (fun w => (w.calls 1, w.db.rows.length)) (.submitting _ (.sent 3), 1) rfl (by decide)
  obtain ⟨hcall, hlen⟩ := Prod.mk.inj hobs
  exact ⟨w, _, hw, hcall, hlen, ((constraints_hold hrun).1.landing 1 _ 3 hcall).1⟩

/-! ## Revocations -/

/-- The operation of a call, whether it is over or not. -/
def Call.request? : Call → Option Op
  | .returned op _ => some op
  | .raised op _ => some op
  | x => x.op?

/-- Call `c` is a `cancel_job` for `j`, and has broadcast the revocation of task `t`, that of a
message published for `j`. -/
structure World.Revokes (w : World) (c : CallId) (j t : Uuid) : Prop where
  request : (w.calls c).request? = some (.cancelJob j)
  broadcast : .revoked c t ∈ w.trace
  published : ∃ m ∈ w.publishedFor j, m.id = t

/-- Every revocation a worker has heard of is that of the message of a job, by a `cancel_job`
that was called for the job. -/
def Targeted (w : World) : Prop :=
  ∀ worker, ∀ t ∈ w.heard worker, ∃ c j, w.Revokes c j t

section Revocations
variable {J : JsonCodec} {w w' : World} {e : Event} {c : CallId}

theorem request?_of_op? {x : Call} {op : Op} (h : x.op? = some op) : x.request? = some op := by
  cases x with
  | returned op' r => cases h
  | raised op' e => cases h
  | _ => exact h

theorem ApiStep.request? (h : ApiStep w c w') {op : Op} (hop : (w.calls c).request? = some op) :
    (w'.calls c).request? = some op := by
  cases h with
  | enter op' hidle =>
      rw [hidle] at hop
      cases hop
  | @move y hl =>
      rw [calls_setCall_self]
      generalize w.calls c = x at hl hop
      cases hl <;> exact hop
  | raise hop' _ =>
      rw [request?_of_op? hop'] at hop
      rw [calls_raise_self]
      exact hop
  | violate hb _ =>
      rw [request?_of_op? hb.op?] at hop
      rw [calls_raise_self]
      exact hop
  | flush hb _ =>
      rw [request?_of_op? hb.op?] at hop
      rw [calls_setCall_self]
      exact hop
  | send hc =>
      rw [hc] at hop
      rw [calls_setCall_self]
      exact hop
  | land hc =>
      rw [hc] at hop
      rw [calls_setCall_self]
      exact hop
  | lock hc _ =>
      rw [hc] at hop
      rw [calls_setCall_self]
      exact hop
  | cancel hc =>
      rw [hc] at hop
      rw [calls_return_self]
      exact hop
  | revoke _ hc _ =>
      rw [hc] at hop
      rw [calls_setCall_self]
      exact hop

theorem Targeted.step (h : Targeted w) (hen : Enqueued w)
    (hs : (system J).step w e = some w') : Targeted w' := by
  have he := step_cases hs
  have hrequest : ∀ c op, (w.calls c).request? = some op → (w'.calls c).request? = some op := by
    intro c op hop
    by_cases hc : e.call? = some c
    · exact (step_api hc hs).request? hop
    · rw [step_calls_ne hc hs]
      exact hop
  have hpublished : ∀ j, w.publishedFor j ⊆ w'.publishedFor j := by
    intro j m hm
    obtain ⟨hm, hj⟩ := mem_publishedFor.mp hm
    exact mem_publishedFor.mpr ⟨he.published_subset hm, hj⟩
  intro worker t ht
  rcases he.heard ht with hold | ⟨c, j, began, job, hc, htask, hcast⟩
  · obtain ⟨c, j, hrev⟩ := h worker t hold
    obtain ⟨m, hm, hid⟩ := hrev.published
    exact ⟨c, j, hrequest c _ hrev.request, he.trace_suffix.subset hrev.broadcast, m,
      hpublished j hm, hid⟩
  · obtain ⟨m, hm, hid⟩ := hen.checked c j began job hc
    rw [htask, Option.some.injEq] at hid
    refine ⟨c, j, hrequest c _ ?_, hcast, m, hpublished j hm, hid.symm⟩
    rw [hc]
    rfl

end Revocations

theorem run_targeted {J : JsonCodec} {P : World → Event → Prop} {allowed : List String}
    {es : List Event} {w : World} (h : (system J).Run P (.init allowed) es w) :
    Enqueued w ∧ Copies w ∧ Targeted w :=
  (run_invariant (I := fun w => Enqueued w ∧ Copies w ∧ Targeted w) h (ground_init allowed)
    ⟨enqueued_init allowed, copies_init allowed, fun _ _ ht => by cases ht⟩
    fun hg hi _ hs => ⟨hi.1.step hg (step_cases hs), hi.2.1.step hg.bounded (step_cases hs),
      hi.2.2.step hi.1 hs⟩).2

/-- Task ids are faithful: the id of a message that waits or is being handled is the task id of
the row of its job, and of no other row; a revocation a worker has heard of was broadcast by a
`cancel_job`, is that of a message published for its job, and names no message of another job;
so a worker that drops a message drops one that a `cancel_job` for its job has revoked. -/
theorem task_ids_faithful {J : JsonCodec} {allowed : List String} {es : List Event} {w : World}
    (h : (system J).Run (fun _ _ => True) (.init allowed) es w) :
    (∀ s m, (w.slots s).message? = some m → ∀ r ∈ w.db.rows,
      r.celeryTaskId = some m.id ↔ r.id = m.jobId) ∧
    (∀ worker, ∀ t ∈ w.heard worker, ∃ c j, w.Revokes c j t ∧
      ∀ s m, (w.slots s).message? = some m → m.id = t → m.jobId = j) ∧
    ∀ s worker m w', w.slots s = .queued m → (system J).step w (.take s worker) = some w' →
      w'.slots s = .empty → ∃ c, w.Revokes c m.jobId m.id := by
  obtain ⟨hen, hcopies, htargeted⟩ := run_targeted h
  have htarget : ∀ worker, ∀ t ∈ w.heard worker, ∃ c j, w.Revokes c j t ∧
      ∀ s m, (w.slots s).message? = some m → m.id = t → m.jobId = j := by
    intro worker t ht
    obtain ⟨c, j, hrev⟩ := htargeted worker t ht
    obtain ⟨m₀, hm₀, hid⟩ := hrev.published
    refine ⟨c, j, hrev, ?_⟩
    intro s m hm ht
    obtain ⟨m₁, hm₁, hcopy⟩ := hcopies s m hm
    obtain ⟨hpub, hj⟩ := mem_publishedFor.mp hm₀
    obtain rfl := hen.unique m₁ hm₁ m₀ hpub (hcopy.id.symm.trans (ht.trans hid.symm))
    exact hcopy.jobId.trans hj
  refine ⟨?_, htarget, ?_⟩
  · intro s m hm r hr
    obtain ⟨m₀, hm₀, hcopy⟩ := hcopies s m hm
    rw [hcopy.id, hcopy.jobId]
    exact ⟨hen.row_of_task hr hm₀, hen.task_of_row hr hm₀⟩
  · intro s worker m w' hs hstep hempty
    cases take_cases (J := J) hstep with
    | @drop _ _ m' hs' hheard =>
        obtain rfl := Slot.queued.inj (hs.symm.trans hs')
        obtain ⟨c, j, hrev, hmsg⟩ := htarget worker _ hheard
        obtain rfl := hmsg s m (by rw [hs]; rfl) rfl
        exact ⟨c, hrev⟩
    | take _ _ _ =>
        simp only [World.setSlot, Function.update_self] at hempty
        cases hempty
    | api hc _ => cases hc
    | env hn _ => cases hn

/-- A cancelled job's message, in the queue of a worker that has heard of it. -/
theorem task_ids_faithful_ping : ∃ w w' m, (system nullCodec).exec pingWorld
      (createEvents 0 "k" ++ [.call 1 (.cancelJob 0), .api 1, .revoke 1 ["v"]]) = some w ∧
    w.slots 0 = .queued m ∧ (system nullCodec).step w (.take 0 "v") = some w' ∧
    w'.slots 0 = .empty ∧ ∃ c, w.Revokes c m.jobId m.id := by
  obtain ⟨w, hw, hrun, hobs⟩ := Machine.exists_run_obs (system nullCodec) (fun _ _ => True)
    pingWorld (createEvents 0 "k" ++ [.call 1 (.cancelJob 0), .api 1, .revoke 1 ["v"]])
    (fun w => (w.slots 0, ((system nullCodec).step w (.take 0 "v")).map fun w' => w'.slots 0))
    (.queued _, some .empty) rfl (by decide)
  obtain ⟨hslot, htaken⟩ := Prod.mk.inj hobs
  obtain ⟨w', hw', hempty⟩ := Option.map_eq_some_iff.mp htaken
  exact ⟨w, w', _, hw, hslot, hw', hempty,
    (task_ids_faithful hrun).2.2 0 "v" _ w' hslot hw' hempty⟩

end Aegis
