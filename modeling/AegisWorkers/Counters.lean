/-
# `AegisWorkers.Counters` — what `jobs_total` says of the table

The hooks count each delivery as a success, a failure or a retry, and `retry_dlq_job` counts
its new rows.  Counters and rows are written in different places, and a crash can come
between the two.  A delivery that has begun owes its counts until it is acknowledged
(`Phase.due`), so they balance: what was begun is counted, is still owed, or was lost with a
crashed worker or a rejected message.

    w.rowsOf t q    the rows of task `t` that satisfy `q`
    w.load (owing f t)   what the deliveries of task `t` still owe, each phase by `f`
    struck f t      what a crash or a rejection takes away of it
-/
import AegisWorkers.Constraints
import AegisWorkers.Load

namespace Aegis

open BaseTask JobService ReadCommitted

/-! ## Counts to come -/

/-- The counts a delivery leads to, once `before_start` has been called.  A ValidationError
is counted by `run` and by Celery. -/
def Phase.due : Phase → Nat
  | .received => 0
  | .counted _ => 0
  | .failing _ again _ => if again then 2 else 1
  | .handled => 0
  | _ => 1

/-- COMPLETED is written, and the success is about to be counted. -/
def Phase.closing : Phase → Nat
  | .completed _ => 1
  | _ => 0

/-- DLQ is written, and the failure is about to be counted. -/
def Phase.burying : Phase → Nat
  | .failing _ _ .count => 1
  | _ => 0

/-- The piece leads to one count more than the delivery owes: `run` and Celery both call
`on_failure` for a ValidationError, and Celery calls it for a SETEX that fails after the success
is counted. -/
def Phase.doubles : Phase → Input → Nat
  | .executing, .ends (.validationError _) => 1
  | .counted _, .raises _ => 1
  | _, _ => 0

/-- What the piece takes along if it rejects the message. -/
def Phase.loses (f : Phase → Nat) (i : Input) (phase : Phase) : Nat :=
  if phase.rejects i then f phase else 0

/-- What a delivery of the task owes, each phase by `f`. -/
def Slot.owing (f : Phase → Nat) (taskName : String) : Slot → Nat
  | .delivered m _ phase => if m.taskName = taskName then f phase else 0
  | _ => 0

namespace World

/-- The deliveries counted so far. -/
def counted (taskName : String) (w : World) : Nat :=
  w.jobsTotal taskName .success + w.jobsTotal taskName .failed + w.jobsTotal taskName .retry

/-- `before_start` is called. -/
def starting (taskName : String) (w : World) : Event → Nat
  | .work s _ => (w.slots s).owing Phase.starts taskName
  | _ => 0

/-- `execute()` raises a ValidationError, or a SETEX fails. -/
def doubling (taskName : String) (w : World) : Event → Nat
  | .work s i => (w.slots s).owing (fun phase => phase.doubles i) taskName
  | _ => 0

/-- A worker is killed or a message rejected, and takes along what its delivery owes. -/
def struck (f : Phase → Nat) (taskName : String) (w : World) : Event → Nat
  | .crash s => (w.slots s).owing f taskName
  | .work s i => (w.slots s).owing (Phase.loses f i) taskName
  | _ => 0

/-- The committed rows of a task that satisfy `q`. -/
def rowsOf (taskName : String) (q : Job → Bool) (w : World) : Nat :=
  w.db.rows.countP fun r => decide (r.taskName = taskName) && q r

end World

/-! ## One piece of a delivery -/

section Pieces
variable {J : JsonCodec} {m : Message} {worker : Worker} {cached : Option String} {now : Time}
  {phase : Phase} {i : Input} {eff : Effects} {wr : Write}

/-- The counts of a piece, whatever their label. -/
def BaseTask.Effects.increments (eff : Effects) : Nat := eff.counts.isSome.toNat

/-- The phase after a piece, by `f`. -/
def BaseTask.Effects.owes (f : Phase → Nat) (eff : Effects) : Nat := (eff.next.map f).getD 0

/-- What the autoretry wrapper owes, whether it retries or not. -/
theorem autoretry_owes {f : Phase → Nat} {n : Nat}
    (hretry : f (.retrying defaultRetryDelay false) = n)
    (hfail : ∀ exc, f (.failing exc false .send) = n) (m : Message) (exc : Exc) :
    (autoretry m exc).owes f = n := by
  rcases autoretry_cases m exc with ⟨-, ha⟩ | ⟨-, ha⟩
  · rw [ha]
    exact hretry
  · rw [ha]
    exact hfail exc

/-- A piece counts what the delivery owed, owes it still, or takes it along. -/
theorem Piece.owes (h : Piece J m worker cached now phase i eff) :
    eff.owes Phase.due + eff.increments + phase.loses Phase.due i =
      phase.due + phase.starts + phase.doubles i := by
  have hauto := autoretry_owes (f := Phase.due) (n := 1) rfl (fun _ => rfl) m
  cases h with
  | undecodable _ => rw [hauto]; rfl
  | lookupFails exc => rw [hauto]; rfl
  | retryFails delay exc => rw [hauto]; rfl
  | retry delay again => cases again <;> rfl
  | failure exc again stage => cases stage <;> cases again <;> rfl
  | failureFails exc exc' again stage hne =>
      cases stage with
      | count => exact absurd rfl hne
      | _ => cases again <;> rfl
  | _ => rfl

/-- The hooks never count a `dlq_retry`. -/
theorem Piece.counts_ne (h : Piece J m worker cached now phase i eff) :
    eff.counts ≠ some .dlqRetry := by
  cases h with
  | failure exc again stage => cases stage <;> simp [onFailure]
  | failureFails exc exc' again stage _ => cases stage <;> simp [onFailure]
  | _ => simp [beforeStart, autoretry, onSuccess, countSuccess, storeIdempotencyResult,
      BaseTask.retry, BaseTask.onRetry]

/-- An UPDATE to `status` and the count of it by `metric`: the delivery owes the count from
the one piece to the other, as `f` says. -/
def Announced (J : JsonCodec) (status : JobStatus) (metric : JobMetric) (f : Phase → Nat) : Prop :=
  ∀ {m : Message} {worker : Worker} {cached : Option String} {now : Time} {phase : Phase}
    {i : Input} {eff : Effects}, Piece J m worker cached now phase i eff →
    f phase + (eff.write.any fun wr => wr.status = status).toNat =
      eff.owes f + (decide (eff.counts = some metric)).toNat

/-- COMPLETED is written by the piece before the one that counts the success. -/
theorem announced_completed : Announced J .completed .success Phase.closing := by
  intro m worker cached now phase i eff h
  have hauto := autoretry_owes (f := Phase.closing) rfl (fun _ => rfl) m
  cases h with
  | undecodable _ => rw [hauto]; rfl
  | lookupFails exc => rw [hauto]; rfl
  | retryFails delay exc => rw [hauto]; rfl
  | failure exc again stage => cases stage <;> cases again <;> rfl
  | failureFails exc exc' again stage _ => cases stage <;> cases again <;> rfl
  | _ => rfl

/-- DLQ is written by the piece before the one that counts the failure. -/
theorem announced_dlq : Announced J .dlq .failed Phase.burying := by
  intro m worker cached now phase i eff h
  have hauto := autoretry_owes (f := Phase.burying) rfl (fun _ => rfl) m
  cases h with
  | undecodable _ => rw [hauto]; rfl
  | lookupFails exc => rw [hauto]; rfl
  | retryFails delay exc => rw [hauto]; rfl
  | failure exc again stage => cases stage <;> cases again <;> rfl
  | failureFails exc exc' again stage hne =>
      cases stage with
      | count => exact absurd rfl hne
      | _ => cases again <;> rfl
  | _ => rfl

end Pieces

/-! ## One step -/

/-- What an event does to the counters and the rows. -/
inductive Ledger (J : JsonCodec) (w : World) (e : Event) (w' : World) : Prop
  | same : (∀ s i, e ≠ .work s i) → w'.jobsTotal = w.jobsTotal → w'.db.rows = w.db.rows →
      Ledger J w e w'
  | landed {c : CallId} {sub : Submission} {t : Uuid} : e.call? = some c →
      w.calls c = .submitting sub (.sent t) →
      w'.jobsTotal = (countSubmission w sub).jobsTotal →
      w'.db.rows = w.db.rows ++ [sub.row t] → Ledger J w e w'
  | cancelled {c : CallId} {jobId : Uuid} {began : Time} : e.call? = some c →
      w'.jobsTotal = w.jobsTotal →
      w'.db.rows = w.db.rows.map ((cancelPatch began).applyAt jobId) → Ledger J w e w'
  | worked {s : SlotId} {i : Input} {m : Message} {worker : Worker} {phase : Phase}
      {eff : Effects} {db : Db} : e = .work s i → w.slots s = .delivered m worker phase →
      Piece J m worker (w.cache (cacheKey m.idempotencyKey)) w.clock phase i eff →
      w.write m.jobId eff.write = some db → w' = w.apply J s m worker eff db → Ledger J w e w'

section Steps
variable {J : JsonCodec} {w w' : World} {e : Event} (taskName : String)

theorem ambient_jobsTotal (he : e.ambient) (hs : (system J).step w e = some w') :
    w'.jobsTotal = w.jobsTotal := by
  cases e with
  | boot worker => exact Option.some.inj hs ▸ rfl
  | tick n => exact Option.some.inj hs ▸ rfl
  | expire key => exact Option.some.inj hs ▸ rfl
  | deploy allowed => exact Option.some.inj hs ▸ rfl
  | updateDlqMetrics ok => exact Option.some.inj hs ▸ rfl
  | dlqReceive =>
      change w.dlqReceive = some w' at hs
      unfold World.dlqReceive at hs
      split at hs
      · exact Option.some.inj hs ▸ rfl
      · cases hs
  | _ => cases he

theorem ApiStep.ledger {c : CallId} (hc : e.call? = some c) (h : ApiStep w c w')
    (hs : (w.calls c).Session (w.db.inserts c) (w.db.updates c)) : Ledger J w e w' := by
  have hne : ∀ s i, e ≠ .work s i := by
    rintro s i rfl
    cases hc
  cases h with
  | @land sub t hx =>
      rw [hx] at hs
      refine .landed hc hx ?_ ?_
      · unfold countSubmission
        split <;> rfl
      · simp only [db_setCall, db_countSubmission, db_observe]
        exact rows_land t hs.1 hs.2
  | @cancel jobId hx =>
      rw [hx] at hs
      obtain ⟨hins, began, hupd⟩ := hs
      refine @Ledger.cancelled _ _ _ _ _ jobId began hc rfl ?_
      simp only [db_return, db_observe, Store.rows_commit, hins, hupd, List.append_nil]
      rfl
  | flush _ hi => exact .same hne rfl (Store.insert_eq_inserted hi).1
  | lock _ hl =>
      obtain ⟨rfl, -⟩ := Store.lock_eq_some hl
      exact .same hne rfl rfl
  | _ => exact .same hne rfl rfl

theorem ledger (hg : Ground w) (hs : (system J).step w e = some w') : Ledger J w e w' := by
  cases step_cases hs with
  | api hc ha => exact ha.ledger hc (hg.sessions _)
  | work hslot hp hdb => exact .worked rfl hslot hp hdb rfl
  | env hn henv =>
      refine .same ?_ (ambient_jobsTotal hn hs) (congrArg Store.rows henv.db)
      rintro s i rfl
      cases hn
  | _ =>
      refine .same ?_ rfl rfl
      intro s i hev
      cases hev

theorem counted_countSubmission (w : World) (sub : Submission) (taskName : String) :
    (countSubmission w sub).counted taskName = w.counted taskName := by
  unfold countSubmission
  split
  · by_cases ht : taskName = sub.taskName
    · subst ht
      simp [World.counted, World.count]
    · simp [World.counted, World.count, ht]
  · rfl

/-- Only the hooks count deliveries. -/
theorem Ledger.counted (h : Ledger J w e w') (hw : ∀ s i, e ≠ .work s i) :
    w'.counted taskName = w.counted taskName := by
  cases h with
  | same _ hj _ => simp only [World.counted, hj]
  | cancelled _ hj _ => simp only [World.counted, hj]
  | @landed c sub t _ _ hj _ =>
      rw [← counted_countSubmission w sub taskName]
      simp only [World.counted, hj]
  | worked hev _ _ _ _ => exact absurd hev (hw _ _)

section Worked
variable {s : SlotId} {m : Message} {worker : Worker} {phase : Phase} {i : Input} {eff : Effects}
  {db : Db}

theorem counted_apply (hp : Piece J m worker cached w.clock phase i eff) :
    (w.apply J s m worker eff db).counted taskName =
      w.counted taskName + if m.taskName = taskName then eff.increments else 0 := by
  have hne := hp.counts_ne
  simp only [World.counted, counter_apply, Effects.increments]
  by_cases ht : m.taskName = taskName
  · cases hc : eff.counts with
    | none => simp [ht]
    | some st =>
        rw [hc] at hne
        cases st with
        | dlqRetry => exact absurd rfl hne
        | success => simp [ht]; omega
        | failed => simp [ht]; omega
        | retry => simp [ht]; omega
  · simp [ht]

theorem owing_slot (f : Phase → Nat) : (eff.slot m worker).owing f taskName =
    if m.taskName = taskName then eff.owes f else 0 := by
  unfold Effects.slot Effects.owes
  cases eff.next with
  | none => simp [Slot.owing]
  | some phase => rfl

theorem owing_queue (f : Phase → Nat) : eff.queueLoad (Slot.owing f taskName) = 0 := by
  unfold Effects.queueLoad
  cases eff.queue <;> rfl

end Worked

/-- What the deliveries of a task owe changes with their pieces and with crashes. -/
inductive Owes (J : JsonCodec) (f : Phase → Nat) (taskName : String) (w : World) (e : Event)
    (w' : World) : Prop
  | aside : (∀ s i, e ≠ .work s i) →
      w'.load (Slot.owing f taskName) + w.struck f taskName e = w.load (Slot.owing f taskName) →
      Owes J f taskName w e w'
  | worked {s : SlotId} {i : Input} {m : Message} {worker : Worker} {phase : Phase}
      {eff : Effects} {db : Db} : e = .work s i → w.slots s = .delivered m worker phase →
      Piece J m worker (w.cache (cacheKey m.idempotencyKey)) w.clock phase i eff →
      w.write m.jobId eff.write = some db → w' = w.apply J s m worker eff db →
      w'.load (Slot.owing f taskName) + (if m.taskName = taskName then f phase else 0) =
        w.load (Slot.owing f taskName) + (if m.taskName = taskName then eff.owes f else 0) →
      Owes J f taskName w e w'

theorem owes {f : Phase → Nat} (hf : f .received = 0) (hg : Ground w)
    (hs : (system J).step w e = some w') : Owes J f taskName w e w' := by
  have he := step_cases hs
  have hshift := he.shift (f := Slot.owing f taskName) hg.bounded rfl
  rcases he.worked with @⟨s, i, m, worker, phase, eff, db, rfl, hslot, hp, hdb, rfl⟩ | hne
  · have hload : (w.apply J s m worker eff db).load (Slot.owing f taskName) +
          (Slot.delivered m worker phase).owing f taskName =
        w.load (Slot.owing f taskName) + (eff.slot m worker).owing f taskName +
          eff.queueLoad (Slot.owing f taskName) := load_apply hg.bounded rfl hslot
    rw [owing_slot, owing_queue, Nat.add_zero] at hload
    exact .worked rfl hslot hp hdb rfl hload
  · refine .aside hne ?_
    cases hshift with
    | same hsame _ hload =>
        rw [hload]
        cases e with
        | crash s =>
            rcases hsame with hamb | ⟨c, hc⟩
            · cases hamb
            · cases hc
        | work s i => exact absurd rfl (hne s i)
        | _ => rfl
    | @sent c sub hc _ _ _ hload =>
        rw [hload]
        cases e with
        | crash s => cases hc
        | work s i => cases hc
        | _ => rfl
    | dropped hev _ hload => exact hev ▸ hload
    | @taken s worker m hev _ hload =>
        have hnew : (Slot.delivered m worker .received).owing f taskName = 0 := by
          simp [Slot.owing, hf]
        rw [hnew] at hload
        exact hev ▸ hload
    | worked hev _ _ _ _ => exact absurd hev (hne _ _)
    | @crashed s m worker phase hev hslot hload =>
        subst hev
        simp only [World.struck, hslot]
        exact hload
    | redelivered hev _ hload => exact hev ▸ hload

/-- One step: what is begun is counted, owed, or lost with a worker. -/
theorem counted_step (hg : Ground w) (hs : (system J).step w e = some w') :
    w'.counted taskName + w'.load (Slot.owing Phase.due taskName) +
        w.struck Phase.due taskName e =
      w.counted taskName + w.load (Slot.owing Phase.due taskName) +
        (w.starting taskName e + w.doubling taskName e) := by
  cases owes taskName (f := Phase.due) rfl hg hs with
  | aside hw hload =>
      have hcount := (ledger hg hs).counted taskName hw
      have hnone : w.starting taskName e + w.doubling taskName e = 0 := by
        cases e with
        | work s i => exact absurd rfl (hw s i)
        | _ => rfl
      omega
  | @worked s i m worker phase eff db hev hslot hp _ hw hload =>
      subst hev hw
      have howes := hp.owes
      have hstart : w.starting taskName (.work s i) =
          if m.taskName = taskName then phase.starts else 0 := by
        simp only [World.starting, hslot]
        rfl
      have hdouble : w.doubling taskName (.work s i) =
          if m.taskName = taskName then phase.doubles i else 0 := by
        simp only [World.doubling, hslot]
        rfl
      have hlost : w.struck Phase.due taskName (.work s i) =
          if m.taskName = taskName then phase.loses Phase.due i else 0 := by
        simp only [World.struck, hslot]
        rfl
      rw [hstart, hdouble, hlost, counted_apply taskName hp]
      split_ifs at hload ⊢ <;> omega

end Steps

/-! ## The rows of a task -/

section Rows
variable {p : JobPatch} {i : Uuid} {rows : List Job} {q : Job → Bool}

/-- A patch after which no row satisfies `q` that did not before. -/
theorem countP_applyAt_le (hq : ∀ r ∈ rows, r.id = i → q (p.apply r) → q r) :
    (rows.map (p.applyAt i)).countP q ≤ rows.countP q := by
  rw [List.countP_map]
  refine List.countP_mono_left ?_
  intro r hr hqr
  by_cases hid : r.id = i
  · rw [Function.comp_apply, p.applyAt_of_eq hid] at hqr
    exact hq r hr hid hqr
  · rwa [Function.comp_apply, p.applyAt_of_ne hid] at hqr

/-- Whatever a patch does, it does to one row. -/
theorem countP_applyAt_succ (hnd : (rows.map Job.id).Nodup) :
    (rows.map (p.applyAt i)).countP q ≤ rows.countP q + 1 := by
  induction rows with
  | nil => exact Nat.zero_le _
  | cons r rest ih =>
      rw [List.map_cons, List.nodup_cons] at hnd
      rw [List.map_cons, List.countP_cons, List.countP_cons]
      by_cases hid : r.id = i
      · -- the other rows have other ids
        have hrest : rest.map (p.applyAt i) = rest := by
          refine (List.map_congr_left ?_).trans (List.map_id _)
          intro r' hr'
          refine p.applyAt_of_ne ?_
          intro hid'
          exact hnd.1 (List.mem_map.mpr ⟨r', hr', hid'.trans hid.symm⟩)
        rw [hrest]
        split_ifs <;> omega
      · rw [p.applyAt_of_ne hid]
        have htail := ih hnd.2
        omega

end Rows

section Laws
variable {J : JsonCodec} {w w' : World} {e : Event} (taskName : String) (status : JobStatus)

/-- The rows of a task in a status after a piece of a delivery of the task. -/
theorem rowsOf_write {m : Message} {wr? : Option Write} {db : Db}
    (hfits : ∀ r ∈ w.db.rows, r.id = m.jobId → r.taskName = m.taskName)
    (hdb : w.write m.jobId wr? = some db) :
    db.rows.countP (fun r => decide (r.taskName = taskName) && decide (r.status = status)) ≤
      w.rowsOf taskName (fun r => decide (r.status = status)) +
        (if m.taskName = taskName then (wr?.any fun wr => wr.status = status).toNat else 0) := by
  rcases write_cases hdb with ⟨rfl, -⟩ | ⟨wr, rfl, -, -, rfl⟩
  · exact Nat.le_add_right _ _
  · by_cases hboth : m.taskName = taskName ∧ wr.status = status
    · rw [if_pos hboth.1]
      have hone : ((some wr).any fun wr => decide (wr.status = status)).toNat = 1 := by
        simp [hboth.2]
      rw [hone]
      refine countP_applyAt_succ ?_
      have hnd := w.db.pk_nodup
      rw [List.map_append] at hnd
      exact hnd.of_append_left
    · refine (countP_applyAt_le ?_).trans (Nat.le_add_right _ _)
      intro r hr hid hq
      rw [Bool.and_eq_true, decide_eq_true_eq, decide_eq_true_eq] at hq
      exact absurd ⟨(hfits r hr hid).symm.trans hq.1, hq.2⟩ hboth

/-- A message that is delivered names the task of its job's row. -/
theorem delivered_task (hen : Enqueued w) (hcp : Copies w) {s : SlotId} {m : Message}
    {worker : Worker} {phase : Phase} (hs : w.slots s = .delivered m worker phase) :
    ∀ r ∈ w.db.rows, r.id = m.jobId → r.taskName = m.taskName := by
  intro r hr hid
  obtain ⟨m₀, hm₀, hcopy⟩ := hcp s m (by rw [hs]; rfl)
  exact (hen.enqueuedAs hr hm₀ hcopy hid.symm).taskName.symm

/-- Only workers bring rows into a status that is not PENDING and not CANCELLED. -/
theorem Ledger.rowsOf (h : Ledger J w e w') (hsub : Submissions w) (hw : ∀ s i, e ≠ .work s i)
    (hp : status ≠ .pending) (hc : status ≠ .cancelled) :
    w'.rowsOf taskName (fun r => decide (r.status = status)) ≤
      w.rowsOf taskName fun r => decide (r.status = status) := by
  cases h with
  | same _ _ hrows => exact Nat.le_of_eq (by rw [World.rowsOf, hrows]; rfl)
  | @landed c sub t _ hx _ hrows =>
      have hblank : (sub.row t).status = .pending := (hsub.coherent c sub _ hx).pending
      refine Nat.le_of_eq ?_
      simp only [World.rowsOf, hrows, List.countP_append, List.countP_singleton, hblank,
        hp.symm, decide_false, Bool.and_false, Bool.false_eq_true, if_false, Nat.add_zero]
  | cancelled _ _ hrows =>
      rw [World.rowsOf, hrows]
      refine countP_applyAt_le ?_
      intro r _ _ hq
      rw [Bool.and_eq_true, decide_eq_true_eq, decide_eq_true_eq] at hq
      exact absurd hq.2.symm hc
  | worked hev _ _ _ _ => exact absurd hev (hw _ _)

theorem Ledger.jobsTotal_le (metric : JobMetric) (h : Ledger J w e w')
    (hw : ∀ s i, e ≠ .work s i) : w.jobsTotal taskName metric ≤ w'.jobsTotal taskName metric := by
  cases h with
  | same _ hj _ => exact Nat.le_of_eq (by rw [hj])
  | cancelled _ hj _ => exact Nat.le_of_eq (by rw [hj])
  | @landed c sub t _ _ hj _ =>
      rw [hj]
      unfold countSubmission
      split
      · by_cases ht : taskName = sub.taskName
        · subst ht
          cases metric <;> simp [World.count]
        · simp [World.count, ht]
      · exact Nat.le_refl _
  | worked hev _ _ _ _ => exact absurd hev (hw _ _)

/-- One step: a row that comes into `status` is counted by `metric`, about to be counted, or its
worker is lost. -/
theorem Announced.step {metric : JobMetric} {f : Phase → Nat} {status : JobStatus}
    (h : Announced J status metric f) (hf : f .received = 0) (hpending : status ≠ .pending)
    (hcancelled : status ≠ .cancelled) (hg : Ground w) (hen : Enqueued w) (hcp : Copies w)
    (hs : (system J).step w e = some w') :
    w'.rowsOf taskName (fun r => decide (r.status = status)) +
        (w.jobsTotal taskName metric + w.load (Slot.owing f taskName)) ≤
      w.rowsOf taskName (fun r => decide (r.status = status)) +
        (w'.jobsTotal taskName metric + w'.load (Slot.owing f taskName)) +
        w.struck f taskName e := by
  cases owes taskName hf hg hs with
  | aside hw hload =>
      have hl := ledger hg hs
      have hrows := hl.rowsOf taskName status hg.submissions hw hpending hcancelled
      have hcount := hl.jobsTotal_le taskName metric hw
      omega
  | @worked s i m worker phase eff db hev hslot hp hdb hw hload =>
      subst hev hw
      have hrows := rowsOf_write taskName status (delivered_task hen hcp hslot) hdb
      have hpiece := h hp
      change (w.apply J s m worker eff db).rowsOf taskName _ ≤ _ at hrows
      rw [counter_apply]
      by_cases ht : m.taskName = taskName
      · simp only [ht, if_true, decide_true, Bool.true_and] at hrows hload ⊢
        omega
      · simp only [ht, if_false, decide_false, Bool.false_and, Bool.toNat_false] at hrows hload ⊢
        omega

/-! ## Retried jobs -/

/-- A submission is a retry if and only if its row will have a parent. -/
def Parentage (w : World) : Prop :=
  ∀ c sub stage, w.calls c = .submitting sub stage →
    ((∃ j, sub.op = .retryDlqJob j) ↔ sub.job.parentJobId.isSome)

theorem Builds.parentage {x : Call} {n : Nat} {sub : Submission} (h : Builds w x n sub) :
    (∃ j, sub.op = .retryDlqJob j) ↔ sub.job.parentJobId.isSome := by
  cases h with
  | create => simp [createSubmission, JobService.newJob]
  | retry => simp [retrySubmission, JobService.retryJob]

theorem Parentage.step (h : Parentage w) (he : SysStep J w e w') : Parentage w' := by
  intro c sub stage hc
  rcases he.api_or_offstage with ⟨c₀, -, ha⟩ | ⟨-, ho⟩
  · by_cases hne : c = c₀
    · subst hne
      rcases ha.submitting hc with ⟨n, hb⟩ | ⟨stage', hc'⟩
      · exact hb.parentage
      · exact h c sub stage' hc'
    · exact h c sub stage (ha.calls_ne hne ▸ hc)
  · exact h c sub stage (ho.calls ▸ hc)

/-- A `dlq_retry` has been counted for each committed row that has a parent. -/
def Descended (w : World) : Prop :=
  ∀ t, w.jobsTotal t .dlqRetry = w.rowsOf t fun r => r.parentJobId.isSome

/-- Rows keep their task and their parent. -/
theorem rowsOf_children {i : Uuid} {p : JobPatch} {db : Db} (hp : KeepsOrigin p)
    (hrows : db.rows = w.db.rows.map (p.applyAt i)) :
    db.rows.countP (fun r => decide (r.taskName = taskName) && r.parentJobId.isSome) =
      w.rowsOf taskName fun r => r.parentJobId.isSome := by
  rw [hrows, List.countP_map]
  refine List.countP_congr ?_
  intro r _
  have hkept := hp.applyAt i r
  rw [Function.comp_apply, hkept.taskName, hkept.parentJobId]

theorem Descended.step (h : Descended w) (hpar : Parentage w) (hg : Ground w)
    (hs : (system J).step w e = some w') : Descended w' := by
  intro t
  cases ledger hg hs with
  | same _ hj hrows => rw [hj, World.rowsOf, hrows]; exact h t
  | cancelled _ hj hrows =>
      rw [hj, h t]
      exact (rowsOf_children _ (keepsOrigin_cancel _) hrows).symm
  | @landed c sub u _ hx hj hrows =>
      have htask : (sub.row u).taskName = sub.taskName :=
        (hg.submissions.coherent c sub _ hx).taskName
      have hparent : (sub.row u).parentJobId = sub.job.parentJobId := rfl
      have hkind := hpar c sub _ hx
      rw [hj, World.rowsOf, hrows, List.countP_append, List.countP_singleton, htask, hparent]
      unfold countSubmission
      split
      · rename_i j hop
        have hsome := hkind.mp ⟨j, hop⟩
        by_cases ht : t = sub.taskName
        · subst ht
          simp only [World.count, Function.update_self, decide_true, hsome, Bool.and_self, if_true]
          exact congrArg (· + 1) (h _)
        · have hne : sub.taskName ≠ t := fun he => ht he.symm
          simp only [World.count, Function.update_of_ne ht, hne, decide_false, Bool.false_and,
            Bool.false_eq_true, if_false, Nat.add_zero]
          exact h t
      · rename_i hop
        have hnone : sub.job.parentJobId.isSome = false := by
          rw [Bool.eq_false_iff]
          intro hsome
          obtain ⟨j, hj'⟩ := hkind.mpr hsome
          exact hop j hj'
        simp only [hnone, Bool.and_false, Bool.false_eq_true, if_false, Nat.add_zero]
        exact h t
  | @worked s i m worker phase eff db _ _ hp hdb hw =>
      subst hw
      have hnever : decide (eff.counts = some .dlqRetry) = false := decide_eq_false hp.counts_ne
      rw [counter_apply, hnever, Bool.and_false, h t]
      rcases write_cases hdb with ⟨rfl, -⟩ | ⟨wr, -, -, -, rfl⟩
      · rfl
      · exact (rowsOf_children _ (keepsOrigin_status _ _ _) rfl).symm

end Laws

/-! ## Every run -/

section Runs
variable {J : JsonCodec} {P : World → Event → Prop} {allowed : List String} {es : List Event}
  {w : World}

theorem run_descended (h : (system J).Run P (.init allowed) es w) : Descended w := by
  refine (run_invariant (I := fun w => Parentage w ∧ Descended w) h (ground_init allowed)
    ⟨fun _ _ _ hc => (by cases hc), fun _ => rfl⟩ ?_).2.2
  rintro v v' e hg ⟨hparentage, hdescended⟩ - hs
  exact ⟨hparentage.step (step_cases hs), hdescended.step hparentage hg hs⟩

theorem run_announced {status : JobStatus} {metric : JobMetric} {f : Phase → Nat}
    (hann : Announced J status metric f) (hf : f .received = 0) (hpending : status ≠ .pending)
    (hcancelled : status ≠ .cancelled) (h : (system J).Run P (.init allowed) es w)
    (taskName : String) :
    w.rowsOf taskName (fun r => decide (r.status = status)) ≤
      w.jobsTotal taskName metric + w.load (Slot.owing f taskName) +
        (system J).total (World.struck f taskName) (.init allowed) es := by
  have hrun := h.accounts (I := fun w => Ground w ∧ Enqueued w ∧ Copies w) (fun _ => 0)
    (World.rowsOf taskName fun r => decide (r.status = status))
    (fun w => w.jobsTotal taskName metric + w.load (Slot.owing f taskName))
    (World.struck f taskName) ?_ ?_
    ⟨ground_init allowed, enqueued_init allowed, copies_init allowed⟩
  · have hrows : (World.init allowed).rowsOf taskName (fun r => decide (r.status = status)) = 0 :=
      rfl
    have hcount : (World.init allowed).jobsTotal taskName metric +
        (World.init allowed).load (Slot.owing f taskName) = 0 := rfl
    omega
  · intro v v' e hi _ hs
    exact ⟨hi.1.step (step_cases hs), hi.2.1.step hi.1 (step_cases hs),
      hi.2.2.step hi.1.bounded (step_cases hs)⟩
  · intro v v' e hi _ hs
    have hstep := hann.step taskName hf hpending hcancelled hi.1 hi.2.1 hi.2.2 hs
    omega

end Runs

/-- The counter `jobs_total` against the table and the deliveries, task by task, in every
reachable state.  `dlq_retry` is the number of rows made by a retry; `success` covers every
COMPLETED job and `failed` every job in DLQ, up to those whose worker has written the status
and not counted it, or was killed there; and `success`, `failed` and `retry` together count
each `before_start` once, and each ValidationError and each failing SETEX once more, up to
what deliveries still owe and crashes and rejections took along. -/
theorem counters_balance {J : JsonCodec} {allowed : List String} {es : List Event} {w : World}
    (h : (system J).Run (fun _ _ => True) (.init allowed) es w) (taskName : String) :
    w.jobsTotal taskName .dlqRetry = w.rowsOf taskName (fun r => r.parentJobId.isSome) ∧
    w.rowsOf taskName (fun r => decide (r.status = .dlq)) ≤
      w.jobsTotal taskName .failed + w.load (Slot.owing Phase.burying taskName) +
        (system J).total (World.struck Phase.burying taskName) (.init allowed) es ∧
    w.rowsOf taskName (fun r => decide (r.status = .completed)) ≤
      w.jobsTotal taskName .success + w.load (Slot.owing Phase.closing taskName) +
        (system J).total (World.struck Phase.closing taskName) (.init allowed) es ∧
    w.counted taskName + w.load (Slot.owing Phase.due taskName) +
        (system J).total (World.struck Phase.due taskName) (.init allowed) es =
      (system J).total (fun w e => w.starting taskName e + w.doubling taskName e)
        (.init allowed) es := by
  refine ⟨run_descended h taskName, ?_, ?_, ?_⟩
  · exact run_announced announced_dlq rfl (by decide) (by decide) h taskName
  · exact run_announced announced_completed rfl (by decide) (by decide) h taskName
  have hrun := h.balances (I := Ground)
    (fun w => w.counted taskName + w.load (Slot.owing Phase.due taskName))
    (World.struck Phase.due taskName)
    (fun w e => w.starting taskName e + w.doubling taskName e)
    (fun hg _ hs => hg.step (step_cases hs)) (fun hg _ hs => counted_step taskName hg hs)
    (ground_init allowed)
  have hnone : (World.init allowed).counted taskName +
      (World.init allowed).load (Slot.owing Phase.due taskName) = 0 := rfl
  omega

/-- The SETEX fails for a job whose success is counted, and it is retried by hand; the worker of
the retry is killed after it has written COMPLETED. -/
def uncountedEvents : List Event :=
  createEvents 0 "k" ++ startEvents 0 "v" ++
    [.work 0 (.ends (.returns .null)), .work 0 .returns, .work 0 .returns,
      .work 0 (.raises ⟨"redis", "Traceback"⟩)] ++ List.replicate 5 (.work 0 .returns) ++
    retryEvents 1 0 ++ startEvents 1 "v" ++
    [.work 1 (.ends (.returns .null)), .work 1 .returns, .crash 1]

/-- A success and a failure are counted for one job in DLQ, and nothing for one that is
COMPLETED. -/
theorem counters_balance_ping : ∃ w,
    (system nullCodec).exec pingWorld uncountedEvents = some w ∧
    w.jobsTotal "ping" .dlqRetry = 1 ∧ w.jobsTotal "ping" .failed = 1 ∧
    w.jobsTotal "ping" .success = 1 ∧ w.rowsOf "ping" (fun r => r.parentJobId.isSome) = 1 ∧
    w.rowsOf "ping" (fun r => decide (r.status = .dlq)) = 1 ∧
    w.rowsOf "ping" (fun r => decide (r.status = .completed)) = 1 ∧
    (system nullCodec).total (World.struck Phase.closing "ping") pingWorld uncountedEvents = 1 ∧
    w.counted "ping" + w.load (Slot.owing Phase.due "ping") +
      (system nullCodec).total (World.struck Phase.due "ping") pingWorld uncountedEvents = 3 := by
  obtain ⟨w, hw, hrun, hobs⟩ := Machine.exists_run_obs (system nullCodec) (fun _ _ => True)
    pingWorld uncountedEvents
    (fun w => (w.jobsTotal "ping" .dlqRetry, w.jobsTotal "ping" .failed,
      w.jobsTotal "ping" .success, w.rowsOf "ping" (fun r => decide (r.status = .dlq)),
      w.rowsOf "ping" (fun r => decide (r.status = .completed)))) (1, 1, 1, 1, 1)
    (by decide +kernel) (Machine.along_of_mem _ _ fun _ _ _ => trivial)
  simp only [Prod.mk.injEq] at hobs
  obtain ⟨hretries, hfailed, hsuccess, hburied, hcompleted⟩ := hobs
  obtain ⟨hchildren, -, -, hbalance⟩ := counters_balance hrun "ping"
  have hlost : (system nullCodec).total (World.struck Phase.closing "ping") pingWorld
      uncountedEvents = 1 := by decide +kernel
  have hbegun : (system nullCodec).total
      (fun w e => w.starting "ping" e + w.doubling "ping" e) pingWorld uncountedEvents = 3 := by
    decide +kernel
  exact ⟨w, hw, hretries, hfailed, hsuccess, hchildren.symm.trans hretries, hburied, hcompleted,
    hlost, hbalance.trans hbegun⟩

end Aegis
