/-
# `AegisWorkers.Accounting` — what the counters of a job count

`before_start` increments `execution_count`, `on_success` increments
`jobs_total{status=success}`, and the idempotency guard is in `run`, between the two.  So the
counters count hook calls, and hook calls count executions only while every delivery that
starts reaches `execute()`.

    received    started missed    executing    returned    completed    counted    handled
            starts          executions               completions  successes

Each counter differs from the one before it by the deliveries in between (`opened_step`,
`closing_step`), and by those that never come to the next one: a cache hit, or a killed worker.

    storesWork          the database and the cache answer the workers
    unbroken            no worker is killed inside `on_success`
    reachesExecute j    a started delivery of the job goes on to `execute()`
    firstSuccess j      `on_success` has not been called for the job before
    sequential j        the deliveries of the job do not overlap
    unexpired j         no cached result of the job expires
-/
import AegisWorkers.Cancel
import AegisWorkers.Custody
import AegisWorkers.Idempotency
import Mathlib.Algebra.BigOperators.Group.Finset.Basic

namespace Aegis

open BaseTask JobService ReadCommitted

/-! ## Policies -/

/-- The next external call of the delivery is a publish. -/
def Phase.publishes : Phase → Bool
  | .failing _ _ .send => true
  | .retrying _ _ => true
  | _ => false

/-- No call of a worker to the database or to the cache raises. -/
def storesWork (w : World) : Event → Bool
  | .work s (.raises _) =>
      match w.slots s with
      | .delivered _ _ phase => phase.publishes
      | _ => false
  | _ => true

/-- No worker is killed between the UPDATE and the end of `on_success`. -/
def unbroken (w : World) : Event → Bool
  | .crash s =>
      match w.slots s with
      | .delivered _ _ (.completed _) => false
      | .delivered _ _ (.counted _) => false
      | _ => true
  | _ => true

/-- A delivery of job `j` past `before_start` finds nothing cached, and its worker is not
killed before it calls `execute()`. -/
def reachesExecute (j : Uuid) (w : World) : Event → Bool
  | .work s _ =>
      match w.slots s with
      | .delivered m _ .started =>
          decide (m.jobId = j → w.cache (cacheKey m.idempotencyKey) = none)
      | _ => true
  | .crash s =>
      match w.slots s with
      | .delivered m _ .started => m.jobId ≠ j
      | .delivered m _ .missed => m.jobId ≠ j
      | _ => true
  | _ => true

/-- The number of times `on_success` has issued its UPDATE for job `j`. -/
def World.completions (w : World) (j : Uuid) : Nat :=
  (w.updatesOf j).countP fun u => u.1 = .completed

/-- `on_success` is called for job `j` for the first time. -/
def firstSuccess (j : Uuid) (w : World) : Event → Bool
  | .work s _ =>
      match w.slots s with
      | .delivered m _ (.returned _) => decide (m.jobId = j → w.completions j = 0)
      | _ => true
  | _ => true

/-- A message of job `j` is taken only when no other delivery of the job is in progress. -/
def sequential (j : Uuid) (w : World) : Event → Bool
  | .take s _ =>
      match w.slots s with
      | .queued m => decide (m.jobId = j → ∀ s' < w.nextSlot, ¬ (w.slots s').heldFor j)
      | _ => true
  | _ => true

/-- No cached result of a key of job `j` expires. -/
def unexpired (j : Uuid) (w : World) : Event → Bool
  | .expire key => decide (∀ m ∈ w.publishedFor j, m.idempotencyKey ≠ key)
  | _ => true

/-- The event increments `jobs_total{status=success}` in a delivery of job `j`. -/
def succeeds (J : JsonCodec) (j : Uuid) (x : World × Event) : Bool :=
  match x.2 with
  | .work s _ =>
      match x.1.slots s with
      | .delivered m _ _ => m.jobId = j && ((system J).step x.1 x.2).any fun w' =>
          x.1.jobsTotal m.taskName .success < w'.jobsTotal m.taskName .success
      | _ => false
  | _ => false

/-! ## Deliveries in a phase -/

/-- The number of deliveries of job `j` in a phase that satisfies `p`. -/
def World.deliveries (w : World) (p : Phase → Bool) (j : Uuid) : Nat :=
  ∑ s ∈ Finset.range w.nextSlot, ((w.slots s).inPhase p Message.jobId j).toNat

/-- The slot whose delivery an event moves. -/
def Event.slot? : Event → Option SlotId
  | .take s _ => some s
  | .work s _ => some s
  | .crash s => some s
  | _ => none

section Deliveries
variable {J : JsonCodec} {w w' : World} {e : Event} {p : Phase → Bool} {j : Uuid}

theorem SysStep.nextSlot_le (he : SysStep J w e w') : w.nextSlot ≤ w'.nextSlot := by
  cases he with
  | api _ ha =>
      cases ha.slots with
      | same _ hn => exact Nat.le_of_eq hn.symm
      | sent _ _ _ _ hn => exact hn ▸ Nat.le_succ _
  | work _ _ _ =>
      simp only [World.apply]
      split
      · exact Nat.le_succ _
      · exact Nat.le_refl _
  | redeliver _ => exact Nat.le_succ _
  | env _ henv => exact Nat.le_of_eq henv.nextSlot.symm
  | _ => exact Nat.le_refl _

/-- The deliveries in the other slots stay in their phases. -/
theorem SysStep.inPhase_ne (he : SysStep J w e w') (hb : Bounded w) {s : SlotId}
    (hs : e.slot? ≠ some s) :
    (w'.slots s).inPhase p Message.jobId j = (w.slots s).inPhase p Message.jobId j := by
  cases he.slot hb s with
  | stays h => rw [h]
  | published h₀ _ _ h _ => rw [h₀, h]; rfl
  | retried h₀ _ _ _ _ h => rw [h₀, h]; rfl
  | redelivered h₀ _ _ h => rw [h₀, h]; rfl
  | dropped hev _ _ _ => exact absurd (hev ▸ rfl) hs
  | taken hev _ _ _ => exact absurd (hev ▸ rfl) hs
  | advanced hev _ _ _ _ => exact absurd (hev ▸ rfl) hs
  | acknowledged hev _ _ _ _ => exact absurd (hev ▸ rfl) hs
  | crashed hev _ _ => exact absurd (hev ▸ rfl) hs

/-- Slots handed out by the step hold no delivery yet. -/
theorem deliveries_range (he : SysStep J w e w') (hb : Bounded w) :
    w.deliveries p j =
      ∑ s ∈ Finset.range w'.nextSlot, ((w.slots s).inPhase p Message.jobId j).toNat := by
  refine Finset.sum_subset (Finset.range_mono he.nextSlot_le) ?_
  intro s _ hs
  have hempty : w.slots s = .empty := hb s (Nat.le_of_not_lt fun h => hs (Finset.mem_range.mpr h))
  rw [hempty]
  rfl

/-- An event that moves no delivery changes no phase. -/
theorem deliveries_same (he : SysStep J w e w') (hb : Bounded w) (hs : e.slot? = none) :
    w'.deliveries p j = w.deliveries p j := by
  rw [deliveries_range he hb, World.deliveries]
  refine Finset.sum_congr rfl ?_
  intro s _
  rw [he.inPhase_ne hb]
  rw [hs]
  exact nofun

/-- Two sums whose terms differ in one place. -/
theorem sum_moved {f g : Nat → Nat} {n k : Nat} (hk : k < n) (h : ∀ i, i ≠ k → f i = g i) :
    (∑ i ∈ Finset.range n, f i) + g k = (∑ i ∈ Finset.range n, g i) + f k := by
  have hmem : k ∈ Finset.range n := Finset.mem_range.mpr hk
  have hrest : ∑ i ∈ (Finset.range n).erase k, f i = ∑ i ∈ (Finset.range n).erase k, g i :=
    Finset.sum_congr rfl fun i hi => h i (Finset.ne_of_mem_erase hi)
  rw [← Finset.add_sum_erase _ f hmem, ← Finset.add_sum_erase _ g hmem, hrest]
  omega

/-- An event that moves a delivery changes the count by what that delivery contributes. -/
theorem deliveries_moved (he : SysStep J w e w') (hb : Bounded w) {s : SlotId}
    (hs : e.slot? = some s) (hne : w.slots s ≠ .empty) :
    w'.deliveries p j + ((w.slots s).inPhase p Message.jobId j).toNat =
      w.deliveries p j + ((w'.slots s).inPhase p Message.jobId j).toNat := by
  have hkept : ∀ x, x ≠ s → ((w'.slots x).inPhase p Message.jobId j).toNat =
      ((w.slots x).inPhase p Message.jobId j).toNat := by
    intro x hx
    rw [he.inPhase_ne hb]
    intro hx'
    rw [hs, Option.some.injEq] at hx'
    exact hx hx'.symm
  rw [deliveries_range he hb]
  exact sum_moved (Nat.lt_of_lt_of_le (hb.lt hne) he.nextSlot_le) hkept

/-- A piece of a delivery changes the count by what the delivery's phase contributes. -/
theorem deliveries_work {s : SlotId} {i : Input} {m : Message} {worker : Worker} {phase : Phase}
    {eff : Effects} {db : Db} (hb : Bounded w) (hs : w.slots s = .delivered m worker phase)
    (hp : Piece J m worker (w.cache (cacheKey m.idempotencyKey)) w.clock phase i eff)
    (hdb : w.write m.jobId eff.write = some db) :
    (w.apply J s m worker eff db).deliveries p j + (decide (m.jobId = j) && p phase).toNat =
      w.deliveries p j + (decide (m.jobId = j) && eff.next.any p).toNat := by
  have hmoved := deliveries_moved (p := p) (j := j) (.work hs hp hdb) hb (s := s) rfl
    (by rw [hs]; exact nofun)
  have hafter : ((w.apply J s m worker eff db).slots s).inPhase p Message.jobId j =
      (decide (m.jobId = j) && eff.next.any p) := by
    cases hn : eff.next with
    | none => rw [slots_apply_none hn]; exact (Bool.and_false _).symm
    | some phase' => rw [slots_apply_some hn]; rfl
  rw [hs, hafter] at hmoved
  exact hmoved

theorem SysStep.crashed {s : SlotId} (he : SysStep J w (.crash s) w') :
    ∃ m worker phase, w.slots s = .delivered m worker phase ∧ w'.slots s = .queued m := by
  cases he with
  | api hc _ => cases hc
  | env hn _ => cases hn
  | crash hs => exact ⟨_, _, _, hs, Function.update_self ..⟩

/-- A killed worker takes its delivery out of the count. -/
theorem deliveries_crash {s : SlotId} {m : Message} {worker : Worker} {phase : Phase}
    (he : SysStep J w (.crash s) w') (hb : Bounded w) (hs : w.slots s = .delivered m worker phase) :
    w'.deliveries p j + (decide (m.jobId = j) && p phase).toNat = w.deliveries p j := by
  have hmoved := deliveries_moved (p := p) (j := j) he hb (s := s) rfl (by rw [hs]; exact nofun)
  obtain ⟨_, _, _, _, hq⟩ := he.crashed
  rw [hs, hq] at hmoved
  exact hmoved

/-- Other events deliver, drop or publish a message, and that changes no count. -/
theorem deliveries_idle (he : SysStep J w e w') (hb : Bounded w) (hp : p .received = false)
    (hw : ∀ s i, e ≠ .work s i) (hc : ∀ s, e ≠ .crash s) :
    w'.deliveries p j = w.deliveries p j := by
  by_cases htake : ∃ s worker, e = .take s worker
  · obtain ⟨s, worker, rfl⟩ := htake
    have hzero : (w.slots s).inPhase p Message.jobId j = false ∧
        (w'.slots s).inPhase p Message.jobId j = false ∧ w.slots s ≠ .empty := by
      cases he.slot hb s with
      | dropped _ hs₀ _ hs' => rw [hs₀, hs']; exact ⟨rfl, rfl, nofun⟩
      | taken _ hs₀ _ hs' =>
          rw [hs₀, hs', Slot.inPhase, hp, Bool.and_false]
          exact ⟨rfl, rfl, nofun⟩
      | published _ hev _ _ _ => cases hev
      | retried _ hev _ _ _ _ => cases hev
      | redelivered _ hev _ _ => cases hev
      | advanced hev _ _ _ _ => cases hev
      | acknowledged hev _ _ _ _ => cases hev
      | crashed hev _ _ => cases hev
      | stays hs' =>
          cases he with
          | api hev _ => cases hev
          | env hev _ => cases hev
          | drop hs₀ _ => rw [hs', hs₀]; exact ⟨rfl, rfl, nofun⟩
          | take hs₀ _ _ => rw [hs', hs₀]; exact ⟨rfl, rfl, nofun⟩
    have hmoved := deliveries_moved (p := p) (j := j) he hb (s := s) rfl hzero.2.2
    rw [hzero.1, hzero.2.1] at hmoved
    exact hmoved
  · refine deliveries_same he hb ?_
    cases e with
    | take s worker => exact absurd ⟨s, worker, rfl⟩ htake
    | work s i => exact absurd rfl (hw s i)
    | crash s => exact absurd rfl (hc s)
    | _ => rfl

/-- No delivery of the job, no delivery of it in any phase. -/
theorem deliveries_unheld (h : Unheld j w) : w.deliveries p j = 0 := by
  refine Finset.sum_eq_zero ?_
  intro s _
  cases hin : (w.slots s).inPhase p Message.jobId j with
  | false => rfl
  | true =>
      obtain ⟨m, worker, phase, hs, hj, -⟩ := Slot.inPhase_iff.mp hin
      exact absurd hj (unheld_delivered h hs)

end Deliveries

/-! ## Starts and executions -/

/-- `before_start` has returned, and `execute()` has not been called. -/
def Phase.opens : Phase → Bool
  | .started => true
  | .missed => true
  | _ => false

/-- The next piece of the delivery is the lookup. -/
def Phase.looksUp : Phase → Bool
  | .started => true
  | _ => false

section Opened
variable {J : JsonCodec} {w w' : World} {e : Event} {j : Uuid}

/-- A delivery goes from `before_start` to `execute()`, unless its lookup finds something. -/
theorem Piece.opens {m : Message} {worker : Worker} {cached : Option String} {now : Time}
    {phase : Phase} {i : Input} {eff : Effects} (h : Piece J m worker cached now phase i eff)
    (hi : phase.looksUp → i.ok) :
    phase.executes + (eff.next.any Phase.opens).toNat +
      (phase.looksUp && cached.isSome).toNat = phase.opens.toNat + phase.starts := by
  cases h with
  | miss hnone => rw [hnone]; rfl
  | hit v hsome => rw [Option.isSome_iff_ne_none.mpr hsome]; rfl
  | @undecodable text hsome =>
      rw [hsome]
      rcases autoretry_cases m (J.fault text) with ⟨-, ha⟩ | ⟨-, ha⟩ <;> rw [ha] <;> rfl
  | lookupFails exc => exact absurd (hi rfl) Bool.false_ne_true
  | failure exc again stage =>
      cases stage with
      | count => cases again <;> rfl
      | _ => rfl
  | failureFails exc exc' again stage _ =>
      cases stage with
      | count => cases again <;> rfl
      | _ => rfl
  | retryFails delay exc =>
      rcases autoretry_cases m exc with ⟨-, ha⟩ | ⟨-, ha⟩ <;> rw [ha] <;> rfl
  | _ => rfl

theorem reachesExecute_work {s : SlotId} {i : Input} {m : Message} {worker : Worker}
    {phase : Phase} (hs : w.slots s = .delivered m worker phase) :
    reachesExecute j w (.work s i) = !(decide (m.jobId = j) &&
      (phase.looksUp && (w.cache (cacheKey m.idempotencyKey)).isSome)) := by
  cases phase with
  | started =>
      cases hc : w.cache (cacheKey m.idempotencyKey) <;>
        simp [reachesExecute, hs, hc, Phase.looksUp]
  | _ => simp [reachesExecute, hs, Phase.looksUp]

theorem reachesExecute_crash {s : SlotId} {m : Message} {worker : Worker} {phase : Phase}
    (hs : w.slots s = .delivered m worker phase) :
    reachesExecute j w (.crash s) = !(decide (m.jobId = j) && phase.opens) := by
  cases phase <;> simp [reachesExecute, hs, Phase.opens]

/-- Database and cache answer, so what raises is a publish. -/
theorem storesWork_ok {s : SlotId} {i : Input} {m : Message} {worker : Worker} {phase : Phase}
    (h : storesWork w (.work s i)) (hs : w.slots s = .delivered m worker phase)
    (hphase : phase.publishes = false) : i.ok := by
  cases i with
  | raises exc =>
      simp only [storesWork, hs, hphase] at h
      cases h
  | _ => rfl

theorem Phase.not_publishes_of_looksUp {phase : Phase} (h : phase.looksUp) :
    phase.publishes = false := by
  cases phase with
  | started => rfl
  | _ => cases h

/-- Each `before_start` of the job is followed by a call of `execute()`, is on its way to it,
or will never come to it. -/
theorem opened_step (he : SysStep J w e w') (hb : Bounded w) (hw : storesWork w e) :
    w'.executions j + w'.deliveries Phase.opens j + w.starts j +
        (!reachesExecute j w e).toNat =
      w.executions j + w.deliveries Phase.opens j + w'.starts j := by
  by_cases hcrash : ∃ s, e = .crash s
  · obtain ⟨s, rfl⟩ := hcrash
    have hne : ∀ s' i, Event.crash s ≠ .work s' i := fun _ _ => nofun
    have hexec := he.executions (j := j) hne
    have hstart := he.starts (j := j) hne
    obtain ⟨m, worker, phase, hs, -⟩ := he.crashed
    have hcount := deliveries_crash (p := Phase.opens) (j := j) he hb hs
    rw [reachesExecute_crash hs, Bool.not_not]
    omega
  · have hne : ∀ s, e ≠ .crash s := fun s hs => hcrash ⟨s, hs⟩
    rcases he.worked with @⟨s, i, m, worker, phase, eff, db, rfl, hs, hp, hdb, rfl⟩ | hnw
    · have hcount := deliveries_work (p := Phase.opens) (j := j) hb hs hp hdb
      have hflow := hp.opens fun hl => storesWork_ok hw hs (Phase.not_publishes_of_looksUp hl)
      rw [executions_apply hp, starts_apply hp, reachesExecute_work hs, Bool.not_not]
      by_cases hj : m.jobId = j
      · simp only [hj, decide_true, Bool.true_and, if_true] at hcount ⊢
        omega
      · simp only [hj, decide_false, Bool.false_and, Bool.toNat_false, if_false] at hcount ⊢
        omega
    · have hreach : reachesExecute j w e = true := by
        cases e with
        | work s i => exact absurd rfl (hnw s i)
        | crash s => exact absurd rfl (hne s)
        | _ => rfl
      rw [he.executions hnw, he.starts hnw, deliveries_idle he hb rfl hnw hne, hreach]
      rfl

end Opened

/-! ## Completions and successes -/

/-- `on_success` has issued its UPDATE, and has not incremented the counter. -/
def Phase.closes : Phase → Bool
  | .completed _ => true
  | _ => false

/-- The COMPLETED updates issued by the next piece of the delivery. -/
def Phase.completes : Phase → Nat
  | .returned _ => 1
  | _ => 0

section Closed
variable {J : JsonCodec} {w w' : World} {e : Event} {j : Uuid} {m : Message} {worker : Worker}
  {cached : Option String} {now : Time} {phase : Phase} {i : Input} {eff : Effects}

theorem Piece.closes (h : Piece J m worker cached now phase i eff) :
    (eff.next.any Phase.closes).toNat = phase.completes := by
  have hautoretry : ∀ exc : Exc, ((autoretry m exc).next.any Phase.closes).toNat = 0 := by
    intro exc
    rcases autoretry_cases m exc with ⟨-, ha⟩ | ⟨-, ha⟩ <;> rw [ha] <;> rfl
  cases h with
  | undecodable _ => exact hautoretry _
  | lookupFails exc => exact hautoretry exc
  | retryFails delay exc => exact hautoretry exc
  | failure exc again stage =>
      cases stage with
      | count => cases again <;> rfl
      | _ => rfl
  | failureFails exc exc' again stage _ =>
      cases stage with
      | count => cases again <;> rfl
      | _ => rfl
  | _ => rfl

theorem Piece.completes (h : Piece J m worker cached now phase i eff) :
    ((eff.updates m j).countP fun u => u.1 = .completed) =
      if m.jobId = j then phase.completes else 0 := by
  by_cases hj : m.jobId = j
  · cases h with
    | failure exc again stage =>
        cases stage <;> simp [Effects.updates, onFailure, hj, Phase.completes]
    | failureFails exc exc' again stage =>
        cases stage <;> simp [Effects.updates, onFailure, hj, Phase.completes]
    | _ => simp [Effects.updates, beforeStart, onSuccess, autoretry, countSuccess,
        storeIdempotencyResult, BaseTask.retry, BaseTask.onRetry, hj, Phase.completes]
  · rw [if_neg hj, Effects.updates]
    split
    · rw [if_neg hj]; rfl
    · rfl

theorem completions_apply {s : SlotId} {db : Db}
    (h : Piece J m worker cached w.clock phase i eff) :
    (w.apply J s m worker eff db).completions j =
      (if m.jobId = j then phase.completes else 0) + w.completions j := by
  rw [World.completions, updatesOf_apply h, List.countP_append, h.completes, World.completions]

theorem SysStep.completions (he : SysStep J w e w') (hw : ∀ s i, e ≠ .work s i) :
    w'.completions j = w.completions j := by
  rw [World.completions, he.updatesOf hw, World.completions]

theorem SysStep.completions_le (he : SysStep J w e w') : w.completions j ≤ w'.completions j := by
  rcases he.worked with ⟨-, -, hp, -, rfl⟩ | hne
  · rw [completions_apply hp]
    exact Nat.le_add_left _ _
  · exact Nat.le_of_eq (he.completions hne).symm

/-- Only `on_success`, after its UPDATE, increments `jobs_total{status=success}`. -/
theorem Piece.counts_success (h : Piece J m worker cached now phase i eff) :
    (eff.counts = some .success) ↔ phase.closes := by
  cases h with
  | failure exc again stage => cases stage <;> simp [onFailure, Phase.closes]
  | failureFails exc exc' again stage => cases stage <;> simp [onFailure, Phase.closes]
  | _ => simp [beforeStart, onSuccess, autoretry, countSuccess, storeIdempotencyResult,
      BaseTask.retry, BaseTask.onRetry, Phase.closes]

/-- A counter after a piece of a delivery. -/
theorem counter_apply {s : SlotId} {db : Db} (taskName : String) (status : JobMetric) :
    (w.apply J s m worker eff db).jobsTotal taskName status = w.jobsTotal taskName status +
      (decide (m.taskName = taskName) && decide (eff.counts = some status)).toNat := by
  cases hc : eff.counts with
  | none => simp [World.apply, hc]
  | some st =>
      by_cases ht : m.taskName = taskName
      · subst ht
        by_cases hst : st = status
        · subst hst
          simp [World.apply, hc, World.count]
        · have hne : status ≠ st := fun h => hst h.symm
          simp [World.apply, hc, World.count, hst, hne]
      · have hne : taskName ≠ m.taskName := fun h => ht h.symm
        simp [World.apply, hc, World.count, ht, hne]

theorem succeeds_work {s : SlotId} (hs : w.slots s = .delivered m worker phase)
    (hstep : (system J).step w (.work s i) = some w') :
    succeeds J j (w, .work s i) = (decide (m.jobId = j) && phase.closes) := by
  have hcount : decide (w.jobsTotal m.taskName .success < w'.jobsTotal m.taskName .success) =
      phase.closes := by
    rcases (step_cases hstep).worked with @⟨_, _, _, _, _, eff, _, hev, hs', hp, -, rfl⟩ | hne
    · obtain ⟨rfl, rfl⟩ := Event.work.inj hev
      rw [hs, Slot.delivered.injEq] at hs'
      obtain ⟨rfl, rfl, rfl⟩ := hs'
      rw [counter_apply, Bool.eq_iff_iff, decide_eq_true_eq, ← hp.counts_success]
      by_cases hc : eff.counts = some .success <;> simp [hc]
    · exact absurd rfl (hne s i)
  simp only [succeeds, hs, hstep, Option.any_some, hcount]

/-- Each UPDATE of `on_success` for the job is followed by an increment of the counter, or is on
its way to it. -/
theorem closing_step (hstep : (system J).step w e = some w') (hb : Bounded w)
    (hu : unbroken w e) :
    (succeeds J j (w, e)).toNat + w'.deliveries Phase.closes j + w.completions j =
      w.deliveries Phase.closes j + w'.completions j := by
  have he := step_cases hstep
  by_cases hcrash : ∃ s, e = .crash s
  · obtain ⟨s, rfl⟩ := hcrash
    obtain ⟨m, worker, phase, hs, -⟩ := he.crashed
    have hcount := deliveries_crash (p := Phase.closes) (j := j) he hb hs
    have hsame := he.completions (j := j) fun _ _ => nofun
    have hopen : phase.closes = false := by
      cases phase with
      | completed v => simp [unbroken, hs] at hu
      | _ => rfl
    rw [hopen, Bool.and_false] at hcount
    show 0 + _ + _ = _
    simp only [Bool.toNat_false] at hcount
    omega
  · have hne : ∀ s, e ≠ .crash s := fun s hs => hcrash ⟨s, hs⟩
    rcases he.worked with @⟨s, i, m, worker, phase, eff, db, rfl, hs, hp, hdb, rfl⟩ | hnw
    · have hcount := deliveries_work (p := Phase.closes) (j := j) hb hs hp hdb
      rw [succeeds_work hs hstep, completions_apply hp]
      have hflow := hp.closes
      by_cases hj : m.jobId = j
      · simp only [hj, decide_true, Bool.true_and, if_true] at hcount ⊢
        omega
      · simp only [hj, decide_false, Bool.false_and, Bool.toNat_false, if_false] at hcount ⊢
        omega
    · have hnone : succeeds J j (w, e) = false := by
        cases e with
        | work s i => exact absurd rfl (hnw s i)
        | _ => rfl
      rw [he.completions hnw, deliveries_idle he hb rfl hnw hne, hnone]
      exact congrArg (· + _) (Nat.zero_add _)

/-- A second `on_success` shows. -/
theorem completions_of_breach (hb : ¬ firstSuccess j w e) (he : SysStep J w e w') :
    2 ≤ w'.completions j := by
  cases e with
  | work s i =>
      rcases he.worked with ⟨hev, hs, hp, -, rfl⟩ | hne
      · obtain ⟨rfl, rfl⟩ := Event.work.inj hev
        rw [completions_apply hp]
        simp only [firstSuccess, hs] at hb
        split at hb
        · rename_i hslot
          obtain ⟨rfl, -, rfl⟩ := Slot.delivered.inj hslot
          simp only [decide_eq_true_eq, Classical.not_imp] at hb
          rw [if_pos hb.1, Phase.completes]
          omega
        · exact absurd rfl hb
      · exact absurd rfl (hne s i)
  | _ => exact absurd rfl hb

/-- A first one leaves it at one. -/
theorem completions_le_one (hf : firstSuccess j w e) (hc : w.completions j ≤ 1)
    (he : SysStep J w e w') : w'.completions j ≤ 1 := by
  rcases he.worked with @⟨s, i, m, worker, phase, eff, db, rfl, hs, hp, -, rfl⟩ | hne
  · rw [completions_apply hp]
    cases phase with
    | returned v =>
        by_cases hj : m.jobId = j
        · simp only [firstSuccess, hs] at hf
          rw [if_pos hj, of_decide_eq_true hf hj, Phase.completes]
        · rw [if_neg hj, Nat.zero_add]
          exact hc
    | _ => simpa only [Phase.completes, ite_self, Nat.zero_add] using hc
  · exact he.completions hne ▸ hc

end Closed

/-! ## The row -/

/-- The row of job `j` counts the `before_start` calls made for it. -/
structure Reckoned (j : Uuid) (w : World) : Prop where
  unborn : w.db.find j = none → w.starts j = 0
  counted : ∀ r, w.db.find j = some r → r.executionCount = w.starts j

theorem reckoned_init (j : Uuid) (allowed : List String) : Reckoned j (.init allowed) where
  unborn _ := rfl
  counted _ h := nomatch h

section Reckoned
variable {J : JsonCodec} {w w' : World} {e : Event} {j : Uuid}

/-- With a working database, the UPDATE of `before_start` reaches its row. -/
theorem find_started {s : SlotId} {i : Input} {m : Message} {worker : Worker} {phase : Phase}
    {eff : Effects} {db : Db} (hw : storesWork w (.work s i))
    (hs : w.slots s = .delivered m worker phase)
    (hp : Piece J m worker (w.cache (cacheKey m.idempotencyKey)) w.clock phase i eff)
    (hdb : w.write m.jobId eff.write = some db) {r' : Job} (hr' : db.find j = some r') :
    ∃ r, w.db.find j = some r ∧
      r'.executionCount = (if m.jobId = j then phase.starts else 0) + r.executionCount := by
  rcases find_write hdb j with ⟨hf, hno⟩ | ⟨wr, hwr, -, hj, -, hf⟩
  · refine ⟨r', hf ▸ hr', ?_⟩
    cases hp with
    | start =>
        by_cases hj : m.jobId = j
        · cases hno _ rfl hj
        · rw [if_neg hj, Nat.zero_add]
    | startFails exc => simp [storesWork, hs, Phase.publishes] at hw
    | _ => simp [Phase.starts]
  · rw [hf] at hr'
    obtain ⟨r, hr, rfl⟩ := Option.map_eq_some_iff.mp hr'
    exact ⟨r, hr, by rw [if_pos hj, (hp.write hwr).count]⟩

theorem Reckoned.step (h : Reckoned j w) (hg : Ground w) (hc : startsCommitted j w e)
    (hw : storesWork w e) (he : SysStep J w e w') : Reckoned j w' := by
  rcases he.worked with @⟨s, i, m, worker, phase, eff, db, rfl, hs, hp, hdb, rfl⟩ | hne
  · constructor
    · intro hnone
      have hnone₀ : w.db.find j = none := by
        rcases find_write hdb j with ⟨hf, -⟩ | ⟨wr, -, -, -, -, hf⟩
        · exact hf.symm.trans hnone
        · exact Option.map_eq_none_iff.mp (hf.symm.trans hnone)
      have hzero : (if m.jobId = j then phase.starts else 0) = 0 := by
        split
        · rename_i hj
          cases phase with
          | received =>
              simp only [startsCommitted, hs] at hc
              rw [hnone₀] at hc
              exact absurd (of_decide_eq_true hc hj) Bool.false_ne_true
          | _ => rfl
        · rfl
      rw [starts_apply hp, hzero, h.unborn hnone₀]
    · intro r' hr'
      obtain ⟨r, hr, hcount⟩ := find_started hw hs hp hdb hr'
      rw [starts_apply hp, hcount, h.counted r hr]
  · have hstarts := he.starts (j := j) hne
    constructor
    · intro hnone
      rw [hstarts]
      refine h.unborn ?_
      cases hf : w.db.find j with
      | none => rfl
      | some r =>
          have hsome := he.find_isSome hg.sessions (by rw [hf]; rfl : (w.db.find j).isSome)
          rw [hnone] at hsome
          cases hsome
    · intro r' hr'
      rw [hstarts]
      cases he.row hg j with
      | stays hf => exact h.counted r' (hf ▸ hr')
      | landed _ hx _ hnone hf =>
          rw [hf, Option.some.injEq] at hr'
          rw [← hr', h.unborn hnone]
          exact (hg.submissions.coherent _ _ _ hx).executionCount
      | cancelled _ _ hf =>
          rw [hf] at hr'
          obtain ⟨r, hr, rfl⟩ := Option.map_eq_some_iff.mp hr'
          exact h.counted r hr
      | written hev _ _ _ _ _ _ _ => exact absurd hev (hne _ _)

end Reckoned

/-! ## One delivery after the other -/

/-- At most one delivery of job `j` is in progress. -/
def Sole (j : Uuid) (w : World) : Prop :=
  ∀ s s', (w.slots s).heldFor j → (w.slots s').heldFor j → s' = s

theorem sole_init (j : Uuid) (allowed : List String) : Sole j (.init allowed) :=
  fun _ _ h => absurd h Bool.false_ne_true

/-- A delivery of the job that looked up in vain has not come to `on_success`. -/
def Phase.pursues : Phase → Bool
  | .missed => true
  | .executing => true
  | .returned _ => true
  | _ => false

/-- `on_success` has issued its UPDATE, and has not stored the result. -/
def Phase.stows : Phase → Bool
  | .completed _ => true
  | .counted _ => true
  | _ => false

/-- While the deliveries of job `j` do not overlap and none finds anything cached: the job is
committed once it has started, a delivery on its way to `on_success` is the first, and after
the first the result is cached, or about to be. -/
structure Serial (j : Uuid) (w : World) : Prop where
  sole : Sole j w
  committed : ∀ s m worker phase, w.slots s = .delivered m worker phase → m.jobId = j →
    phase.starts = 0 → (w.db.find j).isSome
  first : ∀ s, (w.slots s).inPhase Phase.pursues Message.jobId j → w.completions j = 0
  stored : w.completions j ≠ 0 → ∃ r, w.db.find j = some r ∧
    (w.cache (cacheKey r.idempotencyKey) ≠ none ∨
      ∃ s, (w.slots s).inPhase Phase.stows Message.jobId j)

theorem serial_init (j : Uuid) (allowed : List String) : Serial j (.init allowed) where
  sole := sole_init j allowed
  committed _ _ _ _ h := nomatch h
  first _ h := absurd h Bool.false_ne_true
  stored h := absurd rfl h

section Serial
variable {J : JsonCodec} {w w' : World} {e : Event} {j : Uuid}

theorem heldFor_iff {x : Slot} :
    x.heldFor j ↔ ∃ m worker phase, x = .delivered m worker phase ∧ m.jobId = j := by
  cases x with
  | empty => simp [Slot.heldFor]
  | queued m => simp [Slot.heldFor]
  | delivered m worker phase => simp [Slot.heldFor]

theorem heldFor_of_inPhase {p : Phase → Bool} {x : Slot} (h : x.inPhase p Message.jobId j) :
    x.heldFor j := by
  obtain ⟨m, worker, phase, hx, hj, -⟩ := Slot.inPhase_iff.mp h
  exact heldFor_iff.mpr ⟨m, worker, phase, hx, hj⟩

theorem Sole.step (h : Sole j w) (hb : Bounded w) (hP : sequential j w e)
    (he : SysStep J w e w') : Sole j w' := by
  -- a delivery in progress was so before, or its message has just been taken
  have hold : ∀ {s : SlotId}, (w'.slots s).heldFor j →
      (w.slots s).heldFor j ∨ (∃ worker, e = .take s worker) ∧ ∀ s', ¬ (w.slots s').heldFor j := by
    intro s hs
    obtain ⟨m, worker, phase, hs', hj⟩ := heldFor_iff.mp hs
    cases he.delivered hb hs' with
    | stays _ hs₀ => exact .inl (heldFor_iff.mpr ⟨m, worker, phase, hs₀, hj⟩)
    | advanced _ hs₀ _ _ _ => exact .inl (heldFor_iff.mpr ⟨m, worker, _, hs₀, hj⟩)
    | taken hev hs₀ _ =>
        subst hev
        simp only [sequential, hs₀] at hP
        refine .inr ⟨⟨worker, rfl⟩, ?_⟩
        intro s' hheld
        obtain ⟨m', worker', phase', hs₁, -⟩ := heldFor_iff.mp hheld
        exact of_decide_eq_true hP hj s' (hb.lt (by rw [hs₁]; exact nofun)) hheld
  intro s s' hs hs'
  rcases hold hs with h₀ | ⟨⟨worker, rfl⟩, hfree⟩
  · rcases hold hs' with h₀' | ⟨-, hfree⟩
    · exact h s s' h₀ h₀'
    · exact absurd h₀ (hfree s)
  · rcases hold hs' with h₀' | ⟨⟨worker', hev⟩, -⟩
    · exact absurd h₀' (hfree s')
    · exact (Event.take.inj hev).1.symm

/-- The completions stay, or `on_success` has issued its UPDATE. -/
theorem completions_step (he : SysStep J w e w') : w'.completions j = w.completions j ∨
    ∃ s i m worker v, e = .work s i ∧ w.slots s = .delivered m worker (.returned v) ∧
      m.jobId = j ∧ w'.slots s = .delivered m worker (.completed v) := by
  rcases he.worked with @⟨s, i, m, worker, phase, eff, db, hev, hs, hp, -, rfl⟩ | hne
  · rw [completions_apply hp]
    by_cases hj : m.jobId = j
    · cases hp with
      | success v => exact .inr ⟨s, _, m, worker, v, hev, hs, hj, slots_apply_some rfl⟩
      | successFails v exc => exact .inr ⟨s, _, m, worker, v, hev, hs, hj, slots_apply_some rfl⟩
      | _ => exact .inl (by simp [Phase.completes])
    · exact .inl (by rw [if_neg hj, Nat.zero_add])
  · exact .inl (he.completions hne)

/-- A delivery comes to pursue a success by a lookup that misses. -/
theorem Piece.pursues {m : Message} {worker : Worker} {cached : Option String} {now : Time}
    {phase phase' : Phase} {i : Input} {eff : Effects}
    (h : Piece J m worker cached now phase i eff) (hn : eff.next = some phase')
    (hp : phase'.pursues) : phase.pursues ∨ phase = .started := by
  cases h with
  | miss _ => exact .inr rfl
  | hit v _ => exact .inr rfl
  | undecodable _ => exact .inr rfl
  | lookupFails exc => exact .inr rfl
  | execute => exact .inl rfl
  | returns v => exact .inl rfl
  | retryFails delay exc => exact (next_not hn hp (by split <;> rfl) rfl).elim
  | failure exc again stage =>
      cases stage with
      | count => exact (next_not hn hp (by split <;> rfl) rfl).elim
      | _ => exact (next_not hn hp rfl rfl).elim
  | failureFails exc exc' again stage _ =>
      cases stage with
      | count => exact (next_not hn hp (by split <;> rfl) rfl).elim
      | _ => exact (next_not hn hp rfl rfl).elim
  | ack => cases hn
  | _ => exact (next_not hn hp rfl rfl).elim

/-- The key of a message is that of the committed row of its job. -/
theorem key_of_slot (hen : Enqueued w) (hcp : Copies w) {s : SlotId} {m : Message}
    (hs : (w.slots s).message? = some m) (hj : m.jobId = j) {r : Job}
    (hr : w.db.find j = some r) : m.idempotencyKey = r.idempotencyKey := by
  obtain ⟨hmem, hid⟩ := Store.find_eq_some.mp hr
  obtain ⟨m₀, hm₀, hcopy⟩ := hcp s m hs
  exact (hen.enqueuedAs hmem hm₀ hcopy (hj.trans hid.symm)).idempotencyKey

theorem Serial.committed_step (h : Serial j w) (hg : Ground w) (hc : startsCommitted j w e)
    (he : SysStep J w e w') {s : SlotId} {m : Message} {worker : Worker} {phase : Phase}
    (hs : w'.slots s = .delivered m worker phase) (hj : m.jobId = j) (hp : phase.starts = 0) :
    (w'.db.find j).isSome := by
  refine he.find_isSome hg.sessions ?_
  cases he.delivered hg.bounded hs with
  | stays _ hs₀ => exact h.committed s m worker phase hs₀ hj hp
  | taken _ _ hr => rw [hr] at hp; cases hp
  | @advanced i phase₀ _ hev hs₀ _ _ _ =>
      subst hev
      cases phase₀ with
      | received =>
          simp only [startsCommitted, hs₀] at hc
          exact of_decide_eq_true hc hj
      | _ => exact h.committed s m worker _ hs₀ hj rfl

/-- A lookup of the job in vain is made before its first completion. -/
theorem Serial.first_lookup (h : Serial j w) (hen : Enqueued w) (hcp : Copies w) {s : SlotId}
    {m : Message} {worker : Worker} (hs : w.slots s = .delivered m worker .started)
    (hj : m.jobId = j) (hnone : w.cache (cacheKey m.idempotencyKey) = none) :
    w.completions j = 0 := by
  by_contra hne
  obtain ⟨r, hr, hcached | ⟨s', hs'⟩⟩ := h.stored hne
  · rw [← key_of_slot hen hcp (by rw [hs]; rfl) hj hr] at hcached
    exact hcached hnone
  · have hsole := h.sole s s' (heldFor_iff.mpr ⟨m, worker, _, hs, hj⟩) (heldFor_of_inPhase hs')
    rw [hsole, hs] at hs'
    obtain ⟨m', worker', phase', hs₁, -, hclose⟩ := Slot.inPhase_iff.mp hs'
    rw [← (Slot.delivered.inj hs₁).2.2] at hclose
    cases hclose

theorem Serial.first_step (h : Serial j w) (hg : Ground w) (hen : Enqueued w) (hcp : Copies w)
    (hr : reachesExecute j w e) (he : SysStep J w e w') {s : SlotId}
    (hs : (w'.slots s).inPhase Phase.pursues Message.jobId j) : w'.completions j = 0 := by
  obtain ⟨m, worker, phase', hs', hj, hp'⟩ := Slot.inPhase_iff.mp hs
  -- the delivery was the sole one of the job, so nothing has been completed meanwhile
  have hstay : (w.slots s).heldFor j → w'.completions j = w.completions j := by
    intro hheld
    rcases completions_step (j := j) he with hsame | ⟨s₀, i, m₀, worker₀, v, -, hs₀, hj₀, hs₁⟩
    · exact hsame
    · have hsole := h.sole s s₀ hheld (heldFor_iff.mpr ⟨m₀, worker₀, _, hs₀, hj₀⟩)
      rw [hsole, hs', Slot.delivered.injEq] at hs₁
      rw [hs₁.2.2] at hp'
      cases hp'
  cases he.delivered hg.bounded hs' with
  | stays _ hs₀ =>
      rw [hstay (heldFor_iff.mpr ⟨m, worker, phase', hs₀, hj⟩)]
      exact h.first s (Slot.inPhase_iff.mpr ⟨m, worker, phase', hs₀, hj, hp'⟩)
  | taken _ _ hrec => rw [hrec] at hp'; cases hp'
  | advanced hev hs₀ hp hn _ =>
      subst hev
      rw [hstay (heldFor_iff.mpr ⟨m, worker, _, hs₀, hj⟩)]
      rcases hp.pursues hn hp' with hp₀ | rfl
      · exact h.first s (Slot.inPhase_iff.mpr ⟨m, worker, _, hs₀, hj, hp₀⟩)
      · simp only [reachesExecute, hs₀] at hr
        exact h.first_lookup hen hcp hs₀ hj (of_decide_eq_true hr hj)

/-- A delivery at the end of `on_success` goes on to its SETEX, and a SETEX that returns
stores. -/
theorem Piece.stows {m : Message} {worker : Worker} {cached : Option String} {now : Time}
    {phase : Phase} {i : Input} {eff : Effects} (h : Piece J m worker cached now phase i eff)
    (hp : phase.stows) (hi : i.ok) :
    (∃ phase', eff.next = some phase' ∧ phase'.stows) ∨ ∃ v, eff.store = some v := by
  cases h with
  | count v => exact .inl ⟨_, rfl, rfl⟩
  | store v => exact .inr ⟨v, rfl⟩
  | storeFails v exc => cases hi
  | _ => cases hp

theorem Phase.not_publishes_of_stows {phase : Phase} (h : phase.stows) :
    phase.publishes = false := by
  cases phase with
  | completed v => rfl
  | counted v => rfl
  | _ => cases h

theorem unbroken_of_stows {s : SlotId} {m : Message} {worker : Worker} {phase : Phase}
    (hs : w.slots s = .delivered m worker phase) (h : phase.stows) :
    unbroken w (.crash s) = false := by
  cases phase with
  | completed v => simp only [unbroken, hs]
  | counted v => simp only [unbroken, hs]
  | _ => cases h

/-- What a delivery at the end of `on_success` does. -/
theorem stows_step (hg : Ground w) (hw : storesWork w e) (hu : unbroken w e)
    (he : SysStep J w e w') {s : SlotId}
    (hs : (w.slots s).inPhase Phase.stows Message.jobId j) :
    (w'.slots s).inPhase Phase.stows Message.jobId j ∨
      ∃ m, (w.slots s).message? = some m ∧ m.jobId = j ∧
        w'.cache (cacheKey m.idempotencyKey) ≠ none := by
  obtain ⟨m, worker, phase, hs₀, hj, hp⟩ := Slot.inPhase_iff.mp hs
  by_cases hwork : ∃ i, e = .work s i
  · obtain ⟨i, rfl⟩ := hwork
    rcases he.worked with ⟨hev, hs₁, hpiece, -, rfl⟩ | hne
    · obtain ⟨rfl, rfl⟩ := Event.work.inj hev
      rw [hs₀, Slot.delivered.injEq] at hs₁
      obtain ⟨rfl, rfl, rfl⟩ := hs₁
      have hok := storesWork_ok hw hs₀ (Phase.not_publishes_of_stows hp)
      rcases hpiece.stows hp hok with ⟨phase', hn, hp'⟩ | ⟨v, hv⟩
      · exact .inl (Slot.inPhase_iff.mpr ⟨m, worker, phase', slots_apply_some hn, hj, hp'⟩)
      · refine .inr ⟨m, by rw [hs₀]; rfl, hj, ?_⟩
        rw [cache_apply_some hv, Function.update_self]
        exact Option.some_ne_none _
    · exact absurd rfl (hne s i)
  · have hne : ∀ i, e ≠ .work s i := fun i hi => hwork ⟨i, hi⟩
    refine .inl ?_
    cases he.slot hg.bounded s with
    | stays hs' => exact hs' ▸ hs
    | published h₀ _ _ _ _ => rw [hs₀] at h₀; cases h₀
    | retried h₀ _ _ _ _ _ => rw [hs₀] at h₀; cases h₀
    | redelivered h₀ _ _ _ => rw [hs₀] at h₀; cases h₀
    | dropped _ h₀ _ _ => rw [hs₀] at h₀; cases h₀
    | taken _ h₀ _ _ => rw [hs₀] at h₀; cases h₀
    | crashed hev _ _ =>
        subst hev
        rw [unbroken_of_stows hs₀ hp] at hu
        cases hu
    | acknowledged hev _ _ _ _ => exact absurd hev (hne _)
    | advanced hev _ _ _ _ => exact absurd hev (hne _)

theorem Serial.stored_step (h : Serial j w) (hg : Ground w) (hen : Enqueued w) (hcp : Copies w)
    (hw : storesWork w e) (hu : unbroken w e) (hx : unexpired j w e) (he : SysStep J w e w')
    (hc : w'.completions j ≠ 0) : ∃ r, w'.db.find j = some r ∧
      (w'.cache (cacheKey r.idempotencyKey) ≠ none ∨
        ∃ s, (w'.slots s).inPhase Phase.stows Message.jobId j) := by
  have hkeep : ∀ {r : Job}, w.db.find j = some r →
      ∃ r', w'.db.find j = some r' ∧ r'.idempotencyKey = r.idempotencyKey := by
    intro r hr
    obtain ⟨hmem, hid⟩ := Store.find_eq_some.mp hr
    obtain ⟨r', hmem', ho⟩ := he.origin hg.sessions hmem
    exact ⟨r', Store.find_eq_some.mpr ⟨hmem', ho.id.trans hid⟩, ho.idempotencyKey⟩
  rcases completions_step (j := j) he with hsame | ⟨s, i, m, worker, v, -, hs, hj, hs'⟩
  · rw [hsame] at hc
    obtain ⟨r, hr, hcached | ⟨s, hs⟩⟩ := h.stored hc
    · obtain ⟨r', hr', hk⟩ := hkeep hr
      refine ⟨r', hr', .inl ?_⟩
      rw [hk]
      cases he.cache r.idempotencyKey with
      | stays hsame' => rw [hsame']; exact hcached
      | stored _ _ _ hs' => rw [hs']; exact Option.some_ne_none _
      | expired hev =>
          subst hev
          obtain ⟨hmem, hid⟩ := Store.find_eq_some.mp hr
          obtain ⟨m, hm, henq⟩ := hen.rows r hmem
          refine absurd henq.idempotencyKey (of_decide_eq_true hx m ?_)
          rw [← hid, hm]
          exact List.mem_singleton_self m
    · rcases stows_step hg hw hu he hs with hs' | ⟨m, hm, hj, hcached⟩
      · obtain ⟨r', hr', -⟩ := hkeep hr
        exact ⟨r', hr', .inr ⟨s, hs'⟩⟩
      · obtain ⟨r', hr', hk⟩ := hkeep hr
        refine ⟨r', hr', .inl ?_⟩
        rw [hk, ← key_of_slot hen hcp hm hj hr]
        exact hcached
  · obtain ⟨r, hr⟩ := Option.isSome_iff_exists.mp (h.committed s m worker _ hs hj rfl)
    obtain ⟨r', hr', -⟩ := hkeep hr
    exact ⟨r', hr', .inr ⟨s, Slot.inPhase_iff.mpr ⟨m, worker, _, hs', hj, rfl⟩⟩⟩

theorem Serial.step (h : Serial j w) (hg : Ground w) (hen : Enqueued w) (hcp : Copies w)
    (hc : startsCommitted j w e) (hw : storesWork w e) (hu : unbroken w e)
    (hr : reachesExecute j w e) (hP : sequential j w e) (hx : unexpired j w e)
    (he : SysStep J w e w') : Serial j w' where
  sole := h.sole.step hg.bounded hP he
  committed _ _ _ _ hs hj hp := h.committed_step hg hc he hs hj hp
  first _ hs := h.first_step hg hen hcp hr he hs
  stored hne := h.stored_step hg hen hcp hw hu hx he hne

theorem Serial.firstSuccess (h : Serial j w) : firstSuccess j w e := by
  cases e with
  | work s i =>
      cases hs : w.slots s with
      | delivered m worker phase =>
          cases phase with
          | returned v =>
              simp only [Aegis.firstSuccess, hs, decide_eq_true_eq]
              intro hj
              exact h.first s (Slot.inPhase_iff.mpr ⟨m, worker, _, hs, hj, rfl⟩)
          | _ => simp only [Aegis.firstSuccess, hs]
      | _ => simp only [Aegis.firstSuccess, hs]
  | _ => rfl

end Serial

/-! ## Whole runs -/

section Run
variable {J : JsonCodec} {P : World → Event → Prop} {allowed : List String} {es : List Event}
  {w : World} {j : Uuid}

/-- The number of increments of `jobs_total{status=success}` made for job `j`. -/
def successes (J : JsonCodec) (j : Uuid) (past : List (World × Event)) : Nat :=
  past.countP (succeeds J j)

/-- Each delivery that starts reaches `execute()`, or there are more starts than executions. -/
theorem reached_or_short (hP : ∀ w e, P w e → storesWork w e)
    (h : (system J).Run P (.init allowed) es w) :
    (system J).Along (fun w e => reachesExecute j w e) (.init allowed) es ∨
      w.executions j + w.deliveries Phase.opens j < w.starts j := by
  refine h.along_or
    (I := fun w => Ground w ∧ w.executions j + w.deliveries Phase.opens j ≤ w.starts j)
    (B := fun w => w.executions j + w.deliveries Phase.opens j < w.starts j)
    ?_ ?_ ?_ ⟨ground_init allowed, Nat.le_refl 0⟩
  · intro w w' e hi hPe hs
    have hstep := opened_step (j := j) (step_cases hs) hi.1.bounded (hP w e hPe)
    have hle := hi.2
    exact ⟨hi.1.step (step_cases hs), by omega⟩
  · intro w w' e hi hshort hPe hs
    have hstep := opened_step (j := j) (step_cases hs) hi.1.bounded (hP w e hPe)
    omega
  · intro w w' e hi hPe hb hs
    have hstep := opened_step (j := j) (step_cases hs) hi.1.bounded (hP w e hPe)
    have hle := hi.2
    rw [Bool.eq_false_of_not_eq_true hb] at hstep
    simp only [Bool.not_false, Bool.toNat_true] at hstep
    omega

theorem run_reached (hP : ∀ w e, P w e → storesWork w e ∧ reachesExecute j w e)
    (h : (system J).Run P (.init allowed) es w) :
    w.executions j + w.deliveries Phase.opens j = w.starts j := by
  refine (run_invariant
    (I := fun w => w.executions j + w.deliveries Phase.opens j = w.starts j) h
    (ground_init allowed) rfl ?_).2
  intro w w' e hg hi hPe hs
  obtain ⟨hst, hr⟩ := hP w e hPe
  have hstep := opened_step (j := j) (step_cases hs) hg.bounded hst
  rw [hr] at hstep
  simp only [Bool.not_true, Bool.toNat_false] at hstep
  omega

/-- `on_success` is called once for the job, or at least twice. -/
theorem first_or_twice (h : (system J).Run P (.init allowed) es w) :
    (system J).Along (fun w e => firstSuccess j w e) (.init allowed) es ∨
      2 ≤ w.completions j := by
  refine h.along_or (I := fun _ => True) (B := fun w => 2 ≤ w.completions j) ?_ ?_ ?_ trivial
  · intro _ _ _ _ _ _
    trivial
  · intro w w' e _ htwice _ hs
    exact Nat.le_trans htwice (step_cases hs).completions_le
  · intro w w' e _ _ hb hs
    exact completions_of_breach hb (step_cases hs)

theorem run_first (hP : ∀ w e, P w e → firstSuccess j w e)
    (h : (system J).Run P (.init allowed) es w) : w.completions j ≤ 1 := by
  refine h.invariant (I := fun w => w.completions j ≤ 1) ?_ (Nat.zero_le 1)
  intro w w' e hi hPe hs
  exact completions_le_one (hP w e hPe) hi (step_cases hs)

/-- The increments of the counter are the calls of `on_success` that have come that far. -/
theorem run_successes (hP : ∀ w e, P w e → unbroken w e)
    (h : (system J).Run P (.init allowed) es w) :
    successes J j ((system J).past [] (.init allowed) es) + w.deliveries Phase.closes j =
      w.completions j := by
  refine (h.invariant_past (I := fun p w => Ground w ∧
    successes J j p + w.deliveries Phase.closes j = w.completions j) ?_
    (p := []) ⟨ground_init allowed, rfl⟩).2
  rintro p w w' e ⟨hg, hi⟩ hPe hs
  refine ⟨hg.step (step_cases hs), ?_⟩
  have hstep := closing_step (j := j) hs hg.bounded (hP w e hPe)
  have hcons : successes J j ((w, e) :: p) =
      successes J j p + (succeeds J j (w, e)).toNat := by
    cases hx : succeeds J j (w, e) <;> simp [successes, hx]
  omega

theorem run_reckoned (hP : ∀ w e, P w e → startsCommitted j w e ∧ storesWork w e)
    (h : (system J).Run P (.init allowed) es w) : Reckoned j w := by
  refine (run_invariant (I := Reckoned j) h (ground_init allowed) (reckoned_init j allowed) ?_).2
  intro w w' e hg hi hPe hs
  obtain ⟨hc, hw⟩ := hP w e hPe
  exact hi.step hg hc hw (step_cases hs)

/-- When the deliveries of the job do not overlap, nothing expires, and no lookup of the job
finds anything, `on_success` is called for the job once at most. -/
theorem run_serial (hP : ∀ w e, P w e → startsCommitted j w e ∧ storesWork w e ∧
      unbroken w e ∧ reachesExecute j w e ∧ sequential j w e ∧ unexpired j w e)
    (h : (system J).Run P (.init allowed) es w) :
    (system J).Along (fun w e => firstSuccess j w e) (.init allowed) es := by
  refine h.along (I := fun w => Ground w ∧ Enqueued w ∧ Copies w ∧ Serial j w) ?_ ?_
    ⟨ground_init allowed, enqueued_init allowed, copies_init allowed, serial_init j allowed⟩
  · rintro w w' e ⟨hg, hen, hcp, hser⟩ hPe hs
    have he := step_cases hs
    obtain ⟨hc, hw, hu, hr, hseq, hx⟩ := hP w e hPe
    exact ⟨hg.step he, hen.step hg he, hcp.step hg.bounded he,
      hser.step hg hen hcp hc hw hu hr hseq hx he⟩
  · rintro w e ⟨-, -, -, hser⟩ _
    exact hser.firstSuccess

/-- The accounting of a job is right if and only if every started delivery of it reaches
`execute()` and `on_success` is called for it once at most; and while its deliveries do not
overlap and its cached result does not expire, if and only if every started delivery reaches
`execute()`. -/
theorem accounted_iff {r : Job}
    (h : (system J).Run (fun w e => startsCommitted j w e ∧ storesWork w e ∧ unbroken w e)
      (.init allowed) es w)
    (hr : w.db.find j = some r) (hu : Unheld j w) :
    ((r.executionCount = w.executions j ∧
        successes J j ((system J).past [] (.init allowed) es) ≤ 1) ↔
      (system J).Along (fun w e => reachesExecute j w e ∧ firstSuccess j w e)
        (.init allowed) es) ∧
    ((system J).Along (fun w e => sequential j w e ∧ unexpired j w e) (.init allowed) es →
      ((r.executionCount = w.executions j ∧
          successes J j ((system J).past [] (.init allowed) es) ≤ 1) ↔
        (system J).Along (fun w e => reachesExecute j w e) (.init allowed) es)) := by
  have hcount : r.executionCount = w.starts j :=
    (run_reckoned (fun _ _ hp => ⟨hp.1, hp.2.1⟩) h).counted r hr
  have hsucc := run_successes (j := j) (fun _ _ hp => hp.2.2) h
  rw [deliveries_unheld hu, Nat.add_zero] at hsucc
  have hiff : (r.executionCount = w.executions j ∧
        successes J j ((system J).past [] (.init allowed) es) ≤ 1) ↔
      (system J).Along (fun w e => reachesExecute j w e ∧ firstSuccess j w e)
        (.init allowed) es := by
    rw [hcount, hsucc, Machine.along_and]
    constructor
    · rintro ⟨hexec, hone⟩
      constructor
      · rcases reached_or_short (j := j) (fun _ _ hp => hp.2.1) h with hreach | hshort
        · exact hreach
        · rw [deliveries_unheld hu, Nat.add_zero, hexec] at hshort
          exact absurd hshort (Nat.lt_irrefl _)
      · rcases first_or_twice (j := j) h with hfirst | htwice
        · exact hfirst
        · omega
    · rintro ⟨hreach, hfirst⟩
      have hall := run_reached (j := j) (fun _ _ hp => ⟨hp.1.2.1, hp.2⟩)
        (Machine.run_and.mpr ⟨h, hreach⟩)
      rw [deliveries_unheld hu, Nat.add_zero] at hall
      exact ⟨hall.symm, run_first (fun _ _ hp => hp.2) (Machine.run_and.mpr ⟨h, hfirst⟩)⟩
  refine ⟨hiff, ?_⟩
  intro hserial
  rw [hiff, Machine.along_and]
  constructor
  · exact And.left
  · intro hreach
    have hrun := Machine.run_and.mpr ⟨Machine.run_and.mpr ⟨h, hserial⟩, hreach⟩
    exact ⟨hreach, run_serial (fun _ _ hp =>
      ⟨hp.1.1.1, hp.1.1.2.1, hp.1.1.2.2, hp.2, hp.1.2.1, hp.1.2.2⟩) hrun⟩

end Run

/-! ## Concrete runs -/

theorem unheld_of_done {w : World} {j : Uuid} (h : ¬ w.Outstanding j) : Unheld j w := by
  intro s hs
  obtain ⟨m, worker, phase, hs', hj⟩ := heldFor_iff.mp hs
  exact h ⟨s, by rw [hs']; exact congrArg some hj⟩

/-- `execute()` raises once, and the retry succeeds. -/
def retriedEvents : List Event :=
  createEvents 0 "k" ++ startEvents 0 "v" ++
    [.work 0 (.ends (.exception ⟨"down", "Traceback"⟩)), .work 0 .returns, .work 0 .returns,
      .work 0 .returns, .tick 10] ++ startEvents 1 "v" ++ finishEvents 1

theorem accounted_iff_ping : ∃ w r, (system nullCodec).exec pingWorld retriedEvents = some w ∧
    w.db.find 0 = some r ∧ r.executionCount = w.executions 0 ∧
    successes nullCodec 0 ((system nullCodec).past [] pingWorld retriedEvents) ≤ 1 := by
  obtain ⟨w, r, hw, hr, hdone⟩ := exists_done retriedEvents (by decide)
  exact ⟨w, r, hw, hr, (accounted_iff (Machine.run_of_exec hw (by decide)) hr
    (unheld_of_done hdone)).1.mpr (by decide)⟩

/-- The worker is killed after `on_success`, before the acknowledgement, and the message is
delivered once more. -/
def replayedEvents : List Event :=
  createEvents 0 "k" ++ startEvents 0 "v" ++ (finishEvents 0).take 4 ++
    [.crash 0, .take 0 "v"] ++ List.replicate 6 (.work 0 .returns)

theorem accounting_distorted : ∃ w r, (system nullCodec).Run (fun w e =>
      (startsCommitted 0 w e ∧ storesWork w e ∧ unbroken w e) ∧
        sequential 0 w e ∧ unexpired 0 w e) pingWorld replayedEvents w ∧
    w.db.find 0 = some r ∧ Unheld 0 w ∧ r.executionCount = 2 ∧ w.executions 0 = 1 ∧
    successes nullCodec 0 ((system nullCodec).past [] pingWorld replayedEvents) = 2 := by
  obtain ⟨w, r, hw, hr, hdone⟩ := exists_done replayedEvents (by decide)
  have hobs : ((system nullCodec).exec pingWorld replayedEvents).map (fun w =>
      ((w.db.find 0).map Job.executionCount, w.executions 0)) = some (some 2, 1) := by decide
  rw [hw, Option.map_some, Option.some.injEq, hr] at hobs
  obtain ⟨hcount, hexec⟩ := Prod.mk.inj hobs
  exact ⟨w, r, Machine.run_of_exec hw (by decide), hr, unheld_of_done hdone,
    Option.some.inj hcount, hexec, by decide⟩

end Aegis
