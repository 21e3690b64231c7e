/-
# `AegisWorkers.Gauge` — the gauge `dlq_size` of one worker process

`update_dlq_metrics` sets the gauge, to LLEN or to the sentinel -1, and `on_failure`
increments it.  A worker process runs one task at a time, so the two take turns, and each is
one step here.  What a step does to the database and to the slots stays with the pieces of
`AegisWorkers.BaseTask` that `on_failure` is made of (`onFailure_exec`).

    w.Tells failed     what the gauge has to show
    refreshFailed p    the latest refresh of the calls `p` failed
    c.exact failed     the call changes gauge and queue alike
-/
import AegisWorkers.Steps

namespace Aegis

open BaseTask

/-! ## The process -/

/-- A call in the worker process, with the answers of its external calls. -/
inductive GaugeCall where
  /-- `on_failure` for the delivery of `m` in slot `s`: its publish, its two UPDATEs -/
  | onFailure (s : SlotId) (m : Message) (worker : Worker) (exc : Exc) (again : Bool)
      (sent failed buried : Bool)
  /-- `update_dlq_metrics`: its LLEN -/
  | updateDlqMetrics (ok : Bool)

/-- `on_failure` from its call to its return. -/
def World.onFailure (J : JsonCodec) (w : World) (s : SlotId) (m : Message) (worker : Worker)
    (exc : Exc) (again sent failed buried : Bool) : Option World :=
  (w.perform J s m worker (BaseTask.onFailure exc again sent .send)).bind fun w =>
    (w.perform J s m worker (BaseTask.onFailure exc again failed .failed)).bind fun w =>
      (w.perform J s m worker (BaseTask.onFailure exc again buried .dlq)).bind fun w =>
        w.perform J s m worker (BaseTask.onFailure exc again true .count)

/-- One worker process, as far as its gauge goes. -/
def workerProcess (J : JsonCodec) : Machine World GaugeCall where
  step w
    | .onFailure s m worker exc again sent failed buried =>
        w.onFailure J s m worker exc again sent failed buried
    | .updateDlqMetrics ok => some (w.updateDlqMetrics ok)

/-! ## What the gauge has to show -/

/-- Whether the latest refresh failed, after one more call. -/
def GaugeCall.refreshFailed (failed : Bool) : GaugeCall → Bool
  | .onFailure .. => failed
  | .updateDlqMetrics ok => !ok

/-- The latest refresh of the calls failed. -/
def refreshFailed (calls : List GaugeCall) : Bool :=
  calls.foldl GaugeCall.refreshFailed false

/-- The gauge shows the sentinel after a failed refresh, and the length of the queue otherwise. -/
def World.Tells (failed : Bool) (w : World) : Prop :=
  w.dlqSize = if failed then -1 else (w.dlq.length : Int)

/-- An `on_failure` increments the gauge whatever the gauge shows and whether or not it has
published: the call is exact if the gauge shows a length and the publish returned. -/
def GaugeCall.exact (failed : Bool) : GaugeCall → Bool
  | .onFailure _ _ _ _ _ sent _ _ => !failed && sent
  | .updateDlqMetrics _ => true

section Process
variable {J : JsonCodec} {w w' : World} {s : SlotId} {m : Message} {worker : Worker} {exc : Exc}
  {again sent failed buried : Bool}

theorem dlq_perform {eff : Effects} (h : w.perform J s m worker eff = some w') :
    w'.dlqSize = w.dlqSize + (if eff.dlqSizeInc then 1 else 0) ∧
      w'.dlq.length = w.dlq.length + eff.dlq.isSome.toNat := by
  obtain ⟨db, -, rfl⟩ := Option.map_eq_some_iff.mp h
  constructor
  · cases hinc : eff.dlqSizeInc <;> simp [World.apply, hinc]
  · cases hdlq : eff.dlq <;> simp [World.apply, hdlq]

/-- What `on_failure` does to the gauge and to the queue. -/
theorem dlq_onFailure (h : w.onFailure J s m worker exc again sent failed buried = some w') :
    w'.dlqSize = w.dlqSize + 1 ∧ w'.dlq.length = w.dlq.length + sent.toNat := by
  obtain ⟨w₁, h₁, h⟩ := Option.bind_eq_some_iff.mp h
  obtain ⟨w₂, h₂, h⟩ := Option.bind_eq_some_iff.mp h
  obtain ⟨w₃, h₃, h₄⟩ := Option.bind_eq_some_iff.mp h
  obtain ⟨hsize₁, hlen₁⟩ := dlq_perform h₁
  obtain ⟨hsize₂, hlen₂⟩ := dlq_perform h₂
  obtain ⟨hsize₃, hlen₃⟩ := dlq_perform h₃
  obtain ⟨hsize₄, hlen₄⟩ := dlq_perform h₄
  have hsent : (BaseTask.onFailure exc again sent .send).dlq.isSome = sent := by
    cases sent <;> rfl
  constructor
  · rw [hsize₄, hsize₃, hsize₂, hsize₁]
    simp [BaseTask.onFailure]
  · rw [hlen₄, hlen₃, hlen₂, hlen₁, hsent]
    rfl

/-- The answer of an external call. -/
def answer (ok : Bool) : Input := if ok then .returns else .raises ⟨"", ""⟩

theorem step_failing {stage : FailureStage} (ok : Bool) (hcall : ok = false → stage ≠ .count)
    (hs : w.slots s = .delivered m worker (.failing exc again stage)) :
    (system J).step w (.work s (answer ok)) =
      w.perform J s m worker (BaseTask.onFailure exc again ok stage) := by
  change w.work J s (answer ok) = _
  cases ok with
  | true =>
      simp only [World.work, hs]
      rfl
  | false =>
      simp only [World.work, hs, answer, Bool.false_eq_true, if_false, BaseTask.step,
        hcall rfl]
      rfl

/-- `on_failure` is four pieces of its delivery, three external calls and the counting. -/
theorem onFailure_exec (hs : w.slots s = .delivered m worker (.failing exc again .send)) :
    w.onFailure J s m worker exc again sent failed buried =
      (system J).exec w [.work s (answer sent), .work s (answer failed),
        .work s (answer buried), .work s (answer true)] := by
  have hnext : ∀ {w w' : World} {eff : Effects} {phase : Phase}, eff.next = some phase →
      w.perform J s m worker eff = some w' → w'.slots s = .delivered m worker phase := by
    intro w w' eff phase hn hp
    obtain ⟨db, -, rfl⟩ := Option.map_eq_some_iff.mp hp
    exact slots_apply_some hn
  simp only [World.onFailure, Machine.exec, step_failing sent (fun _ => FailureStage.noConfusion) hs]
  refine Option.bind_congr ?_
  intro w₁ h₁
  rw [step_failing failed (fun _ => FailureStage.noConfusion) (hnext rfl h₁)]
  refine Option.bind_congr ?_
  intro w₂ h₂
  rw [step_failing buried (fun _ => FailureStage.noConfusion) (hnext rfl h₂)]
  refine Option.bind_congr ?_
  intro w₃ h₃
  rw [step_failing true (fun h => Bool.noConfusion h) (hnext rfl h₃)]
  simp only [Option.bind_fun_some]

/-- One call keeps what the gauge shows right if and only if it is exact. -/
theorem tells_step {c : GaugeCall} {unknown : Bool} (ht : w.Tells unknown)
    (hs : (workerProcess J).step w c = some w') :
    w'.Tells (c.refreshFailed unknown) ↔ c.exact unknown := by
  cases c with
  | updateDlqMetrics ok =>
      obtain rfl := Option.some.inj hs
      cases ok <;> simp [World.Tells, World.updateDlqMetrics, GaugeCall.refreshFailed,
        GaugeCall.exact]
  | onFailure s m worker exc again sent failed buried =>
      obtain ⟨hsize, hlen⟩ := dlq_onFailure hs
      simp only [World.Tells] at ht
      simp only [World.Tells, GaugeCall.refreshFailed, GaugeCall.exact, hsize, hlen, ht]
      cases unknown with
      | true => simp
      | false =>
          cases sent with
          | true => simp
          | false =>
              refine iff_of_false ?_ nofun
              simp only [Bool.false_eq_true, if_false, Bool.toNat_false]
              omega

/-- The gauge tells the truth, or says it does not know, after every call if and only if every
`on_failure` publishes its message and comes while the gauge shows a length. -/
theorem gauge_tells_iff {calls : List GaugeCall}
    (h : (workerProcess J).Run (fun _ _ => True) w calls w') (hqueue : w.dlq = [])
    (hgauge : w.dlqSize = 0) :
    (workerProcess J).Throughout (fun p w => w.Tells (refreshFailed p)) w calls ↔
      ∀ i (hi : i < calls.length), calls[i].exact (refreshFailed (calls.take i)) := by
  -- the same from any state of the gauge that is right
  have hall : ∀ unknown : Bool, w.Tells unknown →
      ((workerProcess J).Throughout
          (fun p w => w.Tells (p.foldl GaugeCall.refreshFailed unknown)) w calls ↔
        ∀ i (hi : i < calls.length),
          calls[i].exact ((calls.take i).foldl GaugeCall.refreshFailed unknown)) := by
    clear hqueue hgauge
    induction h with
    | nil w =>
        intro unknown ht
        rw [Machine.throughout_nil]
        exact ⟨fun _ i hi => absurd hi (Nat.not_lt_zero i), fun _ => ht⟩
    | @cons w w₁ w' c calls _ hs _ ih =>
        intro unknown ht
        rw [Machine.throughout_cons hs]
        constructor
        · rintro ⟨-, hrest⟩ i hi
          have ht₁ : w₁.Tells (c.refreshFailed unknown) :=
            hrest [] w₁ (List.nil_prefix ..) rfl
          cases i with
          | zero => exact (tells_step ht hs).mp ht₁
          | succ i => exact (ih _ ht₁).mp hrest i (Nat.lt_of_succ_lt_succ hi)
        · intro hexact
          have ht₁ : w₁.Tells (c.refreshFailed unknown) :=
            (tells_step ht hs).mpr (hexact 0 (Nat.succ_pos _))
          refine ⟨ht, (ih _ ht₁).mpr ?_⟩
          intro i hi
          exact hexact (i + 1) (Nat.succ_lt_succ hi)
  exact hall false (by simp [World.Tells, hqueue, hgauge])

end Process

/-! ## Concrete calls -/

/-- The message of a job that has failed. -/
def failedMessage : Message where
  id := 1
  taskName := "ping"
  jobId := 0
  idempotencyKey := "k"
  payload := .obj []

/-- `on_failure` for it, whose publish returns or raises. -/
def failedCall (sent : Bool) : GaugeCall :=
  .onFailure 0 failedMessage "v" ⟨"invalid", "Traceback"⟩ false sent true true

/-- An `on_failure`, a refresh that fails, one that does not, and an `on_failure`. -/
def gaugeCalls : List GaugeCall :=
  [failedCall true, .updateDlqMetrics false, .updateDlqMetrics true, failedCall true]

theorem gauge_tells_iff_ping : (workerProcess nullCodec).Throughout
    (fun p w => w.Tells (refreshFailed p)) pingWorld gaugeCalls := by
  have hsome : ((workerProcess nullCodec).exec pingWorld gaugeCalls).isSome := by decide
  obtain ⟨w, hw⟩ := Option.isSome_iff_exists.mp hsome
  exact (gauge_tells_iff (Machine.run_of_computed hw) rfl rfl).mpr (by decide)

/-- The publish fails, or the latest refresh has failed: the gauge is 1 over an empty queue, or
0 where it should be -1. -/
theorem gauge_lies :
    ((workerProcess nullCodec).exec pingWorld [failedCall false]).map
      (fun w => (w.dlqSize, w.dlq.length)) = some (1, 0) ∧
    ((workerProcess nullCodec).exec pingWorld [.updateDlqMetrics false, failedCall true]).map
      (fun w => (w.dlqSize, w.dlq.length)) = some (0, 1) ∧
    ¬ ∀ calls w, (workerProcess nullCodec).Run (fun _ _ => True) pingWorld calls w →
      (workerProcess nullCodec).Throughout (fun p w => w.Tells (refreshFailed p)) pingWorld
        calls := by
  have hlie : ((workerProcess nullCodec).exec pingWorld [failedCall false]).map
      (fun w => (w.dlqSize, w.dlq.length)) = some (1, 0) := by decide
  refine ⟨hlie, by decide, ?_⟩
  intro hall
  obtain ⟨w, hw, hobs⟩ := Option.map_eq_some_iff.mp hlie
  obtain ⟨hsize, hlen⟩ := Prod.mk.inj hobs
  have htells := hall _ w (Machine.run_of_computed hw) _ w (List.prefix_refl _) hw
  simp [World.Tells, refreshFailed, failedCall, GaugeCall.refreshFailed, hsize, hlen] at htells

end Aegis
