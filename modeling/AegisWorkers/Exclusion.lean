/-
# `AegisWorkers.Exclusion` — how many workers have a job in hand at once

A job is carried by the message that waits for a worker, then by the worker, until the job has
its outcome or the retry message carries it on.  Pieces of deliveries hand the job on and do
not multiply it, and a crash gives it back to the queue.  What multiplies it is a second
delivery, an `execute()` that calls `self.retry` and is retried by `run` as well, and a crash
between the outcome and the acknowledgement.
-/
import Mathlib.Algebra.Order.BigOperators.Group.Finset
import AegisWorkers.Budget

namespace Aegis

open BaseTask JobService ReadCommitted

/-- The delivery still has the job in hand: its outcome is not over, and it is not handed on. -/
def Phase.carries : Phase → Nat
  | .retried => 0
  | .handled => 0
  | _ => 1

/-- A message for job `j` is waiting, or a worker has it in hand. -/
def Slot.carries (j : Uuid) : Slot → Nat
  | .empty => 0
  | .queued m => if m.jobId = j then 1 else 0
  | .delivered m _ phase => if m.jobId = j then phase.carries else 0

/-- The events that put one job in two hands. -/
def World.doubles (j : Uuid) (w : World) : Event → Nat
  | .redeliver s => if (w.slots s).jobId? = some j then 1 else 0
  | .crash s => if (w.slots s).jobId? = some j then 1 - (w.slots s).carries j else 0
  | .work s (.ends (.retry _)) => if (w.slots s).jobId? = some j then 1 else 0
  | _ => 0

section Pieces
variable {J : JsonCodec} {m : Message} {worker : Worker} {cached : Option String} {now : Time}
  {phase : Phase} {i : Input} {eff : Effects} {j : Uuid}

/-- `execute()` has called `self.retry`. -/
def BaseTask.Input.retries : Input → Nat
  | .ends (.retry _) => 1
  | _ => 0

theorem Phase.carries_le (phase : Phase) : phase.carries ≤ 1 := by
  cases phase <;> simp [Phase.carries]

theorem carries_other (x : Slot) (hx : x.jobId? ≠ some j) : x.carries j = 0 := by
  cases x with
  | empty => rfl
  | queued m => exact if_neg fun hj => hx (congrArg some hj)
  | delivered m worker phase => exact if_neg fun hj => hx (congrArg some hj)

/-- A piece hands the job on. -/
theorem Piece.hands_on (h : Piece J m worker cached now phase i eff) (hj : m.jobId = j) :
    (eff.slot m worker).carries j + eff.queueLoad (Slot.carries j) ≤ phase.carries + i.retries := by
  have hautoretry : ∀ exc : Exc,
      ((autoretry m exc).next.map Phase.carries).getD 0 ≤ 1 := by
    intro exc
    rcases autoretry_cases m exc with ⟨-, ha⟩ | ⟨-, ha⟩ <;> rw [ha]
    · exact Phase.carries_le (.retrying defaultRetryDelay false)
    · exact Phase.carries_le (.failing exc false .send)
  rw [slot_load (f := Slot.carries j) rfl fun _ => if_pos hj]
  unfold Effects.queueLoad
  cases h with
  | undecodable _ => exact hautoretry _
  | lookupFails exc => exact hautoretry _
  | retryFails delay exc => exact hautoretry _
  | failure exc again stage => cases stage <;> cases again <;> simp [onFailure, Phase.carries]
  | failureFails exc exc' again stage _ =>
      cases stage <;> cases again <;> simp [onFailure, Phase.carries]
  | _ =>
      simp [Phase.carries, Slot.carries, beforeStart, onSuccess, countSuccess,
        storeIdempotencyResult, BaseTask.retry, BaseTask.onRetry, retryMessage, Input.retries, hj]

end Pieces

section Steps
variable {J : JsonCodec} {w w' : World} {e : Event} {j : Uuid}

/-- One step: a job gets into more hands by its message, or by an event that doubles it. -/
theorem carries_step (hg : Ground w) (hs : (system J).step w e = some w') :
    w'.load (Slot.carries j) + (w.publishedFor j).length ≤
      w.load (Slot.carries j) + (w'.publishedFor j).length + w.doubles j e := by
  have he := step_cases hs
  have hquiet : w'.published = w.published →
      w'.load (Slot.carries j) ≤ w.load (Slot.carries j) + w.doubles j e →
      w'.load (Slot.carries j) + (w.publishedFor j).length ≤
        w.load (Slot.carries j) + (w'.publishedFor j).length + w.doubles j e := by
    intro hp hload
    rw [World.publishedFor, World.publishedFor, hp]
    omega
  have hpub : e.call? = none → w'.published = w.published := fun hc => (he.offstage hc).published
  cases he.shift (f := Slot.carries j) hg.bounded rfl with
  | same _ hp hload => exact hquiet hp (hload ▸ Nat.le_add_right _ _)
  | @sent c sub _ _ _ hp hload =>
      have hone : (Slot.queued (message sub w.uuid)).carries j =
          if (message sub w.uuid).jobId = j then 1 else 0 := rfl
      rw [publishedFor_sent hp, hload, hone]
      omega
  | dropped hev _ hload =>
      subst hev
      exact hquiet (hpub rfl) (by omega)
  | @taken s worker m hev _ hload =>
      subst hev
      have hsame : (Slot.delivered m worker .received).carries j = (Slot.queued m).carries j := rfl
      exact hquiet (hpub rfl) (by omega)
  | @worked s i m worker phase eff db hev hslot hp hw hload =>
      subst hev
      refine hquiet (hpub rfl) ?_
      have hdel : (Slot.delivered m worker phase).carries j =
          if m.jobId = j then phase.carries else 0 := rfl
      by_cases hj : m.jobId = j
      · have hpay := hp.hands_on hj
        have hown : i.retries ≤ w.doubles j (.work s i) := by
          unfold Input.retries
          split
          · exact Nat.le_of_eq (if_pos ((jobId?_delivered hslot).mpr hj)).symm
          · exact Nat.zero_le _
        rw [hdel, if_pos hj] at hload
        omega
      · have hnone := hp.load_other (f := Slot.carries j) carries_other hj
        rw [hdel, if_neg hj] at hload
        omega
  | @crashed s m worker phase hev hslot hload =>
      subst hev
      refine hquiet (hpub rfl) ?_
      have hdel : (Slot.delivered m worker phase).carries j =
          if m.jobId = j then phase.carries else 0 := rfl
      have hqueued : (Slot.queued m).carries j = if m.jobId = j then 1 else 0 := rfl
      have hdoubles : w.doubles j (.crash s) =
          if m.jobId = j then 1 - (if m.jobId = j then phase.carries else 0) else 0 := by
        simp only [World.doubles, jobId?_delivered hslot]
        rw [hslot]
        rfl
      rw [hdoubles]
      rw [hdel, hqueued] at hload
      have hle := phase.carries_le
      split_ifs at hload ⊢ <;> omega
  | @redelivered s m worker phase hev hslot hload =>
      subst hev
      refine hquiet (hpub rfl) ?_
      have hqueued : (Slot.queued m).carries j = if m.jobId = j then 1 else 0 := rfl
      have hdoubles : w.doubles j (.redeliver s) = if m.jobId = j then 1 else 0 := by
        simp only [World.doubles, jobId?_delivered hslot]
      rw [hdoubles]
      omega

end Steps

/-- Two slots that carry the job add two to the load. -/
theorem load_two {w : World} {j : Uuid} (hb : Bounded w) {s s' : SlotId} (hne : s ≠ s')
    (hs : (w.slots s).carries j = 1) (hs' : (w.slots s').carries j = 1) :
    2 ≤ w.load (Slot.carries j) := by
  have hlt : ∀ {s : SlotId}, (w.slots s).carries j = 1 → s ∈ Finset.range w.nextSlot := by
    intro s hone
    refine Finset.mem_range.mpr (hb.lt ?_)
    intro hempty
    rw [hempty] at hone
    cases hone
  have hpair : ∑ x ∈ {s, s'}, (w.slots x).carries j = 2 := by
    rw [Finset.sum_pair hne, hs, hs']
  rw [← hpair]
  refine Finset.sum_le_sum_of_subset ?_
  intro x hx
  rcases Finset.mem_insert.mp hx with rfl | hx
  · exact hlt hs
  · exact Finset.mem_singleton.mp hx ▸ hlt hs'

/-- At any moment a job is in no more hands than one and the number of second deliveries,
`self.retry` calls and late crashes that have struck it; without these, no two workers have it
in hand and no message for it waits while a worker has, whatever else fails or crashes. -/
theorem mutual_exclusion {J : JsonCodec} {allowed : List String} {es : List Event} {w : World}
    (h : (system J).Run (fun _ _ => True) (.init allowed) es w) {r : Job} (hr : r ∈ w.db.rows) :
    w.load (Slot.carries r.id) ≤
      1 + (system J).total (World.doubles r.id) (.init allowed) es ∧
    ((system J).total (World.doubles r.id) (.init allowed) es = 0 →
      ∀ s s', (w.slots s).carries r.id = 1 → (w.slots s').carries r.id = 1 → s = s') := by
  obtain ⟨m, hm, -⟩ := (run_enqueued h).2.rows r hr
  have hrun := h.accounts (I := Ground) (World.load (Slot.carries r.id)) (fun _ => 0)
    (fun w => (w.publishedFor r.id).length) (World.doubles r.id)
    (fun hg _ hs => hg.step (step_cases hs)) ?_ (ground_init allowed)
  · have hzero : (World.init allowed).load (Slot.carries r.id) = 0 := rfl
    have hnone : ((World.init allowed).publishedFor r.id).length = 0 := rfl
    rw [hm, List.length_singleton] at hrun
    refine ⟨by omega, ?_⟩
    intro hcalm s s' hs hs'
    by_contra hne
    have htwo := load_two (run_enqueued h).1.bounded hne hs hs'
    omega
  · intro v v' e hg _ hs
    have hstep := carries_step (j := r.id) hg hs
    omega

/-- A worker is killed after it has published the retry, and its message is taken again. -/
def lateCrashEvents : List Event :=
  createEvents 0 "k" ++ startEvents 0 "v" ++
    [.work 0 (.ends (.exception ⟨"failed", "Traceback"⟩)), .work 0 .returns, .crash 0, .tick 10] ++
    startEvents 0 "v" ++ startEvents 1 "u"

/-- Two workers execute the job. -/
theorem mutual_exclusion_ping : ∃ w r,
    (system nullCodec).exec pingWorld lateCrashEvents = some w ∧ r ∈ w.db.rows ∧
    w.load (Slot.carries r.id) = 2 ∧ w.load (Slot.carries r.id) ≤
      1 + (system nullCodec).total (World.doubles r.id) pingWorld lateCrashEvents := by
  obtain ⟨w, hw, hrun, hobs⟩ := Machine.exists_run_obs (system nullCodec) (fun _ _ => True)
    pingWorld lateCrashEvents (fun w => ((w.db.find 0).isSome, w.load (Slot.carries 0))) (true, 2)
    (by decide +kernel) (Machine.along_of_mem _ _ fun _ _ _ => trivial)
  obtain ⟨hsome, hload⟩ := Prod.mk.inj hobs
  obtain ⟨r, hr⟩ := Option.isSome_iff_exists.mp hsome
  obtain ⟨hmem, hid⟩ := Store.find_eq_some.mp hr
  refine ⟨w, r, hw, hmem, ?_, (mutual_exclusion hrun hmem).1⟩
  rw [hid, hload]

end Aegis
