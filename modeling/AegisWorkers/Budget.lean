/-
# `AegisWorkers.Budget` — how often a job is executed

A published message carries a budget of `execute()` calls: one for each attempt that its
five retries allow.  A failed attempt leaves one message behind, or two where `execute()` has
called `self.retry` itself, so the budget is 6 or 63.  A worker pays for every call of
`execute()` out of the budget of its message; only a crash and a second delivery fill a
budget up again.
-/
import AegisWorkers.Load

namespace Aegis

open BaseTask JobService ReadCommitted

/-- What `k` retries allow, if each failed attempt leaves `b` messages behind. -/
def attemptsLeft (b : Nat) : Nat → Nat
  | 0 => 1
  | k + 1 => 1 + b * attemptsLeft b k

/-- The budget of a message that has been retried `n` times. -/
def messageBudget (b n : Nat) : Nat := attemptsLeft b (5 - n)

/-- What a delivery of attempt `n` has left. -/
def Phase.budget (b n : Nat) : Phase → Nat
  | .received => messageBudget b n
  | .started => messageBudget b n
  | .missed => messageBudget b n
  | .executing => messageBudget b n - 1
  | .retrying _ _ => messageBudget b (n + 1)
  | _ => 0

/-- What a slot has left for the job `j`. -/
def Slot.budget (b : Nat) (j : Uuid) : Slot → Nat
  | .empty => 0
  | .queued m => if m.jobId = j then messageBudget b m.retries else 0
  | .delivered m _ phase => if m.jobId = j then phase.budget b m.retries else 0

/-- A crash or a second delivery, of a message of the job `j`. -/
def World.disturbed (j : Uuid) (w : World) : Event → Nat
  | .crash s => if (w.slots s).jobId? = some j then 1 else 0
  | .redeliver s => if (w.slots s).jobId? = some j then 1 else 0
  | _ => 0

/-- `execute()` calls `self.retry`. -/
def Event.ownRetry : Event → Bool
  | .work _ (.ends (.retry _)) => true
  | _ => false

section Pieces
variable {J : JsonCodec} {m : Message} {worker : Worker} {cached : Option String} {now : Time}
  {phase : Phase} {i : Input} {eff : Effects} {b : Nat} {j : Uuid}

theorem messageBudget_step {n : Nat} (h : n < maxRetries) :
    messageBudget b n = 1 + b * messageBudget b (n + 1) := by
  simp only [maxRetries] at h
  obtain ⟨k, hk⟩ : ∃ k, 5 - n = k + 1 := ⟨4 - n, by omega⟩
  have hk' : 5 - (n + 1) = k := by omega
  simp only [messageBudget, hk, hk', attemptsLeft]

theorem messageBudget_pos (b n : Nat) : 1 ≤ messageBudget b n := by
  unfold messageBudget
  cases 5 - n with
  | zero => exact Nat.le_refl _
  | succ k => exact Nat.le_add_right _ _

theorem attemptsLeft_mono (hb : 1 ≤ b) {k l : Nat} (h : k ≤ l) :
    attemptsLeft b k ≤ attemptsLeft b l := by
  induction h with
  | refl => exact Nat.le_refl _
  | step _ ih => exact ih.trans (Nat.le_add_left_of_le (Nat.le_mul_of_pos_left _ hb))

theorem messageBudget_anti (hb : 1 ≤ b) {n n' : Nat} (h : n ≤ n') :
    messageBudget b n' ≤ messageBudget b n :=
  attemptsLeft_mono hb (Nat.sub_le_sub_left h 5)

theorem budget_other (x : Slot) (hx : x.jobId? ≠ some j) : x.budget b j = 0 := by
  cases x with
  | empty => rfl
  | queued m => exact if_neg fun hj => hx (congrArg some hj)
  | delivered m worker phase => exact if_neg fun hj => hx (congrArg some hj)

/-- A piece pays for the call of `execute()` it makes, and for the messages it leaves behind. -/
theorem Piece.affords (h : Piece J m worker cached now phase i eff) (hb : 1 ≤ b)
    (hown : b = 1 → ∀ delay, i ≠ .ends (.retry delay)) (hj : m.jobId = j) :
    (eff.slot m worker).budget b j + eff.queueLoad (Slot.budget b j) + phase.executes ≤
      phase.budget b m.retries := by
  have hpos := messageBudget_pos b m.retries
  have hone : ∀ {k : Nat}, m.retries < maxRetries → k = messageBudget b (m.retries + 1) →
      k + 1 ≤ messageBudget b m.retries := by
    rintro k hlt rfl
    rw [messageBudget_step hlt, Nat.add_comm]
    exact Nat.add_le_add_left (Nat.le_mul_of_pos_left _ hb) 1
  have hautoretry : ∀ exc : Exc, ((autoretry m exc).next.map (Phase.budget b m.retries)).getD 0 ≤
      messageBudget b (m.retries + 1) := by
    intro exc
    rcases autoretry_cases m exc with ⟨-, ha⟩ | ⟨-, ha⟩ <;> rw [ha]
    · exact Nat.le_refl _
    · exact Nat.zero_le _
  have hless : messageBudget b (m.retries + 1) ≤ messageBudget b m.retries :=
    messageBudget_anti hb (Nat.le_succ _)
  rw [slot_load (f := Slot.budget b j) rfl fun _ => if_pos hj]
  unfold Effects.queueLoad
  cases h with
  | undecodable _ => exact (hautoretry _).trans hless
  | lookupFails exc => exact (hautoretry _).trans hless
  | retryFails delay exc => exact hautoretry _
  | again exc hlt =>
      have hnext := hone hlt rfl
      simp only [Option.map_some, Option.getD_some, Option.map_none, Option.getD_none,
        Phase.budget, Phase.executes]
      omega
  | ownRetry delay hlt =>
      have htwo : 2 ≤ b := by
        rcases Nat.lt_or_eq_of_le hb with hlt' | heq
        · exact hlt'
        · exact absurd rfl (hown heq.symm delay)
      have hstep := messageBudget_step (b := b) hlt
      have hmul : 2 * messageBudget b (m.retries + 1) ≤ b * messageBudget b (m.retries + 1) :=
        Nat.mul_le_mul_right _ htwo
      simp only [Option.map_some, Option.getD_some, Phase.budget, Slot.budget, retryMessage, hj,
        if_true, Phase.executes]
      omega
  | execute =>
      simp only [Option.map_some, Option.getD_some, Option.map_none, Option.getD_none,
        Phase.budget, Phase.executes]
      omega
  | failure exc again stage =>
      cases stage <;> cases again <;> simp [onFailure, Phase.budget, Phase.executes]
  | failureFails exc exc' again stage _ =>
      cases stage <;> cases again <;> simp [onFailure, Phase.budget, Phase.executes]
  | _ =>
      simp [Phase.budget, Slot.budget, beforeStart, onSuccess, countSuccess,
        storeIdempotencyResult, BaseTask.retry, BaseTask.onRetry, retryMessage, Phase.executes, hj]

end Pieces

section Steps
variable {J : JsonCodec} {w w' : World} {e : Event} {b : Nat} {j : Uuid}

theorem budget_queued (hb : 1 ≤ b) (m : Message) :
    (Slot.queued m).budget b j ≤ messageBudget b 0 * (if m.jobId = j then 1 else 0) := by
  simp only [Slot.budget]
  split
  · rw [Nat.mul_one]
    exact messageBudget_anti hb (Nat.zero_le _)
  · exact Nat.zero_le _

theorem publishedFor_sent {m : Message} (h : w'.published = m :: w.published) :
    (w'.publishedFor j).length = (w.publishedFor j).length + if m.jobId = j then 1 else 0 := by
  simp only [World.publishedFor, h]
  by_cases hj : m.jobId = j <;> simp [hj]

/-- One step: what is executed is paid for, by what is published and what is disturbed. -/
theorem budget_step (hg : Ground w) (hb : 1 ≤ b) (hown : b = 1 → e.ownRetry = false)
    (hs : (system J).step w e = some w') :
    w'.load (Slot.budget b j) + w'.executions j + messageBudget b 0 * (w.publishedFor j).length ≤
      w.load (Slot.budget b j) + w.executions j +
        messageBudget b 0 * (w'.publishedFor j).length + messageBudget b 0 * w.disturbed j e := by
  have he := step_cases hs
  have hquiet : w'.published = w.published → (∀ s i, e ≠ .work s i) →
      w'.load (Slot.budget b j) ≤ w.load (Slot.budget b j) + messageBudget b 0 * w.disturbed j e →
      w'.load (Slot.budget b j) + w'.executions j +
        messageBudget b 0 * (w.publishedFor j).length ≤
      w.load (Slot.budget b j) + w.executions j +
        messageBudget b 0 * (w'.publishedFor j).length + messageBudget b 0 * w.disturbed j e := by
    intro hp hw hload
    rw [he.executions hw, World.publishedFor, World.publishedFor, hp]
    omega
  have hpub : e.call? = none → w'.published = w.published := fun hc => (he.offstage hc).published
  cases he.shift (f := Slot.budget b j) hg.bounded rfl with
  | same hsame hp hload =>
      refine hquiet hp ?_ (hload ▸ Nat.le_add_right _ _)
      rintro s i rfl
      rcases hsame with hamb | ⟨c, hc⟩
      · cases hamb
      · cases hc
  | @sent c sub hc hx hx' hp hload =>
      have hw : ∀ s i, e ≠ .work s i := by
        rintro s i rfl
        cases hc
      have hqueued := budget_queued (j := j) hb (message sub w.uuid)
      rw [he.executions hw, publishedFor_sent hp, Nat.mul_add, hload]
      omega
  | dropped hev _ hload =>
      subst hev
      exact hquiet (hpub rfl) (fun s i he => by cases he) (by omega)
  | @taken s worker m hev _ hload =>
      subst hev
      have htaken : (Slot.delivered m worker .received).budget b j =
          (Slot.queued m).budget b j := rfl
      exact hquiet (hpub rfl) (fun s i he => by cases he) (by omega)
  | @worked s i m worker phase eff db hev hslot hp hw hload =>
      subst hev
      have hexec : w'.executions j = (if m.jobId = j then phase.executes else 0) + w.executions j :=
        hw ▸ executions_apply hp
      have hpubs : w'.publishedFor j = w.publishedFor j := by
        rw [World.publishedFor, hpub rfl]
        rfl
      rw [hexec, hpubs]
      by_cases hj : m.jobId = j
      · have hpay := hp.affords hb ?_ hj
        · have hdel : (Slot.delivered m worker phase).budget b j = phase.budget b m.retries :=
            if_pos hj
          rw [if_pos hj]
          omega
        · rintro hone delay rfl
          cases hown hone
      · have hnone := hp.load_other (f := Slot.budget b j) budget_other hj
        rw [if_neg hj]
        omega
  | @crashed s m worker phase hev hslot hload =>
      subst hev
      have hqueued := budget_queued (j := j) hb m
      have hdist : w.disturbed j (.crash s) = if m.jobId = j then 1 else 0 := by
        simp only [World.disturbed, jobId?_delivered hslot]
      exact hquiet (hpub rfl) (fun s i he => by cases he) (by rw [hdist]; omega)
  | @redelivered s m worker phase hev hslot hload =>
      subst hev
      have hqueued := budget_queued (j := j) hb m
      have hdist : w.disturbed j (.redeliver s) = if m.jobId = j then 1 else 0 := by
        simp only [World.disturbed, jobId?_delivered hslot]
      exact hquiet (hpub rfl) (fun s i he => by cases he) (by rw [hdist]; omega)

end Steps

/-- In every run the executions of a job are no more than its messages, its crashes and its
second deliveries pay for. -/
theorem run_budget {J : JsonCodec} {P : World → Event → Prop} {allowed : List String}
    {es : List Event} {w : World} {b : Nat} {j : Uuid} (hb : 1 ≤ b)
    (hP : ∀ s e, P s e → b = 1 → e.ownRetry = false)
    (h : (system J).Run P (.init allowed) es w) :
    w.executions j ≤ messageBudget b 0 * (w.publishedFor j).length +
      messageBudget b 0 * (system J).total (World.disturbed j) (.init allowed) es := by
  have hrun := h.accounts (I := Ground) (World.load (Slot.budget b j)) (fun w => w.executions j)
    (fun w => messageBudget b 0 * (w.publishedFor j).length)
    (fun w e => messageBudget b 0 * w.disturbed j e) ?_ ?_ (ground_init allowed)
  · rw [h.total_mul] at hrun
    have hzero : (World.init allowed).load (Slot.budget b j) = 0 := rfl
    have hnone : (World.init allowed).executions j = 0 := rfl
    omega
  · intro v v' e hg _ hs
    exact hg.step (step_cases hs)
  · intro v v' e hg hPe hs
    exact budget_step hg hb (hP _ _ hPe) hs

/-- A job is executed at most 63 times, and 63 times more for each crash and each second
delivery of one of its messages; where `execute()` never calls `self.retry`, 6 times. -/
theorem executions_bounded {J : JsonCodec} {allowed : List String} {es : List Event} {w : World}
    (h : (system J).Run (fun _ _ => True) (.init allowed) es w) {r : Job} (hr : r ∈ w.db.rows) :
    w.executions r.id ≤ 63 * (1 + (system J).total (World.disturbed r.id) (.init allowed) es) ∧
    ((system J).Along (fun _ e => e.ownRetry = false) (.init allowed) es →
      w.executions r.id ≤
        6 * (1 + (system J).total (World.disturbed r.id) (.init allowed) es)) := by
  obtain ⟨m, hm, -⟩ := (run_enqueued h).2.rows r hr
  refine ⟨?_, ?_⟩
  · have hrun := run_budget (b := 2) (j := r.id) (Nat.le_succ 1)
      (fun _ _ _ htwo => absurd htwo (Nat.succ_ne_self 1)) h
    have hbudget : messageBudget 2 0 = 63 := rfl
    rw [hm, List.length_singleton, hbudget] at hrun
    omega
  · intro hown
    have hrun := run_budget (b := 1) (j := r.id) (Nat.le_refl 1) (fun _ _ hP _ => hP.2)
      (Machine.run_and.mpr ⟨h, hown⟩)
    have hbudget : messageBudget 1 0 = 6 := rfl
    rw [hm, List.length_singleton, hbudget] at hrun
    omega

/-- One attempt: `execute()` calls `self.retry` while it can, and fails in the end. -/
def roundEvents (s : SlotId) : List Event :=
  .tick 1000 :: .take s "v" :: List.replicate 3 (.work s .returns) ++
    (if s < 31 then .work s (.ends (.retry 0)) :: List.replicate 3 (.work s .returns)
    else .work s (.ends (.exception ⟨"failed", "Traceback"⟩)) ::
      List.replicate 5 (.work s .returns))

/-- A job all of whose attempts call `self.retry`, without a crash or a second delivery. -/
def branchingEvents : List Event :=
  createEvents 0 "k" ++ (List.range 63).flatMap roundEvents

/-- The bound is reached. -/
theorem executions_bounded_ping : ∃ w r, (system nullCodec).exec pingWorld branchingEvents = some w ∧
    r ∈ w.db.rows ∧ (system nullCodec).total (World.disturbed r.id) pingWorld branchingEvents = 0 ∧
    w.executions r.id = 63 ∧ w.executions r.id ≤
      63 * (1 + (system nullCodec).total (World.disturbed r.id) pingWorld branchingEvents) := by
  obtain ⟨w, hw, hrun, hseen⟩ := Machine.exists_run_obs (system nullCodec) (fun _ _ => True)
    pingWorld branchingEvents (fun w => ((w.db.find 0).isSome, w.executions 0)) (true, 63)
    (by decide +kernel) (Machine.along_of_mem _ _ fun _ _ _ => trivial)
  obtain ⟨hsome, hcount⟩ := Prod.mk.inj hseen
  obtain ⟨r, hr⟩ := Option.isSome_iff_exists.mp hsome
  obtain ⟨hmem, hid⟩ := Store.find_eq_some.mp hr
  have hcalm : (system nullCodec).total (World.disturbed 0) pingWorld branchingEvents = 0 := by
    decide +kernel
  refine ⟨w, r, hw, hmem, ?_, ?_, (executions_bounded hrun hmem).1⟩
  · rw [hid, hcalm]
  · rw [hid, hcount]

end Aegis
