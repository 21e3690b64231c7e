/-
# `AegisWorkers.Handling` — what the handling of one delivery comes to

`run` and Celery's tracer around it both act on the exceptions of `execute()`: either may call
`on_failure`, and either may call `retry()`.  The tally of a delivery is what its pieces leave
behind, in counters and in queues, from `before_start` to the acknowledgement.

    received started missed executing    nothing is settled
    returned … handled                   what is still to come is settled (`Phase.rest`)

So the last input that matters is the end of `execute()` (`Piece.settles`): a ValidationError is
buried by `run` and once more by the tracer, and a Retry that `execute()` raised itself is caught
by `run` and retried once more.  Every other delivery has one outcome (`one_outcome_iff`).

An exception that leaves `run` before `execute()` is retried by the autoretry wrapper, with a
delay of its own (`backoff_iff`).
-/
import AegisWorkers.Accounting

namespace Aegis

open BaseTask

/-! ## The tally -/

/-- What a delivery leaves behind. -/
@[ext]
structure Tally where
  /-- `jobs_total{success}` -/
  success : Nat
  /-- messages published to the default queue -/
  retryMessages : Nat
  /-- `jobs_total{retry}` -/
  retry : Nat
  /-- `dlq.receive` messages -/
  dlqMessages : Nat
  /-- `jobs_total{failed}` -/
  failed : Nat
  dlqSize : Int
  deriving DecidableEq

instance : Add Tally where
  add a b :=
    { success := a.success + b.success
      retryMessages := a.retryMessages + b.retryMessages
      retry := a.retry + b.retry
      dlqMessages := a.dlqMessages + b.dlqMessages
      failed := a.failed + b.failed
      dlqSize := a.dlqSize + b.dlqSize }

namespace Tally

/-- Nothing. -/
def none : Tally := ⟨0, 0, 0, 0, 0, 0⟩

/-- One success record. -/
def oneSuccess : Tally := ⟨1, 0, 0, 0, 0, 0⟩

/-- One successor retry message. -/
def oneRetry : Tally := ⟨0, 1, 1, 0, 0, 0⟩

/-- One terminal failure. -/
def oneFailure : Tally := ⟨0, 0, 0, 1, 1, 1⟩

/-- One of the three, and nothing else. -/
def OneOutcome (t : Tally) : Prop := t = oneSuccess ∨ t = oneRetry ∨ t = oneFailure

instance (t : Tally) : Decidable t.OneOutcome := inferInstanceAs (Decidable (_ ∨ _))

theorem none_add (t : Tally) : none + t = t := by
  ext
  case dlqSize => exact Int.zero_add _
  all_goals exact Nat.zero_add _

theorem add_none (t : Tally) : t + none = t := by
  ext
  case dlqSize => exact Int.add_zero _
  all_goals exact Nat.add_zero _

theorem add_assoc (a b c : Tally) : a + b + c = a + (b + c) := by
  ext
  case dlqSize => exact Int.add_assoc ..
  all_goals exact Nat.add_assoc ..

theorem buried_twice : ¬ (oneFailure + oneFailure).OneOutcome := by decide

theorem retried_twice : ¬ (⟨0, 1, 0, 0, 0, 0⟩ + oneRetry).OneOutcome := by decide

theorem add_comm (a b : Tally) : a + b = b + a := by
  ext
  case dlqSize => exact Int.add_comm ..
  all_goals exact Nat.add_comm ..

end Tally

/-- The slot holds a queued message of job `j`. -/
def Slot.holds (j : Uuid) : Slot → Bool
  | .queued m => m.jobId = j
  | _ => false

/-- What a step of a delivery of `m` adds: to the counters of its task, to the two queues (as
messages of its job) and to the gauge. -/
def World.growth (m : Message) (w w' : World) : Tally where
  success := w'.jobsTotal m.taskName .success - w.jobsTotal m.taskName .success
  retryMessages := (List.range w'.nextSlot).countP fun s =>
    (w.slots s).message?.isNone && (w'.slots s).holds m.jobId
  retry := w'.jobsTotal m.taskName .retry - w.jobsTotal m.taskName .retry
  dlqMessages := w'.dlq.countP (fun d => d.originalJobId = m.jobId) -
    w.dlq.countP (fun d => d.originalJobId = m.jobId)
  failed := w'.jobsTotal m.taskName .failed - w.jobsTotal m.taskName .failed
  dlqSize := w'.dlqSize - w.dlqSize

/-- What the event adds as a piece of the delivery in slot `s`. -/
def World.gain (J : JsonCodec) (s : SlotId) (x : World × Event) : Tally :=
  match x.2 with
  | .work s' _ =>
      if s' = s then
        match x.1.slots s, (system J).step x.1 x.2 with
        | .delivered m _ _, some w' => x.1.growth m w'
        | _, _ => .none
      else .none
  | _ => .none

/-- What the delivery in slot `s` has left behind in the course of `p`. -/
def tally (J : JsonCodec) (s : SlotId) : List (World × Event) → Tally
  | [] => .none
  | x :: p => World.gain J s x + tally J s p

/-- What the effects of a piece come to. -/
def BaseTask.Effects.tally (eff : Effects) : Tally where
  success := if eff.counts = some .success then 1 else 0
  retryMessages := eff.queue.isSome.toNat
  retry := if eff.counts = some .retry then 1 else 0
  dlqMessages := eff.dlq.isSome.toNat
  failed := if eff.counts = some .failed then 1 else 0
  dlqSize := if eff.dlqSizeInc then 1 else 0

/-! ## The conditions -/

/-- Nothing external fails in slot `s`: no call raises, and its worker is not killed. -/
def undisrupted (s : SlotId) : Event → Bool
  | .work s' (.raises _) => s' ≠ s
  | .crash s' => s' ≠ s
  | _ => true

/-- `execute()` ends with a ValidationError, or with a Retry of its own. -/
def BaseTask.Input.doubled : Input → Bool
  | .ends (.validationError _) => true
  | .ends (.retry _) => true
  | _ => false

/-- In slot `s`, `execute()` ends with neither. -/
def plain (s : SlotId) : Event → Bool
  | .work s' i => !(decide (s' = s) && i.doubled)
  | _ => true

/-! ## What is still to come -/

/-- What is still to come, once that is settled. -/
def Phase.rest : Phase → Option Tally
  | .received => none
  | .started => none
  | .missed => none
  | .executing => none
  | .returned _ => some .oneSuccess
  | .completed _ => some .oneSuccess
  | .counted _ => some .none
  | .failing _ again stage =>
      some ((if stage = .send then .oneFailure else ⟨0, 0, 0, 0, 1, 1⟩) +
        if again then .oneFailure else .none)
  | .retrying _ _ => some .oneRetry
  | .retried => some ⟨0, 0, 1, 0, 0, 0⟩
  | .handled => some .none

def Slot.rest : Slot → Option Tally
  | .empty => some .none
  | .queued _ => none
  | .delivered _ _ phase => phase.rest

section Piece
variable {J : JsonCodec} {m : Message} {worker : Worker} {cached : Option String} {now : Time}
  {phase : Phase} {i : Input} {eff : Effects} {t : Tally}

/-- What is still to come after a piece. -/
def BaseTask.Effects.rest (eff : Effects) : Option Tally :=
  match eff.next with
  | some phase => phase.rest
  | none => some .none

/-- Once it is settled what is to come, each piece does its part of it. -/
theorem Piece.rest (h : Piece J m worker cached now phase i eff) (hi : i.ok)
    (ht : phase.rest = some t) :
    i.doubled = false ∧ ∃ t', eff.rest = some t' ∧ eff.tally + t' = t := by
  cases h with
  | success v => exact ⟨rfl, _, rfl, Option.some.inj ht ▸ rfl⟩
  | count v => exact ⟨rfl, _, rfl, Option.some.inj ht ▸ rfl⟩
  | store v => exact ⟨rfl, _, rfl, Option.some.inj ht ▸ rfl⟩
  | failure exc again stage =>
      obtain rfl := Option.some.inj ht
      cases stage <;> cases again <;> exact ⟨rfl, _, rfl, rfl⟩
  | retry delay again => exact ⟨rfl, _, rfl, Option.some.inj ht ▸ rfl⟩
  | onRetry => exact ⟨rfl, _, rfl, Option.some.inj ht ▸ rfl⟩
  | ack => exact ⟨rfl, _, rfl, Option.some.inj ht ▸ rfl⟩
  | successFails v exc => exact absurd hi Bool.false_ne_true
  | storeFails v exc => exact absurd hi Bool.false_ne_true
  | failureFails exc exc' again stage _ => exact absurd hi Bool.false_ne_true
  | retryFails delay exc => exact absurd hi Bool.false_ne_true
  | rejected delay exc => exact absurd hi Bool.false_ne_true
  | _ => cases ht

/-- It is settled by the lookup or by the end of `execute()`, and is one outcome unless that was
a ValidationError or a Retry of its own. -/
theorem Piece.settles (h : Piece J m worker cached now phase i eff) (hi : i.ok)
    (hn : phase.rest = none) :
    eff.rest = none ∧ i.doubled = false ∧ eff.tally = .none ∨
      ∃ t, eff.rest = some t ∧ ((eff.tally + t).OneOutcome ↔ i.doubled = false) := by
  cases h with
  | start => exact .inl ⟨rfl, rfl, rfl⟩
  | miss _ => exact .inl ⟨rfl, rfl, rfl⟩
  | execute => exact .inl ⟨rfl, rfl, rfl⟩
  | hit v _ => exact .inr ⟨_, rfl, iff_of_true (.inl rfl) rfl⟩
  | @undecodable text _ =>
      rcases autoretry_cases m (J.fault text) with ⟨-, ha⟩ | ⟨-, ha⟩ <;> rw [ha]
      · exact .inr ⟨_, rfl, iff_of_true (.inr (.inl rfl)) rfl⟩
      · exact .inr ⟨_, rfl, iff_of_true (.inr (.inr rfl)) rfl⟩
  | returns v => exact .inr ⟨_, rfl, iff_of_true (.inl rfl) rfl⟩
  | invalid exc =>
      exact .inr ⟨.oneFailure + .oneFailure, rfl, iff_of_false Tally.buried_twice Bool.noConfusion⟩
  | exhausted exc _ => exact .inr ⟨_, rfl, iff_of_true (.inr (.inr rfl)) rfl⟩
  | again exc _ => exact .inr ⟨_, rfl, iff_of_true (.inr (.inl rfl)) rfl⟩
  | ownRetry delay _ =>
      exact .inr ⟨.oneRetry, rfl, iff_of_false Tally.retried_twice Bool.noConfusion⟩
  | startFails exc => exact absurd hi Bool.false_ne_true
  | lookupFails exc => exact absurd hi Bool.false_ne_true
  | _ => cases hn

end Piece

/-! ## One delivery in a run -/

section Step
variable {J : JsonCodec} {w w' : World} {e : Event} {s : SlotId}

/-- The slots that a piece of a delivery gives a message of its job. -/
theorem retryMessages_apply {m : Message} {worker : Worker} {cached : Option String} {now : Time}
    {phase : Phase} {i : Input} {eff : Effects} {db : Db} (hb : Bounded w)
    (hs : w.slots s = .delivered m worker phase) (hp : Piece J m worker cached now phase i eff) :
    ((List.range (w.apply J s m worker eff db).nextSlot).countP fun s' =>
      (w.slots s').message?.isNone && ((w.apply J s m worker eff db).slots s').holds m.jobId) =
      eff.queue.isSome.toNat := by
  have hlt : s < w.nextSlot := hb.lt (by rw [hs]; exact nofun)
  -- a slot handed out before holds a message already, or holds none after the step
  have hold : ∀ s' ∈ List.range w.nextSlot, ¬ ((w.slots s').message?.isNone &&
      ((w.apply J s m worker eff db).slots s').holds m.jobId) = true := by
    intro s' hs' hq
    rw [Bool.and_eq_true] at hq
    by_cases he : s' = s
    · rw [he, hs] at hq
      cases hq.1
    · have hsame : (w.apply J s m worker eff db).slots s' = w.slots s' := by
        cases hn : eff.queue with
        | none => exact slots_apply_ne he hn
        | some m' =>
            rw [slots_apply_queue he hn]
            exact Function.update_of_ne (Nat.ne_of_lt (List.mem_range.mp hs')) ..
      rw [hsame] at hq
      cases hslot : w.slots s' with
      | empty => rw [hslot] at hq; cases hq.2
      | queued m' => rw [hslot] at hq; cases hq.1
      | delivered m' worker' phase' => rw [hslot] at hq; cases hq.1
  cases hq : eff.queue with
  | none =>
      have hnext : (w.apply J s m worker eff db).nextSlot = w.nextSlot := by
        simp only [World.apply, hq]
        rfl
      rw [hnext]
      exact List.countP_eq_zero.mpr hold
  | some m' =>
      have hnext : (w.apply J s m worker eff db).nextSlot = w.nextSlot + 1 := by
        simp only [World.apply, hq]
        rfl
      have hnew : ((w.slots w.nextSlot).message?.isNone &&
          ((w.apply J s m worker eff db).slots w.nextSlot).holds m.jobId) = true := by
        rw [hb _ (Nat.le_refl _), slot_of_queue hb hs hq]
        exact decide_eq_true (hp.queue_copy hq).jobId
      rw [hnext, List.range_succ, List.countP_append, List.countP_eq_zero.mpr hold,
        List.countP_singleton, if_pos hnew]
      rfl

/-- What a piece of a delivery adds to a counter of its task. -/
theorem jobsTotal_grows {m : Message} {worker : Worker} {eff : Effects} {db : Db}
    (status : JobMetric) : (w.apply J s m worker eff db).jobsTotal m.taskName status -
      w.jobsTotal m.taskName status = if eff.counts = some status then 1 else 0 := by
  rw [counter_apply, Nat.add_sub_cancel_left]
  by_cases hc : eff.counts = some status <;> simp [hc]

/-- What a piece of a delivery adds is what its effects come to. -/
theorem growth_apply {m : Message} {worker : Worker} {cached : Option String} {now : Time}
    {phase : Phase} {i : Input} {eff : Effects} {db : Db} (hb : Bounded w)
    (hs : w.slots s = .delivered m worker phase) (hp : Piece J m worker cached now phase i eff) :
    w.growth m (w.apply J s m worker eff db) = eff.tally := by
  ext
  case success => exact jobsTotal_grows .success
  case retryMessages => exact retryMessages_apply hb hs hp
  case retry => exact jobsTotal_grows .retry
  case failed => exact jobsTotal_grows .failed
  case dlqMessages =>
    cases hd : eff.dlq with
    | none => simp [World.growth, World.apply, Effects.tally, hd]
    | some text => simp [World.growth, World.apply, Effects.tally, hd]
  case dlqSize =>
    cases hd : eff.dlqSizeInc with
    | false => simp [World.growth, World.apply, Effects.tally, hd]
    | true => simp [World.growth, World.apply, Effects.tally, hd]

/-- An event that is a piece of the delivery in slot `s`. -/
theorem work_piece {i : Input} (hb : Bounded w) (hs : (system J).step w (.work s i) = some w') :
    ∃ m worker phase eff db, w.slots s = .delivered m worker phase ∧
      World.gain J s (w, .work s i) = eff.tally ∧
      Piece J m worker (w.cache (cacheKey m.idempotencyKey)) w.clock phase i eff ∧
      w.write m.jobId eff.write = some db ∧ w' = w.apply J s m worker eff db := by
  rcases (step_cases hs).worked with @⟨_, _, m, worker, phase, eff, db, hev, hslot, hp, hdb, rfl⟩
    | hne
  · obtain ⟨rfl, rfl⟩ := Event.work.inj hev
    refine ⟨m, worker, phase, eff, db, hslot, ?_, hp, hdb, rfl⟩
    simp only [World.gain, if_true, hslot, hs]
    exact growth_apply hb hslot hp
  · exact absurd rfl (hne s i)

theorem gain_other (h : ∀ i, e ≠ .work s i) : World.gain J s (w, e) = .none := by
  cases e with
  | work s' i =>
      refine if_neg ?_
      rintro rfl
      exact h i rfl
  | _ => rfl

/-- What the delivery in slot `s` has left behind so far, and has still to. -/
structure Handled (J : JsonCodec) (s : SlotId) (p : List (World × Event)) (w : World) : Prop where
  lt : s < w.nextSlot
  taken : ∀ m, w.slots s ≠ .queued m
  unsettled : (w.slots s).rest = none →
    tally J s p = .none ∧ ∀ x ∈ p, plain s x.2
  settled : ∀ t, (w.slots s).rest = some t →
    ((tally J s p + t).OneOutcome ↔ ∀ x ∈ p, plain s x.2)

/-- Another event leaves what the slot holds alone, unless it is queued. -/
theorem SysStep.slot_kept (he : SysStep J w e w') (hlt : s < w.nextSlot)
    (htaken : ∀ m, w.slots s ≠ .queued m) (hcrash : e ≠ .crash s) (hne : ∀ i, e ≠ .work s i) :
    w'.slots s = w.slots s := by
  have hnew : s ≠ w.nextSlot := Nat.ne_of_lt hlt
  cases he with
  | api _ ha =>
      cases ha.slots with
      | same hslots _ => exact congrFun hslots s
      | sent sub _ _ hslots _ =>
          rw [hslots]
          exact Function.update_of_ne hnew ..
  | @drop s' worker m hs _ =>
      refine Function.update_of_ne ?_ ..
      rintro rfl
      exact htaken m hs
  | @take s' worker m hs _ _ =>
      refine Function.update_of_ne ?_ ..
      rintro rfl
      exact htaken m hs
  | @work s' i m worker phase eff db _ _ _ =>
      have hss : s ≠ s' := by
        rintro rfl
        exact hne i rfl
      cases hq : eff.queue with
      | none => exact slots_apply_ne hss hq
      | some m' =>
          rw [slots_apply_queue hss hq]
          exact Function.update_of_ne hnew ..
  | @crash s' m worker phase _ =>
      refine Function.update_of_ne ?_ ..
      rintro rfl
      exact hcrash rfl
  | redeliver _ => exact Function.update_of_ne hnew ..
  | env _ henv => exact congrFun henv.slots s

theorem undisrupted_alive (h : undisrupted s e) : e ≠ .crash s := by
  rintro rfl
  exact absurd rfl (of_decide_eq_true h)

theorem undisrupted_ok {i : Input} (h : undisrupted s (.work s i)) : i.ok := by
  cases i with
  | raises exc => exact absurd rfl (of_decide_eq_true h)
  | _ => rfl

theorem plain_work {i : Input} : plain s (.work s i) ↔ i.doubled = false := by
  simp [plain]

theorem plain_other (h : ∀ i, e ≠ .work s i) : plain s e := by
  cases e with
  | work s' i =>
      have hss : s' ≠ s := by
        rintro rfl
        exact h i rfl
      simp [plain, hss]
  | _ => rfl

theorem Handled.step {p : List (World × Event)} (h : Handled J s p w) (hb : Bounded w)
    (hP : undisrupted s e) (hs : (system J).step w e = some w') :
    Handled J s ((w, e) :: p) w' := by
  have he := step_cases hs
  have hlt := Nat.lt_of_lt_of_le h.lt he.nextSlot_le
  by_cases hwork : ∃ i, e = .work s i
  · obtain ⟨i, rfl⟩ := hwork
    obtain ⟨m, worker, phase, eff, db, hslot, hgain, hp, -, rfl⟩ := work_piece hb hs
    have hi := undisrupted_ok hP
    have hrest : ((w.apply J s m worker eff db).slots s).rest = eff.rest := by
      cases hn : eff.next with
      | none => rw [slots_apply_none hn, Effects.rest, hn]; rfl
      | some phase' => rw [slots_apply_some hn, Effects.rest, hn]; rfl
    have htally : tally J s ((w, .work s i) :: p) = eff.tally + tally J s p := by
      rw [tally, hgain]
    have hold : (w.slots s).rest = phase.rest := by rw [hslot]; rfl
    refine ⟨hlt, ?_, ?_, ?_⟩
    · intro m' hq
      cases hn : eff.next with
      | none => rw [slots_apply_none hn] at hq; cases hq
      | some phase' => rw [slots_apply_some hn] at hq; cases hq
    · rw [hrest, htally]
      intro hnone
      cases hphase : phase.rest with
      | none =>
          rcases hp.settles hi hphase with ⟨-, hd, ht⟩ | ⟨t, ht, -⟩
          · obtain ⟨hzero, hplain⟩ := h.unsettled (hold.trans hphase)
            rw [ht, hzero]
            exact ⟨rfl, List.forall_mem_cons.mpr ⟨plain_work.mpr hd, hplain⟩⟩
          · rw [hnone] at ht
            cases ht
      | some t =>
          obtain ⟨-, t', ht', -⟩ := hp.rest hi hphase
          rw [hnone] at ht'
          cases ht'
    · rw [hrest, htally]
      intro t' ht'
      rw [List.forall_mem_cons, plain_work]
      cases hphase : phase.rest with
      | none =>
          obtain ⟨hzero, hplain⟩ := h.unsettled (hold.trans hphase)
          rcases hp.settles hi hphase with ⟨hnone, -, -⟩ | ⟨t, ht, hone⟩
          · rw [hnone] at ht'
            cases ht'
          · obtain rfl := Option.some.inj (ht.symm.trans ht')
            rw [hzero, Tally.add_none, hone]
            exact ⟨fun hd => ⟨hd, hplain⟩, And.left⟩
      | some t =>
          obtain ⟨hd, t₁, ht₁, hsum⟩ := hp.rest hi hphase
          obtain rfl := Option.some.inj (ht₁.symm.trans ht')
          rw [Tally.add_comm eff.tally, Tally.add_assoc, hsum, h.settled t (hold.trans hphase)]
          exact ⟨fun hplain => ⟨hd, hplain⟩, And.right⟩
  · have hne : ∀ i, e ≠ .work s i := fun i hi => hwork ⟨i, hi⟩
    have hslot := he.slot_kept h.lt h.taken (undisrupted_alive hP) hne
    have htally : tally J s ((w, e) :: p) = tally J s p := by
      rw [tally, gain_other hne, Tally.none_add]
    refine ⟨hlt, hslot ▸ h.taken, ?_, ?_⟩
    · rw [hslot, htally]
      intro hnone
      obtain ⟨hzero, hplain⟩ := h.unsettled hnone
      exact ⟨hzero, List.forall_mem_cons.mpr ⟨plain_other hne, hplain⟩⟩
    · rw [hslot, htally]
      intro t ht
      rw [List.forall_mem_cons, h.settled t ht]
      exact ⟨fun hplain => ⟨plain_other hne, hplain⟩, And.right⟩

end Step

/-- A delivery that is handled to the end, with nothing external failing, leaves behind one
success record, one retry or one terminal failure if and only if `execute()` ended neither with
a ValidationError nor with a Retry of its own. -/
theorem one_outcome_iff {J : JsonCodec} {allowed : List String} {P : World → Event → Prop}
    {es₀ es : List Event} {w₀ w : World} {s : SlotId} {m : Message} {worker : Worker}
    (h₀ : (system J).Run P (.init allowed) es₀ w₀)
    (hs : w₀.slots s = .delivered m worker .received)
    (h : (system J).Run (fun _ e => undisrupted s e) w₀ es w) (hdone : w.slots s = .empty) :
    (tally J s ((system J).past [] w₀ es)).OneOutcome ↔ ∀ e ∈ es, plain s e := by
  have hg := run_ground h₀ (ground_init allowed)
  have hstart : Handled J s [] w₀ := by
    refine ⟨hg.bounded.lt (by rw [hs]; exact nofun), ?_, ?_, ?_⟩
    · intro m' hq
      rw [hs] at hq
      cases hq
    · exact fun _ => ⟨rfl, fun x hx => nomatch hx⟩
    · intro t ht
      rw [hs] at ht
      cases ht
  have hend := (h.invariant_past (I := fun p w => Ground w ∧ Handled J s p w)
    (fun hi hP hstep => ⟨hi.1.step (step_cases hstep), hi.2.step hi.1.bounded hP hstep⟩)
    ⟨hg, hstart⟩).2
  have hone := hend.settled .none (by rw [hdone]; rfl)
  have hevents := h.past_events []
  rw [List.map_nil, List.append_nil] at hevents
  rw [Tally.add_none] at hone
  rw [hone]
  constructor
  · intro hall e he
    have hmem : e ∈ (((system J).past [] w₀ es).map Prod.snd) := by
      rw [hevents]
      exact List.mem_reverse.mpr he
    obtain ⟨x, hx, rfl⟩ := List.mem_map.mp hmem
    exact hall x hx
  · intro hall x hx
    refine hall x.2 (List.mem_reverse.mp ?_)
    rw [← hevents]
    exact List.mem_map_of_mem hx

/-! ### The deliveries of a new job -/

/-- A worker has taken the message of a new job. -/
def takenEvents : List Event := createEvents 0 "k" ++ [.take 0 "v"]

/-- `execute()` ends with `o` in the first slot, and the delivery goes on for `n` pieces. -/
def handleEvents (o : Outcome) (n : Nat) : List Event :=
  List.replicate 3 (.work 0 .returns) ++ .work 0 (.ends o) :: List.replicate n (.work 0 .returns)

/-- The delivery is taken, handled to the end, and has left `t` behind. -/
def ComesTo (o : Outcome) (n : Nat) (t : Tally) : Prop :=
  ∃ w₀ m worker w, (system nullCodec).exec pingWorld takenEvents = some w₀ ∧
    w₀.slots 0 = .delivered m worker .received ∧
    (system nullCodec).Run (fun _ e => undisrupted 0 e) w₀ (handleEvents o n) w ∧
    w.slots 0 = .empty ∧ tally nullCodec 0 ((system nullCodec).past [] w₀ (handleEvents o n)) = t

/-- What can be computed of that. -/
def handled (o : Outcome) (n : Nat) : Option (Bool × Bool × Tally) :=
  ((system nullCodec).exec pingWorld takenEvents).bind fun w₀ =>
    ((system nullCodec).exec w₀ (handleEvents o n)).map fun w =>
      ((w₀.slots 0).inPhase (fun phase => phase.starts = 1) Message.jobId 0,
        (w.slots 0).message?.isNone,
        tally nullCodec 0 ((system nullCodec).past [] w₀ (handleEvents o n)))

theorem comesTo {o : Outcome} {n : Nat} {t : Tally} (h : handled o n = some (true, true, t)) :
    ComesTo o n t := by
  obtain ⟨w₀, hw₀, h⟩ := Option.bind_eq_some_iff.mp h
  obtain ⟨w, hw, h⟩ := Option.map_eq_some_iff.mp h
  obtain ⟨hstart, h⟩ := Prod.mk.inj h
  obtain ⟨hend, ht⟩ := Prod.mk.inj h
  obtain ⟨m, worker, phase, hslot, -, hphase⟩ := Slot.inPhase_iff.mp hstart
  obtain rfl : phase = .received := by
    cases phase with
    | received => rfl
    | _ => cases of_decide_eq_true hphase
  refine ⟨w₀, m, worker, w, hw₀, hslot, Machine.run_of_exec hw ?_, ?_, ht⟩
  · refine Machine.along_of_mem _ _ ?_
    intro e he _
    simp only [handleEvents, List.mem_append, List.mem_cons, List.mem_replicate] at he
    rcases he with ⟨-, rfl⟩ | rfl | ⟨-, rfl⟩ <;> rfl
  · cases hs : w.slots 0 with
    | empty => rfl
    | _ => rw [hs] at hend; cases hend

theorem one_outcome_iff_ping : ∃ w₀ w,
    (system nullCodec).exec pingWorld takenEvents = some w₀ ∧
    (system nullCodec).Run (fun _ e => undisrupted 0 e) w₀
      (handleEvents (.returns .null) 4) w ∧
    (tally nullCodec 0 ((system nullCodec).past [] w₀
      (handleEvents (.returns .null) 4))).OneOutcome := by
  obtain ⟨w₀, m, worker, w, hw₀, hs, hrun, hdone, -⟩ :=
    comesTo (show handled (.returns .null) 4 = some (true, true, .oneSuccess) by decide)
  refine ⟨w₀, w, hw₀, hrun, ?_⟩
  exact (one_outcome_iff (Machine.run_of_computed hw₀) hs hrun hdone).mpr (by decide)

/-- A ValidationError is buried twice; a Retry of its own is retried twice. -/
theorem outcome_doubled :
    ComesTo (.validationError ⟨"invalid", "Traceback"⟩) 9 ⟨0, 0, 0, 2, 2, 2⟩ ∧
      ComesTo (.retry 7) 3 ⟨0, 2, 1, 0, 0, 0⟩ ∧
      ¬ ∀ o n t, ComesTo o n t → t.OneOutcome := by
  have hburied : ComesTo (.validationError ⟨"invalid", "Traceback"⟩) 9 ⟨0, 0, 0, 2, 2, 2⟩ :=
    comesTo (by decide)
  refine ⟨hburied, comesTo (by decide), ?_⟩
  intro hall
  exact absurd (hall _ _ _ hburied) Tally.buried_twice

/-! ## The backoff -/

/-- Where an attempt fails. -/
inductive Place where
  /-- the GET of `_check_idempotency` -/
  | lookup
  /-- `json.loads` on the cached text -/
  | decode
  | execute
  deriving DecidableEq

/-- The attempt fails, with an exception that is no ValidationError. -/
inductive FailsIn (J : JsonCodec) (cached : Option String) : Place → Phase → Input → Prop
  | lookup (exc : Exc) : FailsIn J cached .lookup .started (.raises exc)
  | decode {text : String} : checkIdempotency J cached = .undecodable text →
      FailsIn J cached .decode .started .returns
  | execute (exc : Exc) : FailsIn J cached .execute .executing (.ends (.exception exc))
  | ownRetry (delay : Nat) : FailsIn J cached .execute .executing (.ends (.retry delay))

/-- `countdown_seconds` in the log record of `on_retry`. -/
def countdownSeconds (m : Message) : Nat := Nat.pow 2 m.retries * 10

/-- The delay of the retry that follows. -/
def Place.delay (m : Message) : Place → Nat
  | .lookup => defaultRetryDelay
  | .decode => defaultRetryDelay
  | .execute => countdown m.retries

section Backoff
variable {J : JsonCodec} {w w' : World} {s : SlotId} {m : Message} {worker : Worker}
  {phase : Phase} {i : Input} {place : Place}

/-- The failed attempt is about to be retried. -/
theorem FailsIn.retrying (h : FailsIn J (w.cache (cacheKey m.idempotencyKey)) place phase i)
    (hs : w.slots s = .delivered m worker phase) (hn : m.retries < maxRetries) :
    ∃ w' again, (system J).step w (.work s i) = some w' ∧
      w'.slots s = .delivered m worker (.retrying (place.delay m) again) := by
  have hstep : ∀ (eff : Effects) (again : Bool), eff.write = none →
      eff.next = some (.retrying (place.delay m) again) →
      BaseTask.step J m worker (w.cache (cacheKey m.idempotencyKey)) w.clock phase i = some eff →
      ∃ w' again, (system J).step w (.work s i) = some w' ∧
        w'.slots s = .delivered m worker (.retrying (place.delay m) again) := by
    intro eff again hwrite hnext heff
    refine ⟨w.apply J s m worker eff w.db, again, ?_, slots_apply_some hnext⟩
    change w.work J s i = _
    simp only [World.work, hs, heff, Option.bind_some, World.perform, World.write, hwrite,
      Option.map_some]
  cases h with
  | lookup exc => exact hstep _ false rfl (by rw [autoretry, if_pos hn]; rfl) rfl
  | @decode text hcached =>
      refine hstep (autoretry m (J.fault text)) false rfl (by rw [autoretry, if_pos hn]; rfl) ?_
      simp only [BaseTask.step, run, hcached]
  | execute exc =>
      exact hstep _ true rfl rfl (if_neg (Nat.not_le_of_lt hn))
  | ownRetry delay =>
      exact hstep _ true rfl rfl (if_neg (Nat.not_le_of_lt hn))

/-- The retry is published with the delay it was scheduled with. -/
theorem retry_published {delay : Nat} {again : Bool} (hlt : s < w.nextSlot)
    (hs : w.slots s = .delivered m worker (.retrying delay again)) :
    ∃ w', (system J).step w (.work s .returns) = some w' ∧
      w'.slots w.nextSlot = .queued (retryMessage m delay w.clock) := by
  refine ⟨w.apply J s m worker (BaseTask.retry m delay w.clock) w.db, ?_, ?_⟩
  · change w.work J s .returns = _
    simp only [World.work, hs, BaseTask.step, Option.bind_some, World.perform, World.write,
      BaseTask.retry, Option.map_some]
  · rw [slots_apply_queue (Nat.ne_of_gt hlt) rfl]
    exact Function.update_self ..

theorem retryMessage_inj {d d' : Nat} {now : Time} :
    retryMessage m d now = retryMessage m d' now ↔ d = d' := by
  constructor
  · intro h
    exact Nat.add_left_cancel (congrArg Message.eta h)
  · rintro rfl
    rfl

theorem Place.delay_eq_iff : place.delay m = 10 * 2 ^ m.retries ↔
    m.retries = 0 ∨ place = .execute := by
  have hcountdown : countdown m.retries = 10 * 2 ^ m.retries := Nat.mul_comm ..
  have hdefault : defaultRetryDelay = 10 * 2 ^ m.retries ↔ m.retries = 0 := by
    constructor
    · intro h
      by_contra hne
      have hlt : 1 < 2 ^ m.retries := Nat.one_lt_two_pow hne
      simp only [defaultRetryDelay] at h
      omega
    · intro h
      rw [h]
      rfl
  cases place with
  | execute => exact iff_of_true hcountdown (.inr rfl)
  | lookup => simpa [Place.delay] using hdefault
  | decode => simpa [Place.delay] using hdefault

end Backoff

/-- An attempt that fails is retried, and the retry is due `10 * 2 ** retries` seconds after it
is published, as `on_retry` reports, if and only if the attempt was the first or it was
`execute()` that failed. -/
theorem backoff_iff {J : JsonCodec} {allowed : List String} {P : World → Event → Prop}
    {es₀ : List Event} {w : World} {s : SlotId} {m : Message} {worker : Worker} {phase : Phase}
    {i : Input} {place : Place} (h₀ : (system J).Run P (.init allowed) es₀ w)
    (hs : w.slots s = .delivered m worker phase) (hn : m.retries < maxRetries)
    (hf : FailsIn J (w.cache (cacheKey m.idempotencyKey)) place phase i) :
    ∃ w₁, (system J).step w (.work s i) = some w₁ ∧
      ∀ es w₂, (system J).Run (fun _ e => e.slot? ≠ some s) w₁ es w₂ →
        ∃ w₃, (system J).step w₂ (.work s .returns) = some w₃ ∧
          (w₃.slots w₂.nextSlot = .queued (retryMessage m (10 * 2 ^ m.retries) w₂.clock) ∧
              countdownSeconds m = 10 * 2 ^ m.retries ↔
            m.retries = 0 ∨ place = .execute) := by
  have hb := (run_ground h₀ (ground_init allowed)).bounded
  obtain ⟨w₁, again, hw₁, hretrying⟩ := hf.retrying hs hn
  refine ⟨w₁, hw₁, ?_⟩
  intro es w₂ hrun
  -- nothing else moves the delivery until its retry is published
  have hkept : s < w₂.nextSlot ∧
      w₂.slots s = .delivered m worker (.retrying (place.delay m) again) := by
    refine hrun.invariant (I := fun w => s < w.nextSlot ∧
      w.slots s = .delivered m worker (.retrying (place.delay m) again)) ?_
      ⟨Nat.lt_of_lt_of_le (hb.lt (by rw [hs]; exact nofun)) (step_cases hw₁).nextSlot_le,
        hretrying⟩
    rintro w w' e ⟨hlt, hslot⟩ hP hstep
    refine ⟨Nat.lt_of_lt_of_le hlt (step_cases hstep).nextSlot_le, ?_⟩
    rw [← hslot]
    refine (step_cases hstep).slot_kept hlt ?_ ?_ ?_
    · intro m' hq
      rw [hslot] at hq
      cases hq
    · rintro rfl
      exact hP rfl
    · rintro i rfl
      exact hP rfl
  obtain ⟨w₃, hw₃, hqueued⟩ := @retry_published J w₂ s m worker _ again hkept.1 hkept.2
  refine ⟨w₃, hw₃, ?_⟩
  rw [hqueued, Slot.queued.injEq, retryMessage_inj, Place.delay_eq_iff]
  exact and_iff_left (Nat.mul_comm ..)

/-- A worker has started an attempt. -/
theorem started_of (es : List Event) (s : SlotId) (n : Nat)
    (h : ((system nullCodec).exec pingWorld es).map
      (fun w => (w.slots s).inPhase Phase.looksUp Message.retries n) = some true) :
    ∃ w m worker, (system nullCodec).exec pingWorld es = some w ∧
      w.slots s = .delivered m worker .started ∧ m.retries = n := by
  obtain ⟨w, hw, hin⟩ := Option.map_eq_some_iff.mp h
  obtain ⟨m, worker, phase, hs, hn, hphase⟩ := Slot.inPhase_iff.mp hin
  cases phase with
  | started => exact ⟨w, m, worker, hw, hs, hn⟩
  | _ => cases hphase

/-- The GET of the first attempt raises. -/
theorem backoff_iff_ping : ∃ w m w₁ w₃, (system nullCodec).exec pingWorld
      (takenEvents ++ [.work 0 .returns]) = some w ∧
    (system nullCodec).step w (.work 0 (.raises ⟨"timeout", "Traceback"⟩)) = some w₁ ∧
    (system nullCodec).step w₁ (.work 0 .returns) = some w₃ ∧
    w₃.slots w₁.nextSlot = .queued (retryMessage m (10 * 2 ^ m.retries) w₁.clock) := by
  obtain ⟨w, m, worker, hw, hs, hn⟩ :=
    started_of (takenEvents ++ [.work 0 .returns]) 0 0 (by decide)
  obtain ⟨w₁, hw₁, hretry⟩ := backoff_iff (Machine.run_of_computed hw) hs (by rw [hn]; decide)
    (.lookup ⟨"timeout", "Traceback"⟩)
  obtain ⟨w₃, hw₃, hiff⟩ := hretry [] w₁ (.nil w₁)
  exact ⟨w, m, w₁, w₃, hw, hw₁, hw₃, (hiff.mpr (.inl hn)).1⟩

/-- The first attempt has failed in `execute()`, and the second has been started. -/
def secondEvents : List Event :=
  createEvents 0 "k" ++ startEvents 0 "v" ++
    [.work 0 (.ends (.exception ⟨"timeout", "Traceback"⟩)), .work 0 .returns, .tick 10,
      .take 1 "v", .work 1 .returns]

/-- The GET of the second attempt raises: the third is due after 10 seconds, and `on_retry`
reports 20. -/
theorem backoff_flat : ∃ w m worker w₁ w₂,
    (system nullCodec).exec pingWorld secondEvents = some w ∧
    w.slots 1 = .delivered m worker .started ∧ m.retries = 1 ∧
    (system nullCodec).step w (.work 1 (.raises ⟨"timeout", "Traceback"⟩)) = some w₁ ∧
    (system nullCodec).step w₁ (.work 1 .returns) = some w₂ ∧
    w₂.slots w₁.nextSlot = .queued (retryMessage m 10 w₁.clock) ∧
    countdownSeconds m = 20 ∧ 10 * 2 ^ m.retries = 20 := by
  obtain ⟨w, m, worker, hw, hs, hn⟩ :=
    started_of secondEvents 1 1 (by decide)
  have hf : FailsIn nullCodec (w.cache (cacheKey m.idempotencyKey)) .lookup .started
      (.raises ⟨"timeout", "Traceback"⟩) := .lookup _
  obtain ⟨w₁, again, hw₁, hretrying⟩ := hf.retrying hs (by rw [hn]; decide)
  have hb := (run_ground (Machine.run_of_computed hw) (ground_init _)).bounded
  have hlt : 1 < w₁.nextSlot :=
    Nat.lt_of_lt_of_le (hb.lt (by rw [hs]; exact nofun)) (step_cases hw₁).nextSlot_le
  obtain ⟨w₂, hw₂, hqueued⟩ := retry_published hlt hretrying
  exact ⟨w, m, worker, w₁, w₂, hw, hs, hn, hw₁, hw₂, hqueued, by rw [countdownSeconds, hn],
    by rw [hn]; rfl⟩

end Aegis
