/-
# `AegisWorkers.Deliveries` — one slot, one row at a time

An event touches few things.  `SysStep.slot` says what it can do to a given slot
and `SysStep.row` what it can do to the row of a given job, so an invariant over
all slots, or over one job, is a case analysis with one case for each cause.

    SlotMove J w e w' s   what `e` does to slot `s`
    RowMove J w e w' j    what `e` does to the row of job `j`

The rest is what a piece of a delivery can do, by its phase, and what is read off
the trace about one job: the status updates issued for it and the `before_start`
calls made.
-/
import AegisWorkers.Enqueue

namespace Aegis

open BaseTask JobService ReadCommitted

/-! ## One slot -/

/-- The message in a slot. -/
def Slot.message? : Slot → Option Message
  | .empty => none
  | .queued m => some m
  | .delivered m _ _ => some m

/-- The job of the message in a slot. -/
def Slot.jobId? (x : Slot) : Option Uuid := x.message?.map Message.jobId

/-- The slot holds a delivery in a phase that satisfies `p`, of a message whose `f` is `a`. -/
def Slot.inPhase {α : Type} [DecidableEq α] (p : Phase → Bool) (f : Message → α) (a : α) :
    Slot → Bool
  | .delivered m _ phase => f m = a && p phase
  | _ => false

theorem Slot.inPhase_iff {α : Type} [DecidableEq α] {p : Phase → Bool} {f : Message → α} {a : α}
    {x : Slot} : x.inPhase p f a ↔
      ∃ m worker phase, x = .delivered m worker phase ∧ f m = a ∧ p phase := by
  cases x with
  | empty => simp [Slot.inPhase]
  | queued m => simp [Slot.inPhase]
  | delivered m worker phase => simp [Slot.inPhase, and_assoc]

/-- A message of the job is queued, waiting for a countdown, or not acknowledged. -/
def World.Outstanding (w : World) (j : Uuid) : Prop := ∃ s, (w.slots s).jobId? = some j

/-- Only the slots handed out need be looked at. -/
theorem outstanding_iff {w : World} (hb : Bounded w) {j : Uuid} :
    w.Outstanding j ↔ ∃ s < w.nextSlot, (w.slots s).jobId? = some j := by
  constructor
  · rintro ⟨s, hs⟩
    refine ⟨s, hb.lt ?_, hs⟩
    intro hempty
    rw [hempty] at hs
    cases hs
  · rintro ⟨s, -, hs⟩
    exact ⟨s, hs⟩

/-- Only the slots handed out hold a delivery. -/
theorem Bounded.lt_of_inPhase {w : World} (hb : Bounded w) {α : Type} [DecidableEq α]
    {p : Phase → Bool} {f : Message → α} {a : α} {s : SlotId} (h : (w.slots s).inPhase p f a) :
    s < w.nextSlot := by
  refine hb.lt ?_
  intro hempty
  rw [hempty] at h
  cases h

/-- What the event `e` does to slot `s`. -/
inductive SlotMove (J : JsonCodec) (w : World) (e : Event) (w' : World) (s : SlotId) : Prop
  | stays : w'.slots s = w.slots s → SlotMove J w e w' s
  | published {c : CallId} {sub : Submission} : w.slots s = .empty → e.call? = some c →
      w.calls c = .submitting sub .flushed → w'.slots s = .queued (message sub w.uuid) →
      w'.published = message sub w.uuid :: w.published → SlotMove J w e w' s
  | retried {s₀ : SlotId} {i : Input} {m m' : Message} {worker : Worker} {phase : Phase}
      {eff : Effects} : w.slots s = .empty → e = .work s₀ i →
      w.slots s₀ = .delivered m worker phase →
      Piece J m worker (w.cache (cacheKey m.idempotencyKey)) w.clock phase i eff →
      eff.queue = some m' → w'.slots s = .queued m' → SlotMove J w e w' s
  | redelivered {s₀ : SlotId} {m : Message} {worker : Worker} {phase : Phase} :
      w.slots s = .empty → e = .redeliver s₀ → w.slots s₀ = .delivered m worker phase →
      w'.slots s = .queued m → SlotMove J w e w' s
  | dropped {worker : Worker} {m : Message} : e = .take s worker → w.slots s = .queued m →
      m.id ∈ w.heard worker → w'.slots s = .empty → SlotMove J w e w' s
  | taken {worker : Worker} {m : Message} : e = .take s worker → w.slots s = .queued m →
      m.id ∉ w.heard worker → w'.slots s = .delivered m worker .received → SlotMove J w e w' s
  | advanced {i : Input} {m : Message} {worker : Worker} {phase phase' : Phase} {eff : Effects} :
      e = .work s i → w.slots s = .delivered m worker phase →
      Piece J m worker (w.cache (cacheKey m.idempotencyKey)) w.clock phase i eff →
      eff.next = some phase' → w'.slots s = .delivered m worker phase' → SlotMove J w e w' s
  | acknowledged {i : Input} {m : Message} {worker : Worker} {phase : Phase} {eff : Effects} :
      e = .work s i → w.slots s = .delivered m worker phase →
      Piece J m worker (w.cache (cacheKey m.idempotencyKey)) w.clock phase i eff →
      eff.next = none → w'.slots s = .empty → SlotMove J w e w' s
  | crashed {m : Message} {worker : Worker} {phase : Phase} : e = .crash s →
      w.slots s = .delivered m worker phase → w'.slots s = .queued m → SlotMove J w e w' s

section Slot
variable {J : JsonCodec} {w w' : World} {e : Event}

theorem slot_of_enqueue (hb : Bounded w) {x : Slot} (s : SlotId) :
    Function.update w.slots w.nextSlot x s = w.slots s ∨
      w.slots s = .empty ∧ Function.update w.slots w.nextSlot x s = x := by
  by_cases hs : s = w.nextSlot
  · subst hs
    exact .inr ⟨hb _ (Nat.le_refl _), Function.update_self ..⟩
  · exact .inl (Function.update_of_ne hs ..)

theorem slot_of_work (hb : Bounded w) {s₀ : SlotId} {i : Input} {m : Message} {worker : Worker}
    {phase : Phase} {eff : Effects} {d : Db} (hs : w.slots s₀ = .delivered m worker phase)
    (hp : Piece J m worker (w.cache (cacheKey m.idempotencyKey)) w.clock phase i eff)
    (s : SlotId) : SlotMove J w (.work s₀ i) (w.apply J s₀ m worker eff d) s := by
  by_cases he : s = s₀
  · subst he
    cases hn : eff.next with
    | none => exact .acknowledged rfl hs hp hn (slots_apply_none hn)
    | some phase' => exact .advanced rfl hs hp hn (slots_apply_some hn)
  · cases hq : eff.queue with
    | none => exact .stays (slots_apply_ne he hq)
    | some m' =>
        have hother : (w.apply J s₀ m worker eff d).slots s =
            Function.update w.slots w.nextSlot (.queued m') s := slots_apply_queue he hq
        rcases slot_of_enqueue hb (x := .queued m') s with h | ⟨hempty, h⟩
        · exact .stays (hother.trans h)
        · exact .retried hempty rfl hs hp hq (hother.trans h)

theorem slot_of_set (w : World) (s : SlotId) (x : Slot) (s' : SlotId) :
    (w.setSlot s x).slots s' = w.slots s' ∨ s' = s ∧ (w.setSlot s x).slots s' = x := by
  by_cases he : s' = s
  · subst he
    exact .inr ⟨rfl, Function.update_self ..⟩
  · exact .inl (Function.update_of_ne he ..)

theorem SysStep.slot (h : SysStep J w e w') (hb : Bounded w) (s : SlotId) :
    SlotMove J w e w' s := by
  cases h with
  | @api _ c _ hc ha =>
      cases ha.slots with
      | same hs _ => exact .stays (congrFun hs s)
      | sent sub hx hx' hs _ =>
          rcases slot_of_enqueue hb (x := .queued (message sub w.uuid)) s with h | ⟨hempty, h⟩
          · exact .stays ((congrFun hs s).trans h)
          · cases ha.published with
            | same _ hn => exact absurd hx' (hn _ _)
            | sent sub' hx₁ _ hp _ _ =>
                rw [hx, Call.submitting.injEq] at hx₁
                exact .published hempty hc hx ((congrFun hs s).trans h) (hx₁.1 ▸ hp)
  | @drop s₀ _ _ hs hheard =>
      rcases slot_of_set w s₀ .empty s with h | ⟨rfl, h⟩
      · exact .stays h
      · exact .dropped rfl hs hheard h
  | @take s₀ worker m hs _ hheard =>
      rcases slot_of_set w s₀ (.delivered m worker .received) s with h | ⟨rfl, h⟩
      · exact .stays h
      · exact .taken rfl hs hheard h
  | work hs hp _ => exact slot_of_work hb hs hp s
  | @crash s₀ m _ _ hs =>
      rcases slot_of_set w s₀ (.queued m) s with h | ⟨rfl, h⟩
      · exact .stays h
      · exact .crashed rfl hs h
  | @redeliver _ m _ _ hs =>
      rcases slot_of_enqueue hb (x := .queued m) s with h | ⟨hempty, h⟩
      · exact .stays h
      · exact .redelivered hempty rfl hs h
  | env _ henv => exact .stays (congrFun henv.slots s)

/-- How a delivery has come to the phase it is in after the event `e`. -/
inductive Delivered (J : JsonCodec) (w : World) (e : Event) (w' : World) (s : SlotId)
    (m : Message) (worker : Worker) (phase' : Phase) : Prop
  | stays : (∀ i, e ≠ .work s i) → w.slots s = .delivered m worker phase' →
      Delivered J w e w' s m worker phase'
  | taken : e = .take s worker → w.slots s = .queued m → phase' = .received →
      Delivered J w e w' s m worker phase'
  | advanced {i : Input} {phase : Phase} {eff : Effects} : e = .work s i →
      w.slots s = .delivered m worker phase →
      Piece J m worker (w.cache (cacheKey m.idempotencyKey)) w.clock phase i eff →
      eff.next = some phase' → w.write m.jobId eff.write = some w'.db →
      Delivered J w e w' s m worker phase'

theorem SysStep.delivered (h : SysStep J w e w') (hb : Bounded w) {s : SlotId} {m : Message}
    {worker : Worker} {phase' : Phase} (hs : w'.slots s = .delivered m worker phase') :
    Delivered J w e w' s m worker phase' := by
  by_cases hw : ∃ i, e = .work s i
  · obtain ⟨i, rfl⟩ := hw
    rcases h.worked with @⟨_, _, m₀, worker₀, _, eff, db, hev, hs₀, hp, hdb, rfl⟩ | hne
    · obtain ⟨rfl, rfl⟩ := Event.work.inj hev
      cases hn : eff.next with
      | none => rw [slots_apply_none hn] at hs; cases hs
      | some phase =>
          rw [slots_apply_some hn, Slot.delivered.injEq] at hs
          obtain ⟨rfl, rfl, rfl⟩ := hs
          exact .advanced rfl hs₀ hp hn hdb
    · exact absurd rfl (hne s i)
  · have hne : ∀ i, e ≠ .work s i := fun i hi => hw ⟨i, hi⟩
    cases h.slot hb s with
    | stays hs₀ => exact .stays hne (hs₀ ▸ hs)
    | taken he hs₀ _ hs' =>
        rw [hs', Slot.delivered.injEq] at hs
        obtain ⟨rfl, rfl, rfl⟩ := hs
        exact .taken he hs₀ rfl
    | advanced he _ _ _ _ => exact absurd he (hne _)
    | published _ _ _ hs' _ => rw [hs'] at hs; cases hs
    | retried _ _ _ _ _ hs' => rw [hs'] at hs; cases hs
    | redelivered _ _ _ hs' => rw [hs'] at hs; cases hs
    | dropped _ _ _ hs' => rw [hs'] at hs; cases hs
    | acknowledged _ _ _ _ hs' => rw [hs'] at hs; cases hs
    | crashed _ _ hs' => rw [hs'] at hs; cases hs

end Slot

/-! ## Copies of a message -/

/-- `m'` is `m`, or a retry of it. -/
structure Message.Copy (m m' : Message) : Prop where
  id : m'.id = m.id
  taskName : m'.taskName = m.taskName
  jobId : m'.jobId = m.jobId
  idempotencyKey : m'.idempotencyKey = m.idempotencyKey
  payload : m'.payload = m.payload

theorem Message.Copy.refl (m : Message) : m.Copy m := ⟨rfl, rfl, rfl, rfl, rfl⟩

theorem Message.Copy.trans {m m' m'' : Message} (h : m.Copy m') (h' : m'.Copy m'') :
    m.Copy m'' :=
  ⟨h'.id.trans h.id, h'.taskName.trans h.taskName, h'.jobId.trans h.jobId,
    h'.idempotencyKey.trans h.idempotencyKey, h'.payload.trans h.payload⟩

/-- A message of the queue is a copy of one the API has published. -/
def Copies (w : World) : Prop :=
  ∀ s m, (w.slots s).message? = some m → ∃ m₀ ∈ w.published, m₀.Copy m

theorem Job.EnqueuedAs.copy {r : Job} {m m' : Message} (h : r.EnqueuedAs m) (hc : m.Copy m') :
    r.EnqueuedAs m' :=
  ⟨hc.jobId.trans h.jobId, hc.taskName.trans h.taskName,
    hc.idempotencyKey.trans h.idempotencyKey, hc.payload.trans h.payload,
    h.celeryTaskId.trans (congrArg some hc.id.symm)⟩

/-- A copy of a published message says what the row of its job says. -/
theorem Enqueued.enqueuedAs {w : World} (h : Enqueued w) {r : Job} (hr : r ∈ w.db.rows)
    {m₀ m : Message} (hm₀ : m₀ ∈ w.published) (hc : m₀.Copy m) (hj : m.jobId = r.id) :
    r.EnqueuedAs m := by
  obtain ⟨m₁, hm₁, he⟩ := h.rows r hr
  have hmem : m₀ ∈ w.publishedFor r.id := mem_publishedFor.mpr ⟨hm₀, hc.jobId.symm.trans hj⟩
  rw [hm₁, List.mem_singleton] at hmem
  exact (hmem ▸ he).copy hc

/-! ## What a piece of a delivery does, by its phase -/

/-- The delivery still owes its job a final status, or a retry. -/
def Phase.live : Phase → Bool
  | .completed _ => false
  | .counted _ => false
  | .failing _ _ .count => false
  | .retried => false
  | .handled => false
  | _ => true

/-- The publish of a retry fails in the autoretry wrapper: the message is rejected. -/
def Phase.rejects : Phase → Input → Bool
  | .retrying _ false, .raises _ => true
  | _, _ => false

/-- The SETEX of `on_success` fails. -/
def Phase.forgets : Phase → Input → Bool
  | .counted _, .raises _ => true
  | _, _ => false

/-- The `before_start` calls made by the next piece of the delivery. -/
def Phase.starts : Phase → Nat
  | .received => 1
  | _ => 0

/-- The `execute()` calls made by the next piece of the delivery. -/
def Phase.executes : Phase → Nat
  | .missed => 1
  | _ => 0

/-- The external call does not raise. -/
def BaseTask.Input.ok : Input → Bool
  | .raises _ => false
  | _ => true

/-- The two statuses no hook leaves. -/
def JobStatus.final : JobStatus → Bool
  | .completed => true
  | .dlq => true
  | _ => false

section Piece
variable {J : JsonCodec} {m : Message} {worker : Worker} {cached : Option String} {now : Time}
  {phase : Phase} {i : Input} {eff : Effects}

/-- A delivery does not come to a phase of another kind. -/
theorem next_not {p : Phase → Bool} {phase' q : Phase} (hn : eff.next = some phase')
    (hp : p phase') (hq : p q = false) (hq' : eff.next = some q) : False := by
  rw [hn, Option.some.injEq] at hq'
  rw [hq', hq] at hp
  exact Bool.false_ne_true hp

theorem Piece.queue_copy (h : Piece J m worker cached now phase i eff) {m' : Message}
    (hq : eff.queue = some m') : m.Copy m' := by
  cases h with
  | ownRetry delay _ => exact Option.some.inj hq ▸ ⟨rfl, rfl, rfl, rfl, rfl⟩
  | retry delay => exact Option.some.inj hq ▸ ⟨rfl, rfl, rfl, rfl, rfl⟩
  | failure exc again stage => cases stage <;> cases hq
  | failureFails exc exc' again stage => cases stage <;> cases hq
  | _ => cases hq

/-- A live delivery that is not rejected stays live, writes a final status, or publishes a
retry. -/
theorem Piece.live (h : Piece J m worker cached now phase i eff) (hl : phase.live)
    (hr : phase.rejects i = false) :
    (∃ phase', eff.next = some phase' ∧ phase'.live) ∨
      (∃ wr, eff.write = some wr ∧ wr.status.final) ∨ ∃ m', eff.queue = some m' := by
  cases h with
  | start => exact .inl ⟨_, rfl, rfl⟩
  | startFails exc => exact .inl ⟨_, rfl, rfl⟩
  | miss _ => exact .inl ⟨_, rfl, rfl⟩
  | hit v _ => exact .inl ⟨_, rfl, rfl⟩
  | undecodable _ =>
      refine .inl ⟨_, rfl, ?_⟩
      split <;> rfl
  | lookupFails exc =>
      refine .inl ⟨_, rfl, ?_⟩
      split <;> rfl
  | execute => exact .inl ⟨_, rfl, rfl⟩
  | returns v => exact .inl ⟨_, rfl, rfl⟩
  | invalid exc => exact .inl ⟨_, rfl, rfl⟩
  | exhausted exc _ => exact .inl ⟨_, rfl, rfl⟩
  | again exc _ => exact .inl ⟨_, rfl, rfl⟩
  | ownRetry delay _ => exact .inl ⟨_, rfl, rfl⟩
  | success v => exact .inr (.inl ⟨_, rfl, rfl⟩)
  | successFails v exc => exact .inr (.inl ⟨_, rfl, rfl⟩)
  | failure exc again stage =>
      cases stage with
      | send => exact .inl ⟨_, rfl, rfl⟩
      | failed => exact .inl ⟨_, rfl, rfl⟩
      | dlq => exact .inr (.inl ⟨_, rfl, rfl⟩)
      | count => exact absurd hl Bool.false_ne_true
  | failureFails exc exc' again stage _ =>
      cases stage with
      | send => exact .inl ⟨_, rfl, rfl⟩
      | failed => exact .inl ⟨_, rfl, rfl⟩
      | dlq => exact .inr (.inl ⟨_, rfl, rfl⟩)
      | count => exact absurd hl Bool.false_ne_true
  | retry delay again => exact .inr (.inr ⟨_, rfl⟩)
  | retryFails delay exc =>
      refine .inl ⟨_, rfl, ?_⟩
      split <;> rfl
  | rejected delay exc => exact absurd hr.symm Bool.false_ne_true
  | count v => exact absurd hl Bool.false_ne_true
  | store v => exact absurd hl Bool.false_ne_true
  | storeFails v exc => exact absurd hl Bool.false_ne_true
  | onRetry => exact absurd hl Bool.false_ne_true
  | ack => exact absurd hl Bool.false_ne_true

/-- What a status update of a hook can be: RUNNING by `before_start`, COMPLETED by
`on_success`, FAILED or DLQ by `on_failure`. -/
inductive WriteAt (worker : Worker) (wr : Write) (next : Option Phase) : Phase → Prop
  | start : wr.status = .running →
      wr.fields = { workerId := some worker, incrementExecution := true } →
      next = some .started → WriteAt worker wr next .received
  | success (v : Json) : wr.status = .completed → wr.fields.incrementExecution = false →
      next = some (.completed v) → WriteAt worker wr next (.returned v)
  | failed (exc : Exc) (again : Bool) : wr.status = .failed →
      wr.fields.incrementExecution = false → next = some (.failing exc again .dlq) →
      WriteAt worker wr next (.failing exc again .failed)
  | dlq (exc : Exc) (again : Bool) : wr.status = .dlq → wr.fields.incrementExecution = false →
      next = some (.failing exc again .count) → WriteAt worker wr next (.failing exc again .dlq)

theorem Piece.write (h : Piece J m worker cached now phase i eff) {wr : Write}
    (hw : eff.write = some wr) : WriteAt worker wr eff.next phase := by
  cases h with
  | start => exact Option.some.inj hw ▸ .start rfl rfl rfl
  | startFails exc => exact Option.some.inj hw ▸ .start rfl rfl rfl
  | success v => exact Option.some.inj hw ▸ .success v rfl rfl rfl
  | successFails v exc => exact Option.some.inj hw ▸ .success v rfl rfl rfl
  | failure exc again stage =>
      cases stage with
      | send => cases hw
      | failed => exact Option.some.inj hw ▸ .failed exc again rfl rfl rfl
      | dlq => exact Option.some.inj hw ▸ .dlq exc again rfl rfl rfl
      | count => cases hw
  | failureFails exc exc' again stage _ =>
      cases stage with
      | send => cases hw
      | failed => exact Option.some.inj hw ▸ .failed exc again rfl rfl rfl
      | dlq => exact Option.some.inj hw ▸ .dlq exc again rfl rfl rfl
      | count => cases hw
  | _ => cases hw

/-- An update fails if and only if its external call does. -/
theorem Piece.write_ok (h : Piece J m worker cached now phase i eff) {wr : Write}
    (hw : eff.write = some wr) : wr.ok = true ↔ i.ok := by
  cases h with
  | start => exact Option.some.inj hw ▸ Iff.rfl
  | startFails exc => exact Option.some.inj hw ▸ Iff.rfl
  | success v => exact Option.some.inj hw ▸ Iff.rfl
  | successFails v exc => exact Option.some.inj hw ▸ Iff.rfl
  | failure exc again stage =>
      cases stage with
      | send => cases hw
      | failed => exact Option.some.inj hw ▸ Iff.rfl
      | dlq => exact Option.some.inj hw ▸ Iff.rfl
      | count => cases hw
  | failureFails exc exc' again stage _ =>
      cases stage with
      | send => cases hw
      | failed => exact Option.some.inj hw ▸ Iff.rfl
      | dlq => exact Option.some.inj hw ▸ Iff.rfl
      | count => cases hw
  | _ => cases hw

/-- A hook whose update is not final stays live. -/
theorem WriteAt.live {wr : Write} {next : Option Phase} (h : WriteAt worker wr next phase)
    (hf : wr.status.final = false) : ∃ phase', next = some phase' ∧ phase'.live := by
  cases h with
  | start _ _ hn => exact ⟨_, hn, rfl⟩
  | success v hs _ _ => rw [hs] at hf; cases hf
  | failed exc again _ _ hn => exact ⟨_, hn, rfl⟩
  | dlq exc again hs _ _ => rw [hs] at hf; cases hf

theorem WriteAt.status {wr : Write} {next : Option Phase} (h : WriteAt worker wr next phase) :
    wr.status ≠ .pending ∧ wr.status ≠ .cancelled := by
  cases h with
  | start hs _ _ => rw [hs]; decide
  | success v hs _ _ => rw [hs]; decide
  | failed exc again hs _ _ => rw [hs]; decide
  | dlq exc again hs _ _ => rw [hs]; decide

end Piece

/-! ## Messages and revocations -/

section Messages
variable {J : JsonCodec} {w w' : World} {e : Event}

theorem SysStep.published_subset (h : SysStep J w e w') : w.published ⊆ w'.published := by
  rcases h.api_or_offstage with ⟨c, -, ha⟩ | ⟨-, ho⟩
  · exact ha.published_subset
  · exact ho.published ▸ List.Subset.refl _

theorem copies_init (allowed : List String) : Copies (.init allowed) := fun _ _ h => nomatch h

theorem Copies.step (h : Copies w) (hb : Bounded w) (he : SysStep J w e w') : Copies w' := by
  intro s m hm
  have hsub := he.published_subset
  have hold : ∀ {s₀ : SlotId} {m₁ : Message}, (w.slots s₀).message? = some m₁ → m₁.Copy m →
      ∃ m₀ ∈ w'.published, m₀.Copy m := by
    intro s₀ m₁ h₁ hcopy
    obtain ⟨m₀, hm₀, hc⟩ := h s₀ m₁ h₁
    exact ⟨m₀, hsub hm₀, hc.trans hcopy⟩
  cases he.slot hb s with
  | stays hs =>
      rw [hs] at hm
      exact hold hm (.refl m)
  | published _ _ _ hs hp =>
      rw [hs] at hm
      obtain rfl := Option.some.inj hm
      exact ⟨_, hp ▸ List.mem_cons_self, .refl _⟩
  | retried _ _ hs₀ hpiece hq hs =>
      rw [hs] at hm
      obtain rfl := Option.some.inj hm
      exact hold (by rw [hs₀]; rfl) (hpiece.queue_copy hq)
  | redelivered _ _ hs₀ hs =>
      rw [hs] at hm
      obtain rfl := Option.some.inj hm
      exact hold (by rw [hs₀]; rfl) (.refl _)
  | dropped _ _ _ hs => rw [hs] at hm; cases hm
  | taken _ hs₀ _ hs =>
      rw [hs] at hm
      obtain rfl := Option.some.inj hm
      exact hold (by rw [hs₀]; rfl) (.refl _)
  | advanced _ hs₀ _ _ hs =>
      rw [hs] at hm
      obtain rfl := Option.some.inj hm
      exact hold (by rw [hs₀]; rfl) (.refl _)
  | acknowledged _ _ _ _ hs => rw [hs] at hm; cases hm
  | crashed _ hs₀ hs =>
      rw [hs] at hm
      obtain rfl := Option.some.inj hm
      exact hold (by rw [hs₀]; rfl) (.refl _)

/-- A worker hears of a revocation from a `cancel_job` that has read the task id. -/
theorem SysStep.heard (h : SysStep J w e w') {worker : Worker} {t : Uuid}
    (ht : t ∈ w'.heard worker) : t ∈ w.heard worker ∨
      ∃ c j began job, w.calls c = .cancelJob j (.checked began job) ∧
        job.celeryTaskId = some t ∧ .revoked c t ∈ w'.trace := by
  cases h with
  | api _ ha =>
      cases ha with
      | @revoke jobId began job taskId receivers hc htask =>
          simp only [heard_setCall, heard_observe] at ht
          split at ht
          · rcases List.mem_cons.mp ht with rfl | ht
            · exact .inr ⟨_, jobId, began, job, hc, htask, List.mem_cons_self⟩
            · exact .inl ht
          · exact .inl ht
      | land _ =>
          simp only [heard_setCall, heard_countSubmission, heard_observe] at ht
          exact .inl ht
      | _ => exact .inl ht
  | env _ henv => exact .inl (henv.heard worker ht)
  | _ => exact .inl ht

theorem ApiStep.cancelling {c : CallId} (h : ApiStep w c w') {j : Uuid} {pc : CancelPc}
    (hc : w'.calls c = .cancelJob j pc) :
    (∃ pc', w.calls c = .cancelJob j pc') ∨ w.calls c = .idle := by
  cases h with
  | enter op hi => exact .inr hi
  | @move y hl =>
      rw [calls_setCall_self] at hc
      generalize w.calls c = x at hl ⊢
      cases hl with
      | checkCancel _ _ => obtain ⟨rfl, -⟩ := Call.cancelJob.inj hc; exact .inl ⟨_, rfl⟩
      | noTask _ => obtain ⟨rfl, -⟩ := Call.cancelJob.inj hc; exact .inl ⟨_, rfl⟩
      | _ => cases hc
  | lock hx _ =>
      rw [calls_setCall_self] at hc
      obtain ⟨rfl, -⟩ := Call.cancelJob.inj hc
      exact .inl ⟨_, hx⟩
  | revoke _ hx _ =>
      rw [calls_setCall_self] at hc
      obtain ⟨rfl, -⟩ := Call.cancelJob.inj hc
      exact .inl ⟨_, hx⟩
  | _ => simp at hc

/-- An idle call is moved by the request only. -/
theorem step_idle {c : CallId} (he : e.call? = some c) (hs : (system J).step w e = some w')
    (hidle : w.calls c = .idle) :
    ∃ op, e = .call c op ∧ w' = w.setCall c (enter w.allowedTaskNames op) := by
  cases e with
  | call c' op =>
      obtain rfl := Option.some.inj he
      exact ⟨op, rfl, (call_eq_some hs).2⟩
  | api c' =>
      obtain rfl := Option.some.inj he
      change JobService.api w c' = some w' at hs
      simp only [JobService.api, hidle] at hs
      cases hs
  | revoke c' receivers =>
      obtain rfl := Option.some.inj he
      obtain ⟨_, _, _, _, hx, -, -⟩ := revoke_eq_some hs
      rw [hidle] at hx
      cases hx
  | apiFail c' =>
      obtain rfl := Option.some.inj he
      obtain ⟨op, hop, -⟩ := apiFail_cases hs
      rw [hidle] at hop
      cases hop
  | _ => cases he

/-- A call is in `cancel_job` because it was, or because the request has just come. -/
theorem step_cancelling {c : CallId} {j : Uuid} {pc : CancelPc}
    (hs : (system J).step w e = some w') (hc : w'.calls c = .cancelJob j pc) :
    (∃ pc', w.calls c = .cancelJob j pc') ∨ e = .call c (.cancelJob j) ∧ pc = .called := by
  by_cases he : e.call? = some c
  · rcases (step_api he hs).cancelling hc with h | hidle
    · exact .inl h
    · obtain ⟨op, rfl, rfl⟩ := step_idle he hs hidle
      rw [calls_setCall_self] at hc
      have hx := enter_cases w.allowedTaskNames op
      rw [hc] at hx
      cases hx with
      | cancelJob => exact .inr ⟨rfl, rfl⟩
  · rw [step_calls_ne he hs] at hc
    exact .inl ⟨pc, hc⟩

end Messages

/-! ## What the trace says about a job -/

/-- The status update of job `j` an observation shows, and whether it failed. -/
def Obs.update? (j : Uuid) : Obs → Option (JobStatus × Bool)
  | .update i status ok => if i = j then some (status, ok) else none
  | _ => none

/-- `before_start` was called for job `j`. -/
def Obs.starts (j : Uuid) : Obs → Bool
  | .beforeStart i => i = j
  | _ => false

/-- `execute()` was called for job `j`. -/
def Obs.executes (j : Uuid) : Obs → Bool
  | .executeCalled m => m.jobId = j
  | _ => false

namespace World

/-- The status updates issued for job `j`, the latest first. -/
def updatesOf (w : World) (j : Uuid) : List (JobStatus × Bool) :=
  w.trace.filterMap (Obs.update? j)

/-- The target of the last status update issued for job `j`. -/
def issued (w : World) (j : Uuid) : Option JobStatus :=
  (w.updatesOf j).head?.map Prod.fst

/-- The target of the last status update for job `j` that did not fail. -/
def succeeded (w : World) (j : Uuid) : Option JobStatus :=
  ((w.updatesOf j).find? Prod.snd).map Prod.fst

/-- The number of `before_start` calls made for job `j`. -/
def starts (w : World) (j : Uuid) : Nat := w.trace.countP (Obs.starts j)

/-- The number of `execute()` calls made for job `j`. -/
def executions (w : World) (j : Uuid) : Nat := w.trace.countP (Obs.executes j)

end World

/-- The updates a piece of a delivery of `m` issues for job `j`. -/
def BaseTask.Effects.updates (eff : Effects) (m : Message) (j : Uuid) : List (JobStatus × Bool) :=
  match eff.write with
  | some wr => if m.jobId = j then [(wr.status, wr.ok)] else []
  | none => []

/-- What a piece of a delivery of `m` shows, apart from its status update. -/
inductive SeenAt (m : Message) : Phase → List Obs → Prop
  | nothing {phase : Phase} : phase.starts = 0 → phase.executes = 0 → SeenAt m phase []
  | start : SeenAt m .received [.beforeStart m.jobId]
  | called : SeenAt m .missed [.executeCalled m]
  | returned (v : Json) : SeenAt m .executing [.executeReturned m v]
  | retried (m' : Message) {phase : Phase} : phase.starts = 0 → phase.executes = 0 →
      SeenAt m phase [.retryPublished m']

section Trace
variable {J : JsonCodec} {w w' : World} {e : Event} {j : Uuid} {m : Message} {worker : Worker}
  {cached : Option String} {now : Time} {phase : Phase} {i : Input} {eff : Effects}

theorem Piece.seen (h : Piece J m worker cached now phase i eff) : SeenAt m phase eff.seen := by
  cases h with
  | start => exact .start
  | startFails exc => exact .start
  | execute => exact .called
  | returns v => exact .returned v
  | ownRetry delay _ => exact .retried _ rfl rfl
  | retry delay => exact .retried _ rfl rfl
  | failure exc again stage => cases stage <;> exact .nothing rfl rfl
  | failureFails exc exc' again stage => cases stage <;> exact .nothing rfl rfl
  | _ => exact .nothing rfl rfl

theorem SeenAt.update? {obs : List Obs} (h : SeenAt m phase obs) :
    obs.filterMap (Obs.update? j) = [] := by
  cases h <;> rfl

theorem SeenAt.starts {obs : List Obs} (h : SeenAt m phase obs) :
    obs.countP (Obs.starts j) = if m.jobId = j then phase.starts else 0 := by
  cases h with
  | nothing hs _ => rw [hs]; exact (ite_self 0).symm
  | start => simp [List.countP_cons, Obs.starts, Phase.starts]
  | called => exact (ite_self 0).symm
  | returned v => exact (ite_self 0).symm
  | retried m' hs _ => rw [hs]; exact (ite_self 0).symm

theorem SeenAt.executes {obs : List Obs} (h : SeenAt m phase obs) :
    obs.countP (Obs.executes j) = if m.jobId = j then phase.executes else 0 := by
  cases h with
  | nothing _ hs => rw [hs]; exact (ite_self 0).symm
  | start => exact (ite_self 0).symm
  | called => simp [List.countP_cons, Obs.executes, Phase.executes]
  | returned v => exact (ite_self 0).symm
  | retried m' _ hs => rw [hs]; exact (ite_self 0).symm

theorem updatesOf_apply {s : SlotId} {db : Db} (h : Piece J m worker cached w.clock phase i eff) :
    (w.apply J s m worker eff db).updatesOf j = eff.updates m j ++ w.updatesOf j := by
  cases hw : eff.write with
  | none =>
      simp only [World.updatesOf, World.apply, Effects.updates, hw, List.filterMap_append,
        h.seen.update?]
  | some wr =>
      simp only [World.updatesOf, World.apply, Effects.updates, hw, List.filterMap_append,
        h.seen.update?, List.filterMap_cons, Obs.update?]
      by_cases hj : m.jobId = j
      · simp [hj]
      · simp [hj]

/-- A count of observations other than status updates, after a piece of a delivery. -/
theorem countP_apply {p : Obs → Bool} (hp : ∀ j st ok, p (.update j st ok) = false) {s : SlotId}
    {db : Db} : (w.apply J s m worker eff db).trace.countP p =
      eff.seen.countP p + w.trace.countP p := by
  cases hw : eff.write with
  | none => simp only [World.apply, hw, List.countP_append]
  | some wr => simp [World.apply, hw, List.countP_append, hp]

theorem starts_apply {s : SlotId} {db : Db} (h : Piece J m worker cached w.clock phase i eff) :
    (w.apply J s m worker eff db).starts j =
      (if m.jobId = j then phase.starts else 0) + w.starts j := by
  rw [← h.seen.starts]
  exact countP_apply fun _ _ _ => rfl

theorem executions_apply {s : SlotId} {db : Db} (h : Piece J m worker cached w.clock phase i eff) :
    (w.apply J s m worker eff db).executions j =
      (if m.jobId = j then phase.executes else 0) + w.executions j := by
  rw [← h.seen.executes]
  exact countP_apply fun _ _ _ => rfl

/-- Other events show what the API does, and nothing else. -/
theorem SysStep.shows_api (h : SysStep J w e w') (hw : ∀ s i, e ≠ .work s i) :
    ∃ new, w'.trace = new ++ w.trace ∧ ∀ o ∈ new, o.OfApi := by
  have hone : ∀ {o : Obs}, o.OfApi → w'.trace = o :: w.trace →
      ∃ new, w'.trace = new ++ w.trace ∧ ∀ o ∈ new, o.OfApi := by
    intro o ho ht
    refine ⟨[o], ht, ?_⟩
    intro o' ho'
    rw [List.mem_singleton.mp ho']
    exact ho
  have hnone : w'.trace = w.trace → ∃ new, w'.trace = new ++ w.trace ∧ ∀ o ∈ new, o.OfApi := by
    intro ht
    refine ⟨[], ht, ?_⟩
    intro o ho
    cases ho
  cases h with
  | work _ _ _ => exact absurd rfl (hw _ _)
  | @api _ c _ _ ha =>
      cases ha with
      | @land sub t _ =>
          refine hone (o := .committed c sub.job.id) trivial ?_
          simp only [trace_setCall, trace_countSubmission, trace_observe]
      | @send sub _ => exact hone (o := .published c (message sub w.uuid)) trivial rfl
      | @cancel jobId _ => exact hone (o := .committed c jobId) trivial rfl
      | @revoke _ _ _ t _ _ _ => exact hone (o := .revoked c t) trivial rfl
      | _ => exact hnone rfl
  | env _ henv => exact hnone henv.trace
  | _ => exact hnone rfl

/-- What was seen was seen. -/
theorem SysStep.trace_suffix (h : SysStep J w e w') : w.trace <:+ w'.trace := by
  rcases h.worked with ⟨-, -, -, -, rfl⟩ | hne
  · simp only [World.apply]
    split
    · exact ⟨_ ++ [_], List.append_assoc ..⟩
    · exact List.suffix_append _ _
  · obtain ⟨new, ht, -⟩ := h.shows_api hne
    exact ⟨new, ht.symm⟩

theorem SysStep.updatesOf (h : SysStep J w e w') (hw : ∀ s i, e ≠ .work s i) :
    w'.updatesOf j = w.updatesOf j := by
  obtain ⟨new, ht, hn⟩ := h.shows_api hw
  have hnone : new.filterMap (Obs.update? j) = [] := by
    refine List.filterMap_eq_nil_iff.mpr ?_
    intro o ho
    cases o with
    | update i st ok => exact (hn _ ho).elim
    | _ => rfl
  rw [World.updatesOf, ht, List.filterMap_append, hnone]
  rfl

/-- A count of observations that are not the API's changes with deliveries only. -/
theorem SysStep.countP {p : Obs → Bool} (hp : ∀ o : Obs, o.OfApi → p o = false)
    (h : SysStep J w e w') (hw : ∀ s i, e ≠ .work s i) :
    w'.trace.countP p = w.trace.countP p := by
  obtain ⟨new, ht, hn⟩ := h.shows_api hw
  have hzero : new.countP p = 0 := by
    refine List.countP_eq_zero.mpr ?_
    intro o ho
    rw [hp o (hn o ho)]
    exact Bool.false_ne_true
  rw [ht, List.countP_append, hzero, Nat.zero_add]

/-- The `before_start` calls after a piece of a delivery, whatever its effects. -/
theorem SysStep.starts_work {s : SlotId} (h : SysStep J w (.work s i) w')
    (hs : w.slots s = .delivered m worker phase) :
    w'.starts j = (if m.jobId = j then phase.starts else 0) + w.starts j := by
  cases h with
  | api hc _ => cases hc
  | env hn _ => cases hn
  | work hs' hp _ =>
      rw [hs', Slot.delivered.injEq] at hs
      obtain ⟨rfl, rfl, rfl⟩ := hs
      exact starts_apply hp

theorem SysStep.starts (h : SysStep J w e w') (hw : ∀ s i, e ≠ .work s i) :
    w'.starts j = w.starts j := by
  refine h.countP ?_ hw
  intro o ho
  cases o with
  | beforeStart i => exact ho.elim
  | _ => rfl

theorem SysStep.executions (h : SysStep J w e w') (hw : ∀ s i, e ≠ .work s i) :
    w'.executions j = w.executions j := by
  refine h.countP ?_ hw
  intro o ho
  cases o with
  | executeCalled m => exact ho.elim
  | _ => rfl

end Trace

/-! ## New rows -/

/-- The columns only the hooks and `cancel_job` write are as the INSERT left them. -/
structure Job.Blank (r : Job) : Prop where
  status : r.status = .pending
  executionCount : r.executionCount = 0
  workerId : r.workerId = none
  errorDetail : r.errorDetail = none
  result : r.result = none
  startedAt : r.startedAt = none
  completedAt : r.completedAt = none

theorem Builds.blank {w : World} {x : Call} {n : Nat} {sub : Submission} (h : Builds w x n sub) :
    sub.job.Blank := by
  cases h <;> exact ⟨rfl, rfl, rfl, rfl, rfl, rfl, rfl⟩

/-- The rows being inserted are blank. -/
def Blanks (w : World) : Prop :=
  ∀ c sub stage, w.calls c = .submitting sub stage → sub.job.Blank

theorem blanks_init (allowed : List String) : Blanks (.init allowed) := fun _ _ _ h => nomatch h

theorem Blanks.step {J : JsonCodec} {w w' : World} {e : Event} (h : Blanks w)
    (he : SysStep J w e w') : Blanks w' := by
  intro c sub stage hc
  rcases he.api_or_offstage with ⟨c₀, -, ha⟩ | ⟨-, ho⟩
  · by_cases hne : c = c₀
    · subst hne
      rcases ha.submitting hc with ⟨n, hb⟩ | ⟨stage', hc'⟩
      · exact hb.blank
      · exact h c sub stage' hc'
    · exact h c sub stage (ha.calls_ne hne ▸ hc)
  · exact h c sub stage (ho.calls ▸ hc)

/-- The row of a submission is as blank as its job. -/
theorem Job.Blank.row {sub : Submission} (h : sub.job.Blank) (t : Uuid) : (sub.row t).Blank :=
  ⟨h.status, h.executionCount, h.workerId, h.errorDetail, h.result, h.startedAt, h.completedAt⟩

/-! ## One row -/

/-- What the event `e` does to the row of job `j`. -/
inductive RowMove (J : JsonCodec) (w : World) (e : Event) (w' : World) (j : Uuid) : Prop
  | stays : w'.db.find j = w.db.find j → RowMove J w e w' j
  | landed {c : CallId} {sub : Submission} {t : Uuid} : e.call? = some c →
      w.calls c = .submitting sub (.sent t) → sub.job.id = j → w.db.find j = none →
      w'.db.find j = some (sub.row t) → RowMove J w e w' j
  | cancelled {c : CallId} {began : Time} : e.call? = some c →
      w.calls c = .cancelJob j .updated →
      w'.db.find j = (w.db.find j).map (cancelPatch began).apply → RowMove J w e w' j
  | written {s : SlotId} {i : Input} {m : Message} {worker : Worker} {phase : Phase}
      {eff : Effects} {wr : Write} : e = .work s i → w.slots s = .delivered m worker phase →
      Piece J m worker (w.cache (cacheKey m.idempotencyKey)) w.clock phase i eff →
      eff.write = some wr → wr.ok → m.jobId = j → (∀ l ∈ w.db.locks, l.2.1 ≠ j) →
      w'.db.find j = (w.db.find j).map (values w.clock wr.status wr.fields) → RowMove J w e w' j

section Row
variable {J : JsonCodec} {w w' : World} {e : Event}

/-- The row of `j` after a status update of the row of `i`. -/
theorem find_write {i : Uuid} {wr? : Option Write} {db : Db} (h : w.write i wr? = some db)
    (j : Uuid) : db.find j = w.db.find j ∧ (∀ wr, wr? = some wr → i = j → wr.ok = false) ∨
      ∃ wr, wr? = some wr ∧ wr.ok = true ∧ i = j ∧ (∀ l ∈ w.db.locks, l.2.1 ≠ j) ∧
        db.find j = (w.db.find j).map (values w.clock wr.status wr.fields) := by
  rcases write_cases h with ⟨rfl, hok⟩ | ⟨wr, hw, hok, hl, rfl⟩
  · exact .inl ⟨rfl, fun wr hwr _ => hok wr hwr⟩
  · by_cases hij : i = j
    · subst hij
      exact .inr ⟨wr, hw, hok, rfl, hl, Store.find_patch_self ..⟩
    · exact .inl ⟨Store.find_patch_ne _ _ fun he => hij he.symm, fun _ _ he => absurd he hij⟩

/-- The row after the UPDATE that a piece of a delivery of its job issues. -/
def BaseTask.Effects.patched (eff : Effects) (now : Time) (r : Job) : Job :=
  match eff.write with
  | some wr => if wr.ok then values now wr.status wr.fields r else r
  | none => r

theorem find_patched {eff : Effects} {db : Db} {j : Uuid} (hdb : w.write j eff.write = some db)
    {r : Job} (hr : w.db.find j = some r) : db.find j = some (eff.patched w.clock r) := by
  rcases find_write hdb j with ⟨hf, hno⟩ | ⟨wr, hw, hok, -, -, hf⟩
  · rw [hf, hr]
    cases hw : eff.write with
    | none => simp only [Effects.patched, hw]
    | some wr => simp [Effects.patched, hw, hno wr hw rfl]
  · rw [hf, hr]
    simp only [Effects.patched, hw, hok, if_true, Option.map_some]

theorem find_patched_map {eff : Effects} {db : Db} {j : Uuid}
    (hdb : w.write j eff.write = some db) :
    db.find j = (w.db.find j).map (eff.patched w.clock) := by
  cases hr : w.db.find j with
  | some r => exact find_patched hdb hr
  | none =>
      rcases find_write hdb j with ⟨hf, -⟩ | ⟨wr, -, -, -, -, hf⟩
      · rw [hf, hr]
        rfl
      · rw [hf, hr]
        rfl

theorem find_cancelled {db db' : Db} {j : Uuid} {began : Time}
    (h : db'.rows = db.rows.map ((cancelPatch began).applyAt j)) :
    db'.find j = (db.find j).map (cancelPatch began).apply := by
  rw [find_mapped h]
  cases hf : db.find j with
  | none => rfl
  | some r =>
      rw [Option.map_some, Option.map_some, Patch.applyAt_of_eq _ (Store.find_eq_some.mp hf).2]

theorem SysStep.row (h : SysStep J w e w') (hg : Ground w) (j : Uuid) : RowMove J w e w' j := by
  cases h with
  | @api _ c _ hc ha =>
      cases ha.rows (hg.sessions c) with
      | same hrows => exact .stays (find_eq_of_rows hrows j)
      | landed sub t hx _ hrows =>
          by_cases hid : sub.job.id = j
          · have hnone : w.db.find j = none := hid ▸ hg.sessions.unborn hx nofun
            refine .landed hc hx hid hnone ?_
            rw [find_landed hrows, hnone, Option.none_or]
            exact if_pos hid
          · refine .stays ?_
            rw [find_landed hrows]
            have hne : (sub.row t).id ≠ j := hid
            rw [if_neg hne, Option.or_none]
      | cancelled jobId began hx _ hrows =>
          by_cases hid : jobId = j
          · subst hid
            exact .cancelled hc hx (find_cancelled hrows)
          · exact .stays (find_mapped_ne hrows fun he => hid he.symm)
  | work hs hp hdb =>
      rcases find_write hdb j with ⟨hf, -⟩ | ⟨wr, hw, hok, hj, hl, hf⟩
      · exact .stays hf
      · exact .written rfl hs hp hw hok hj hl hf
  | env _ henv => exact .stays (by rw [henv.db])
  | _ => exact .stays rfl

/-- A row is a later version of an old one, or a submission has just committed it. -/
theorem SysStep.row_origin (h : SysStep J w e w') (hg : Ground w) {r : Job}
    (hr : r ∈ w'.db.rows) : (∃ r₀ ∈ w.db.rows, r₀.Origin r) ∨
      ∃ c sub t, e.call? = some c ∧ w.calls c = .submitting sub (.sent t) ∧ r = sub.row t := by
  have hf : w'.db.find r.id = some r := Store.find_eq_some.mpr ⟨hr, rfl⟩
  cases h.row hg r.id with
  | stays hsame => exact .inl ⟨r, (Store.find_eq_some.mp (hsame ▸ hf)).1, .refl r⟩
  | landed hc hx _ _ hnew =>
      rw [hf, Option.some.injEq] at hnew
      exact .inr ⟨_, _, _, hc, hx, hnew⟩
  | cancelled _ _ hmap =>
      rw [hf] at hmap
      obtain ⟨r₀, hr₀, rfl⟩ := Option.map_eq_some_iff.mp hmap.symm
      exact .inl ⟨r₀, (Store.find_eq_some.mp hr₀).1, keepsOrigin_cancel _ r₀⟩
  | written _ _ _ _ _ _ _ hmap =>
      rw [hf] at hmap
      obtain ⟨r₀, hr₀, rfl⟩ := Option.map_eq_some_iff.mp hmap.symm
      exact .inl ⟨r₀, (Store.find_eq_some.mp hr₀).1, keepsOrigin_status _ _ _ r₀⟩

end Row

end Aegis
