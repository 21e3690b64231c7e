/-
# `AegisWorkers.DeadLetters` — the queue `dlq` and the jobs in DLQ

`on_failure` publishes a `dlq.receive` message, goes on when that fails, and then writes
FAILED and DLQ; the workers consume the queue `dlq` as well.  So the queue does not hold what
the table says: it holds what has been published and not received.  In fault-free runs one
call of `on_failure` buries a job, and the two agree up to a publish that failed and a message
that was received.

    w.deadLetters j    the `dlq.receive` messages of job `j` in the queue
    dlqSent j p        the publishes of `on_failure` for the job that returned
    dlqFailed j p      those that raised
    dlqReceived j p    the messages of the job that `dlq_receive` has taken
    invalidated j p    the ValidationErrors of the job: `run` itself calls `on_failure` then
-/
import AegisWorkers.Coherence
import AegisWorkers.Custody
import AegisWorkers.Lifecycle
import AegisWorkers.Lineage

namespace Aegis

open BaseTask JobService ReadCommitted

/-! ## What is counted -/

/-- The number of `dlq.receive` messages in the queue that name job `j`. -/
def World.deadLetters (w : World) (j : Uuid) : Nat :=
  w.dlq.countP fun d => d.originalJobId = j

/-- `on_failure` is about to publish. -/
def Phase.sends : Phase → Bool
  | .failing _ _ .send => true
  | _ => false

/-- `on_failure` is in progress. -/
def Phase.inFailure : Phase → Bool
  | .failing _ _ _ => true
  | _ => false

/-- Whether the event is a publish of `on_failure` for job `j`, and whether it returns. -/
def dlqSend? (j : Uuid) (x : World × Event) : Option Bool :=
  match x.2 with
  | .work s i => if (x.1.slots s).inPhase Phase.sends Message.jobId j then some i.ok else none
  | _ => none

/-- `dlq_receive` takes a message of job `j`. -/
def receives (j : Uuid) (x : World × Event) : Bool :=
  match x.2 with
  | .dlqReceive => x.1.dlq.head?.any fun d => d.originalJobId = j
  | _ => false

/-- `execute()` is running. -/
def Phase.inExecute : Phase → Bool
  | .executing => true
  | _ => false

/-- `execute()` has raised a ValidationError. -/
def BaseTask.Input.rejects : Input → Bool
  | .ends (.validationError _) => true
  | _ => false

/-- `execute()` raises a ValidationError in a delivery of job `j`. -/
def invalidates (j : Uuid) (x : World × Event) : Bool :=
  match x.2 with
  | .work s i => (x.1.slots s).inPhase Phase.inExecute Message.jobId j && i.rejects
  | _ => false

def dlqSent (j : Uuid) (p : Past) : Nat := p.countP fun x => dlqSend? j x = some true

def dlqFailed (j : Uuid) (p : Past) : Nat := p.countP fun x => dlqSend? j x = some false

/-- The calls of `on_failure` for job `j`: each makes its publish first. -/
def failures (j : Uuid) (p : Past) : Nat := dlqSent j p + dlqFailed j p

def dlqReceived (j : Uuid) (p : Past) : Nat := p.countP (receives j)

def invalidated (j : Uuid) (p : Past) : Nat := p.countP (invalidates j)

/-! ## The queue -/

section Queue
variable {J : JsonCodec} {w w' : World} {e : Event} {j : Uuid} {p : Past}

theorem failures_cons (x : World × Event) :
    failures j (x :: p) = failures j p + (dlqSend? j x).isSome.toNat := by
  simp only [failures, dlqSent, dlqFailed, List.countP_cons]
  cases dlqSend? j x with
  | none => simp
  | some ok => cases ok <;> simp <;> omega

theorem dlqSend?_work {s : SlotId} {i : Input} {m : Message} {worker : Worker} {phase : Phase}
    (hs : w.slots s = .delivered m worker phase) : dlqSend? j (w, .work s i) =
      if m.jobId = j ∧ phase.sends then some i.ok else none := by
  simp only [dlqSend?, hs, Slot.inPhase, Bool.and_eq_true, decide_eq_true_eq]

theorem Piece.dlq {m : Message} {worker : Worker} {cached : Option String} {now : Time}
    {phase : Phase} {i : Input} {eff : Effects} (h : Piece J m worker cached now phase i eff) :
    eff.dlq.isSome = (phase.sends && i.ok) := by
  cases h with
  | failure exc again stage => cases stage <;> rfl
  | failureFails exc exc' again stage => cases stage <;> rfl
  | _ => rfl

theorem dlq_countSubmission (w : World) (sub : Submission) :
    (countSubmission w sub).dlq = w.dlq := by
  unfold countSubmission; split <;> rfl

theorem ApiStep.dlq {c : CallId} (h : ApiStep w c w') : w'.dlq = w.dlq := by
  cases h with
  | land _ => exact dlq_countSubmission _ _
  | _ => rfl

theorem deadLetters_apply {s : SlotId} {m : Message} {worker : Worker} {eff : Effects} {db : Db} :
    (w.apply J s m worker eff db).deadLetters j =
      w.deadLetters j + (decide (m.jobId = j) && eff.dlq.isSome).toNat := by
  cases hd : eff.dlq with
  | none => simp [World.deadLetters, World.apply, hd]
  | some text =>
      by_cases hj : m.jobId = j <;>
        simp [World.deadLetters, World.apply, hd, List.countP_append, hj]

/-- The queue gains what `on_failure` publishes and loses what `dlq_receive` takes. -/
theorem deadLetters_step (hs : (system J).step w e = some w') :
    w'.deadLetters j + (receives j (w, e)).toNat =
      w.deadLetters j + (decide (dlqSend? j (w, e) = some true)).toNat := by
  have hsame : w'.dlq = w.dlq → dlqSend? j (w, e) = none → receives j (w, e) = false →
      w'.deadLetters j + (receives j (w, e)).toNat =
        w.deadLetters j + (decide (dlqSend? j (w, e) = some true)).toNat := by
    intro hdlq hsend hrec
    rw [World.deadLetters, hdlq, hsend, hrec]
    rfl
  cases step_cases hs with
  | api hc ha =>
      refine hsame ha.dlq ?_ ?_ <;> cases e <;> first | rfl | cases hc
  | @work s i m worker phase eff db hslot hp _ =>
      have hnone : receives j (w, .work s i) = false := rfl
      rw [deadLetters_apply, hp.dlq, dlqSend?_work hslot, hnone]
      by_cases hj : m.jobId = j <;> cases phase.sends <;> cases i.ok <;> simp [hj]
  | env hn _ =>
      cases e with
      | boot worker => exact Option.some.inj hs ▸ rfl
      | tick n => exact Option.some.inj hs ▸ rfl
      | expire key => exact Option.some.inj hs ▸ rfl
      | deploy allowed => exact Option.some.inj hs ▸ rfl
      | dlqReceive =>
          change w.dlqReceive = some w' at hs
          unfold World.dlqReceive at hs
          split at hs
          · rename_i d rest hd
            obtain rfl := Option.some.inj hs
            simp only [World.deadLetters, receives, dlqSend?, hd, List.countP_cons, List.head?_cons,
              Option.any_some]
            cases decide (d.originalJobId = j) <;> rfl
          · cases hs
      | updateDlqMetrics ok => exact Option.some.inj hs ▸ rfl
      | _ => cases hn
  | _ => exact hsame rfl rfl rfl

theorem receives_cons (x : World × Event) :
    dlqReceived j (x :: p) = dlqReceived j p + (receives j x).toNat := by
  rw [dlqReceived, dlqReceived, List.countP_cons]
  cases receives j x <;> rfl

theorem dlqSent_cons (x : World × Event) :
    dlqSent j (x :: p) = dlqSent j p + (decide (dlqSend? j x = some true)).toNat := by
  rw [dlqSent, dlqSent, List.countP_cons]
  cases decide (dlqSend? j x = some true) <;> rfl

theorem invalidated_cons (x : World × Event) :
    invalidated j (x :: p) = invalidated j p + (invalidates j x).toNat := by
  rw [invalidated, invalidated, List.countP_cons]
  cases invalidates j x <;> rfl

/-- The queue holds what has been published and not received. -/
theorem run_deadLetters {P : World → Event → Prop} {allowed : List String} {es : List Event}
    (h : (system J).Run P (.init allowed) es w) :
    w.deadLetters j + dlqReceived j ((system J).past [] (.init allowed) es) =
      dlqSent j ((system J).past [] (.init allowed) es) := by
  refine h.invariant_past (I := fun p w => w.deadLetters j + dlqReceived j p = dlqSent j p) ?_
    (p := []) rfl
  intro p w w' e hi _ hs
  have hstep := deadLetters_step (j := j) hs
  rw [receives_cons, dlqSent_cons]
  omega

end Queue

/-! ## A job in DLQ has been through `on_failure` -/

/-- A row in DLQ, and a delivery about to write its job's status in `on_failure`, come after
the publish of `on_failure`. -/
structure Failed (j : Uuid) (p : Past) (w : World) : Prop where
  buries : ∀ s, (w.slots s).inPhase Phase.buries Message.jobId j → 0 < failures j p
  row : w.status? j = some .dlq → 0 < failures j p

section Failed
variable {J : JsonCodec} {w w' : World} {e : Event} {j : Uuid} {p : Past}

theorem failed_init (j : Uuid) (allowed : List String) : Failed j [] (.init allowed) where
  buries _ h := absurd h Bool.false_ne_true
  row h := nomatch h

theorem failures_le (x : World × Event) : failures j p ≤ failures j (x :: p) := by
  rw [failures_cons]
  exact Nat.le_add_right _ _

theorem Failed.step (h : Failed j p w) (hg : Ground w) (he : SysStep J w e w') :
    Failed j ((w, e) :: p) w' := by
  have hmono : 0 < failures j p → 0 < failures j ((w, e) :: p) :=
    fun hpos => Nat.lt_of_lt_of_le hpos (failures_le _)
  constructor
  · intro s hs
    obtain ⟨m, worker, phase', hs', hj, hphase⟩ := Slot.inPhase_iff.mp hs
    cases he.delivered hg.bounded hs' with
    | stays _ hs₀ => exact hmono (h.buries s (Slot.inPhase_iff.mpr ⟨m, worker, _, hs₀, hj, hphase⟩))
    | taken _ _ hrec => rw [hrec] at hphase; cases hphase
    | advanced hev hs₀ hp hn _ =>
        subst hev
        rcases hp.buries hn hphase with hb | ⟨exc, again, rfl⟩
        · exact hmono (h.buries s (Slot.inPhase_iff.mpr ⟨m, worker, _, hs₀, hj, hb⟩))
        · rw [failures_cons, dlqSend?_work hs₀, if_pos ⟨hj, rfl⟩]
          exact Nat.succ_pos _
  · intro hst
    obtain ⟨r', hr', hst'⟩ := World.status?_eq_some.mp hst
    cases he.row hg j with
    | stays hf => exact hmono (h.row (World.status?_eq_some.mpr ⟨r', hf ▸ hr', hst'⟩))
    | landed _ hx _ _ hf =>
        rw [hf, Option.some.injEq] at hr'
        have hpending := (hg.submissions.coherent _ _ _ hx).pending
        rw [← hr'] at hst'
        cases hpending.symm.trans hst'
    | cancelled _ _ hf =>
        rw [hf] at hr'
        obtain ⟨r, -, rfl⟩ := Option.map_eq_some_iff.mp hr'
        cases hst'
    | @written s i m worker phase eff wr _ hs hp hwr _ hj _ hf =>
        rw [hf] at hr'
        obtain ⟨r, -, rfl⟩ := Option.map_eq_some_iff.mp hr'
        have hdlq : wr.status = .dlq := hst'
        cases hp.write hwr with
        | dlq exc again _ _ _ =>
            exact hmono (h.buries s (Slot.inPhase_iff.mpr ⟨m, worker, _, hs, hj, rfl⟩))
        | start hst₁ _ _ => rw [hdlq] at hst₁; cases hst₁
        | success v hst₁ _ _ => rw [hdlq] at hst₁; cases hst₁
        | failed exc again hst₁ _ _ => rw [hdlq] at hst₁; cases hst₁

end Failed

/-! ## Fault-free runs -/

/-- What a phase says of the calls of `on_failure` and of the ValidationErrors so far. -/
def Phase.Tells (calls errors : Nat) : Phase → Prop
  | .failing _ true _ => 0 < errors
  | .failing _ false .send => calls = 0 ∨ 0 < errors
  | .failing _ false .failed => calls ≤ 1 ∨ 0 < errors
  | .failing _ false .dlq => calls ≤ 1 ∨ 0 < errors
  | .failing _ false .count => calls ≤ 1 ∨ 0 < errors
  | .retried => True
  | .handled => True
  | _ => calls = 0

/-- Without a ValidationError, one call of `on_failure` ends the chain of the job and buries
its row. -/
structure Buried (j : Uuid) (p : Past) (w : World) : Prop where
  unborn : w.db.find j = none → failures j p = 0
  queued : ∀ s m, w.slots s = .queued m → m.jobId = j → failures j p = 0
  delivered : ∀ s m worker phase, w.slots s = .delivered m worker phase → m.jobId = j →
    phase.Tells (failures j p) (invalidated j p)
  once : failures j p ≤ 1 ∨ 0 < invalidated j p
  row : 0 < failures j p → (∃ s, (w.slots s).inPhase Phase.inFailure Message.jobId j) ∨
    w.status? j = some .dlq

section Buried
variable {J : JsonCodec} {w w' : World} {e : Event} {j : Uuid} {p : Past}

theorem buried_init (j : Uuid) (allowed : List String) : Buried j [] (.init allowed) where
  unborn _ := rfl
  queued _ _ h := nomatch h
  delivered _ _ _ _ h := nomatch h
  once := .inl (Nat.zero_le 1)
  row h := absurd h (Nat.lt_irrefl 0)

theorem Phase.tells_of_over {phase : Phase} {a v : Nat} (h : phase.over) : phase.Tells a v := by
  cases phase with
  | retried => trivial
  | handled => trivial
  | _ => cases h

/-- A delivery that is not in `on_failure`, and has not handed its job over. -/
theorem Phase.tells_of_open {phase : Phase} {a v : Nat} (hover : phase.over = false)
    (hf : phase.inFailure = false) : phase.Tells a v ↔ a = 0 := by
  cases phase with
  | retried => cases hover
  | handled => cases hover
  | failing exc again stage => cases hf
  | _ => exact Iff.rfl

/-- What `on_failure` tells, whether its external calls return or raise. -/
theorem onFailure_tells {exc : Exc} {again ok : Bool} {stage : FailureStage} {phase' : Phase}
    {a v : Nat} (hn : (onFailure exc again ok stage).next = some phase')
    (ht : (Phase.failing exc again stage).Tells a v) :
    phase'.Tells (a + (Phase.failing exc again stage).sends.toNat) v ∧
      (onFailure exc again ok stage).queue = none := by
  cases stage with
  | send =>
      obtain rfl := Option.some.inj hn
      refine ⟨?_, rfl⟩
      cases again with
      | true => exact ht
      | false => exact ht.imp (fun hzero => Nat.le_of_eq (congrArg (· + 1) hzero)) id
  | failed =>
      obtain rfl := Option.some.inj hn
      refine ⟨?_, rfl⟩
      cases again with
      | true => exact ht
      | false => exact ht
  | dlq =>
      obtain rfl := Option.some.inj hn
      refine ⟨?_, rfl⟩
      cases again with
      | true => exact ht
      | false => exact ht
  | count =>
      obtain rfl := Option.some.inj hn
      refine ⟨?_, rfl⟩
      cases again with
      | true => exact .inr ht
      | false => trivial

/-- How an outstanding delivery comes to `on_failure`, goes through it and leaves it; it
publishes no retry after that. -/
theorem Piece.tells {m : Message} {worker : Worker} {cached : Option String} {now : Time}
    {phase phase' : Phase} {i : Input} {eff : Effects} {a v : Nat}
    (h : Piece J m worker cached now phase i eff) (hn : eff.next = some phase')
    (ht : phase.Tells a v) :
    phase'.Tells (a + phase.sends.toNat) (v + (phase.inExecute && i.rejects).toNat) ∧
      ∀ m', eff.queue = some m' → a + phase.sends.toNat = 0 := by
  cases h with
  | undecodable _ =>
      obtain rfl := Option.some.inj hn
      refine ⟨?_, nofun⟩
      split
      · exact ht
      · exact .inl ht
  | lookupFails exc =>
      obtain rfl := Option.some.inj hn
      refine ⟨?_, nofun⟩
      split
      · exact ht
      · exact .inl ht
  | invalid exc =>
      obtain rfl := Option.some.inj hn
      exact ⟨Nat.succ_pos v, nofun⟩
  | exhausted exc _ =>
      obtain rfl := Option.some.inj hn
      exact ⟨.inl ht, nofun⟩
  | failure exc again stage =>
      obtain ⟨ht', hq⟩ := onFailure_tells hn ht
      refine ⟨ht', ?_⟩
      intro m' hm'
      rw [hq] at hm'
      cases hm'
  | failureFails exc exc' again stage _ =>
      obtain ⟨ht', hq⟩ := onFailure_tells hn ht
      refine ⟨ht', ?_⟩
      intro m' hm'
      rw [hq] at hm'
      cases hm'
  | ownRetry delay _ =>
      obtain rfl := Option.some.inj hn
      exact ⟨ht, fun _ _ => ht⟩
  | retry delay again =>
      obtain rfl := Option.some.inj hn
      exact ⟨trivial, fun _ _ => ht⟩
  | retryFails delay exc =>
      obtain rfl := Option.some.inj hn
      refine ⟨?_, nofun⟩
      split
      · exact ht
      · exact .inl ht
  | rejected delay exc => obtain rfl := Option.some.inj hn; exact ⟨trivial, nofun⟩
  | storeFails v exc => obtain rfl := Option.some.inj hn; exact ⟨.inl ht, nofun⟩
  | store v => obtain rfl := Option.some.inj hn; exact ⟨trivial, nofun⟩
  | onRetry => obtain rfl := Option.some.inj hn; exact ⟨trivial, nofun⟩
  | ack => cases hn
  | _ => obtain rfl := Option.some.inj hn; exact ⟨ht, nofun⟩

/-- Where no outstanding delivery of the job moves, nothing is counted for it. -/
theorem uncounted (hquiet : ∀ s i, e = .work s i → ¬ (w.slots s).pends j) :
    failures j ((w, e) :: p) = failures j p ∧ invalidated j ((w, e) :: p) = invalidated j p := by
  have hopen : ∀ {s : SlotId} {q : Phase → Bool}, (∀ phase, q phase → phase.over = false) →
      (w.slots s).inPhase q Message.jobId j → (w.slots s).pends j := by
    intro s q hq hin
    obtain ⟨m, worker, phase, hs, rfl, hphase⟩ := Slot.inPhase_iff.mp hin
    exact pends_of_delivered hs (hq phase hphase)
  have hsend : dlqSend? j (w, e) = none := by
    cases e with
    | work s i =>
        refine if_neg ?_
        intro hin
        refine hquiet s i rfl (hopen ?_ hin)
        intro phase hphase
        cases phase with
        | failing exc again stage => rfl
        | _ => cases hphase
    | _ => rfl
  have hrej : invalidates j (w, e) = false := by
    cases e with
    | work s i =>
        refine Bool.eq_false_iff.mpr ?_
        intro hrej
        refine hquiet s i rfl (hopen ?_ (Bool.and_eq_true_iff.mp hrej).1)
        intro phase hphase
        cases phase with
        | executing => rfl
        | _ => cases hphase
    | _ => rfl
  rw [failures_cons, invalidated_cons, hsend, hrej]
  exact ⟨rfl, rfl⟩

/-- The row of a job that an outstanding delivery in `on_failure` leaves. -/
theorem Piece.buried {m : Message} {worker : Worker} {cached : Option String} {now : Time}
    {phase phase' : Phase} {i : Input} {eff : Effects} {r : Job}
    (h : Piece J m worker cached now phase i eff) (hn : eff.next = some phase')
    (hfits : phase.Fits m r) (hin : phase.inFailure) (hout : phase'.inFailure = false) :
    (eff.patched now r).status = .dlq := by
  cases h with
  | failure exc again stage =>
      cases stage with
      | count => exact (Phase.fits_count.mp hfits).1
      | _ => obtain rfl := Option.some.inj hn; cases hout
  | failureFails exc exc' again stage hne =>
      cases stage with
      | count => exact absurd rfl hne
      | _ => obtain rfl := Option.some.inj hn; cases hout
  | _ => cases hin

theorem Piece.goes_on {m : Message} {worker : Worker} {cached : Option String} {now : Time}
    {phase : Phase} {i : Input} {eff : Effects} (h : Piece J m worker cached now phase i eff)
    (hover : phase.over = false) : ∃ phase', eff.next = some phase' := by
  cases h with
  | ack => cases hover
  | failure exc again stage => cases stage <;> exact ⟨_, rfl⟩
  | failureFails exc exc' again stage _ => cases stage <;> exact ⟨_, rfl⟩
  | _ => exact ⟨_, rfl⟩

theorem Buried.worked {s : SlotId} {i : Input} {m : Message} {worker : Worker} {phase : Phase}
    {eff : Effects} {db : Db} (h : Buried m.jobId p w) (hch : Chained m.jobId w)
    (hs : w.slots s = .delivered m worker phase) (hover : phase.over = false)
    (hp : Piece J m worker (w.cache (cacheKey m.idempotencyKey)) w.clock phase i eff)
    (hdb : w.write m.jobId eff.write = some db) :
    Buried m.jobId ((w, .work s i) :: p) (w.apply J s m worker eff db) := by
  have hcalls : failures m.jobId ((w, .work s i) :: p) =
      failures m.jobId p + phase.sends.toNat := by
    rw [failures_cons, dlqSend?_work hs]
    cases phase.sends <;> simp
  have herrors : invalidated m.jobId ((w, .work s i) :: p) =
      invalidated m.jobId p + (phase.inExecute && i.rejects).toNat := by
    rw [invalidated_cons]
    simp only [invalidates, hs, Slot.inPhase, decide_true, Bool.true_and]
  obtain ⟨phase', hn⟩ := hp.goes_on hover
  obtain ⟨ht, hq⟩ := hp.tells hn (h.delivered s m worker phase hs rfl)
  obtain ⟨r, hr, hfits⟩ := hch.delivered s m worker phase hs rfl
  have hr' : db.find m.jobId = some (eff.patched w.clock r) := find_patched hdb hr
  have hafter := @Chained.holds_after J w s m worker phase phase' eff db hch hs hover hn
  rw [← hcalls] at ht hq
  rw [← herrors] at ht
  constructor
  · intro hnone
    have hnone' : db.find m.jobId = none := hnone
    rw [hr'] at hnone'
    cases hnone'
  · intro s' m₁ hs' hj₁
    cases hafter (by rw [hs']; rfl) hj₁ with
    | self _ _ _ hslot => rw [hs'] at hslot; cases hslot
    | retry _ hqueue _ => exact hq m₁ hqueue
    | past _ _ _ hslot _ => rw [hs'] at hslot; cases hslot
  · intro s' m₁ worker₁ phase₁ hs' hj₁
    cases hafter (by rw [hs']; rfl) hj₁ with
    | self _ _ _ hslot =>
        rw [hs', Slot.delivered.injEq] at hslot
        rw [hslot.2.2]
        exact ht
    | retry _ _ hslot => rw [hs'] at hslot; cases hslot
    | past _ _ _ hslot ho =>
        rw [hs', Slot.delivered.injEq] at hslot
        rw [hslot.2.2]
        exact Phase.tells_of_over ho
  · rw [hcalls, herrors]
    cases hsend : phase.sends with
    | false => exact h.once.imp id fun hpos => Nat.lt_of_lt_of_le hpos (Nat.le_add_right _ _)
    | true =>
        -- the publish of `on_failure`: the first, or one after a ValidationError
        have htell := h.delivered s m worker phase hs rfl
        cases phase with
        | failing exc again stage =>
            cases stage with
            | send =>
                cases again with
                | true => exact .inr (Nat.lt_of_lt_of_le htell (Nat.le_add_right _ _))
                | false =>
                    exact htell.imp (fun hzero => Nat.le_of_eq (congrArg (· + 1) hzero))
                      fun hpos => Nat.lt_of_lt_of_le hpos (Nat.le_add_right _ _)
            | _ => cases hsend
        | _ => cases hsend
  · intro hpos
    cases hin' : phase'.inFailure with
    | true =>
        exact .inl ⟨s, Slot.inPhase_iff.mpr ⟨m, worker, phase', slots_apply_some hn, rfl, hin'⟩⟩
    | false =>
        cases hin : phase.inFailure with
        | true =>
            refine .inr (World.status?_eq_some.mpr ⟨_, hr', ?_⟩)
            exact hp.buried hn hfits hin hin'
        | false =>
            have hzero := (Phase.tells_of_open hover hin).mp (h.delivered s m worker phase hs rfl)
            have hsend : phase.sends = false := by
              cases phase with
              | failing exc again stage => cases hin
              | _ => rfl
            rw [hcalls, hzero, hsend] at hpos
            exact absurd hpos (Nat.lt_irrefl 0)

/-- Nothing but the end of a delivery: what is counted for the job stays. -/
theorem Buried.aside (h : Buried j p w) (hslot : ∀ s, SlotAside w w' j s)
    (hfind : w'.db.find j = w.db.find j)
    (hpends : ∀ s i, e = .work s i → ¬ (w.slots s).pends j) : Buried j ((w, e) :: p) w' := by
  obtain ⟨hcalls, herrors⟩ := uncounted (p := p) hpends
  refine ⟨?_, ?_, ?_, ?_, ?_⟩ <;> rw [hcalls]
  · intro hnone
    exact h.unborn (hfind ▸ hnone)
  · intro s m hs hj
    cases hslot s with
    | same hsame => exact h.queued s m (hsame ▸ hs) hj
    | other hne _ => exact absurd hj (hne m (by rw [hs]; rfl))
    | ended _ hs' _ _ => rw [hs] at hs'; cases hs'
  · rw [herrors]
    intro s m worker phase hs hj
    cases hslot s with
    | same hsame => exact h.delivered s m worker phase (hsame ▸ hs) hj
    | other hne _ => exact absurd hj (hne m (by rw [hs]; rfl))
    | ended _ hs' _ ho =>
        rw [hs, Slot.delivered.injEq] at hs'
        rw [hs'.2.2]
        exact Phase.tells_of_over ho
  · rw [herrors]
    exact h.once
  · intro hpos
    rcases h.row hpos with ⟨s, hin⟩ | hst
    · obtain ⟨m, worker, phase, hs, hj, hphase⟩ := Slot.inPhase_iff.mp hin
      have hopen : phase.over = false := by
        cases phase with
        | failing exc again stage => rfl
        | _ => cases hphase
      cases hslot s with
      | same hsame => exact .inl ⟨s, hsame ▸ hin⟩
      | other _ hover => rw [hover m worker phase hs hj] at hopen; cases hopen
      | ended hs₀ _ ho _ =>
          rw [hs, Slot.delivered.injEq] at hs₀
          rw [← hs₀.2.2, hopen] at ho
          cases ho
    · refine .inr ?_
      rw [World.status?, hfind]
      exact hst

/-- Before its row, no call of `on_failure` is counted for the job. -/
theorem Buried.unfailed (h : Buried j p w) (hnone : w.db.find j = none)
    (hcalls : failures j ((w, e) :: p) = failures j p)
    (hdelivered : ∀ s m worker phase, w'.slots s = .delivered m worker phase → m.jobId = j →
      phase.Tells (failures j ((w, e) :: p)) (invalidated j ((w, e) :: p))) :
    Buried j ((w, e) :: p) w' := by
  have hzero : failures j ((w, e) :: p) = 0 := hcalls.trans (h.unborn hnone)
  refine ⟨fun _ => hzero, fun _ _ _ _ => hzero, hdelivered, ?_, ?_⟩
  · exact .inl (hzero ▸ Nat.zero_le 1)
  · intro hpos
    rw [hzero] at hpos
    exact absurd hpos (Nat.lt_irrefl 0)

/-- A worker takes the message of the job. -/
theorem Buried.taken {s : SlotId} {worker : Worker} {m : Message} (h : Buried m.jobId p w)
    (hqueued : w.slots s = .queued m) :
    Buried m.jobId ((w, .take s worker) :: p) (w.setSlot s (.delivered m worker .received)) := by
  have hquiet : ∀ s' i, Event.take s worker = .work s' i → ¬ (w.slots s').pends m.jobId := by
    intro s' i hev
    cases hev
  obtain ⟨hcalls, herrors⟩ := uncounted (p := p) hquiet
  have hslot := slot_of_set w s (.delivered m worker .received)
  refine ⟨?_, ?_, ?_, ?_, ?_⟩ <;> rw [hcalls]
  · exact h.unborn
  · intro s' m' hs' hj'
    rcases hslot s' with hsame | ⟨rfl, hnew⟩
    · exact h.queued s' m' (hsame ▸ hs') hj'
    · rw [hnew] at hs'
      cases hs'
  · rw [herrors]
    intro s' m' worker' phase' hs' hj'
    rcases hslot s' with hsame | ⟨rfl, hnew⟩
    · exact h.delivered s' m' worker' phase' (hsame ▸ hs') hj'
    · rw [hnew, Slot.delivered.injEq] at hs'
      rw [← hs'.2.2]
      exact h.queued s' m hqueued rfl
  · rw [herrors]
    exact h.once
  · intro hpos
    rcases h.row hpos with ⟨s', hin⟩ | hst
    · rcases hslot s' with hsame | ⟨rfl, -⟩
      · exact .inl ⟨s', hsame ▸ hin⟩
      · rw [hqueued] at hin
        cases hin
    · exact .inr hst

theorem Buried.step (h : Buried j p w) (hch : Chained j w) (hg : Ground w) (hen : Enqueued w)
    (hcp : Copies w) (hP : FaultFree w e) (he : SysStep J w e w') :
    Buried j ((w, e) :: p) w' := by
  have hquiet : (∀ s i, e ≠ .work s i) → failures j ((w, e) :: p) = failures j p ∧
      invalidated j ((w, e) :: p) = invalidated j p :=
    fun hne => uncounted fun s i hev => absurd hev (hne s i)
  cases chain_once (j := j) hg hen hcp hP.once he with
  | aside hslot hfind hpends => exact h.aside hslot hfind hpends
  | sent _ hnone _ hfirst hne =>
      refine h.unfailed hnone (hquiet hne).1 ?_
      intro s m worker phase hs hj
      have hnew := (hfirst s m (by rw [hs]; rfl) hj).2
      rw [hs] at hnew
      cases hnew
  | landed _ hslots hnone _ hne =>
      refine h.unfailed hnone (hquiet hne).1 ?_
      rw [(hquiet hne).1, (hquiet hne).2, hslots]
      exact h.delivered
  | @cancelled c began hx hslots hfind hne =>
      obtain ⟨hcalls, herrors⟩ := hquiet hne
      refine ⟨?_, ?_, ?_, ?_, ?_⟩ <;> rw [hcalls]
      · intro hnone
        rw [hfind] at hnone
        exact h.unborn (Option.map_eq_none_iff.mp hnone)
      · rw [hslots]
        exact h.queued
      · rw [herrors, hslots]
        exact h.delivered
      · rw [herrors]
        exact h.once
      · rw [hslots]
        intro hpos
        rcases h.row hpos with hin | hst
        · exact .inl hin
        · obtain ⟨r, hr, hdlq⟩ := World.status?_eq_some.mp hst
          have hpend := hch.cancelling c _ hx (by intro hcalled; cases hcalled) r hr
          cases hpend.symm.trans hdlq
  | taken hev hqueued hj _ hw =>
      subst hev hj hw
      exact h.taken hqueued
  | worked hev hslot hj hover hp hdb hw =>
      subst hev hj hw
      exact h.worked hch hslot hover hp hdb

end Buried

/-! ## Whole runs -/

section Run
variable {J : JsonCodec} {allowed : List String} {es : List Event} {w : World} {j : Uuid}

theorem run_failed {P : World → Event → Prop} (h : (system J).Run P (.init allowed) es w) :
    Failed j ((system J).past [] (.init allowed) es) w :=
  (h.invariant_past (I := fun p w => Ground w ∧ Failed j p w)
    (fun hi _ hs => ⟨hi.1.step (step_cases hs), hi.2.step hi.1 (step_cases hs)⟩)
    ⟨ground_init allowed, failed_init j allowed⟩).2

theorem run_buried (h : (system J).Run FaultFree (.init allowed) es w) :
    Buried j ((system J).past [] (.init allowed) es) w := by
  refine (h.invariant_past (I := fun p w => (Ground w ∧ Enqueued w ∧ Copies w ∧ Blanks w) ∧
    Chained j w ∧ Buried j p w) ?_ ⟨⟨ground_init allowed, enqueued_init allowed,
      copies_init allowed, blanks_init allowed⟩, chained_init j allowed,
      buried_init j allowed⟩).2.2
  rintro p w w' e ⟨⟨hg, hen, hcp, hbl⟩, hch, hb⟩ hP hs
  have he := step_cases hs
  exact ⟨⟨hg.step he, hen.step hg he, hcp.step hg.bounded he, hbl.step he⟩,
    hch.step hg hen hcp hbl hP hs, hb.step hch hg hen hcp hP he⟩

/-- The queue `dlq` holds, for each job, what `on_failure` has published and `dlq_receive` has
not taken, and a job in DLQ has been through `on_failure`.  In a fault-free run, outside
`on_failure`, every message of the queue names a job in DLQ, and a job that came to DLQ without
a ValidationError has one message there, unless its publish failed or `dlq_receive` took it. -/
theorem dead_letters (h : (system J).Run (fun _ _ => True) (.init allowed) es w) (j : Uuid) :
    w.deadLetters j + dlqReceived j ((system J).past [] (.init allowed) es) =
        dlqSent j ((system J).past [] (.init allowed) es) ∧
      (w.status? j = some .dlq →
        0 < w.deadLetters j + dlqReceived j ((system J).past [] (.init allowed) es) +
          dlqFailed j ((system J).past [] (.init allowed) es)) ∧
      ((system J).Along FaultFree (.init allowed) es →
        (∀ s, ¬ (w.slots s).inPhase Phase.inFailure Message.jobId j) →
        (0 < w.deadLetters j → w.status? j = some .dlq) ∧
        (w.status? j = some .dlq →
          invalidated j ((system J).past [] (.init allowed) es) = 0 →
          w.deadLetters j + dlqReceived j ((system J).past [] (.init allowed) es) +
            dlqFailed j ((system J).past [] (.init allowed) es) = 1)) := by
  have hqueue := run_deadLetters (j := j) h
  have hfailed : Failed j _ w := run_failed h
  have hcalls : ∀ p, failures j p = dlqSent j p + dlqFailed j p := fun _ => rfl
  refine ⟨hqueue, ?_, ?_⟩
  · intro hst
    have hpos := hfailed.row hst
    rw [hcalls] at hpos
    omega
  · intro halong hout
    have hrun : (system J).Run FaultFree (.init allowed) es w :=
      (Machine.run_and.mpr ⟨h, halong⟩).imp (I := fun _ => True) (fun _ _ _ => trivial)
        (fun _ hP => hP.2) trivial
    have hburied : Buried j _ w := run_buried hrun
    constructor
    · intro hpos
      refine (hburied.row ?_).resolve_left fun ⟨s, hs⟩ => hout s hs
      rw [hcalls]
      omega
    · intro hst hvalid
      have hpos := hfailed.row hst
      have hone := hburied.once.resolve_right fun herr => absurd hvalid (Nat.ne_of_gt herr)
      rw [hcalls] at hpos hone
      omega

end Run

/-! ## Concrete runs -/

/-- An attempt that raises, in slot `s`, and the countdown of its retry. -/
def attemptEvents (s : SlotId) : List Event :=
  startEvents s "v" ++ .work s (.ends (.exception ⟨"down", "Traceback"⟩)) ::
    List.replicate 3 (.work s .returns) ++ [.tick 160]

/-- Six attempts raise, and the job goes to DLQ. -/
def exhaustedEvents : List Event :=
  createEvents 0 "k" ++ (List.range 5).flatMap attemptEvents ++ startEvents 5 "v" ++
    .work 5 (.ends (.exception ⟨"down", "Traceback"⟩)) :: List.replicate 5 (.work 5 .returns)

theorem not_inFailure_of_done {w : World} {j : Uuid} (h : ¬ w.Outstanding j) (s : SlotId) :
    ¬ (w.slots s).inPhase Phase.inFailure Message.jobId j := by
  intro hin
  obtain ⟨m, worker, phase, hs, hj, -⟩ := Slot.inPhase_iff.mp hin
  exact h ⟨s, by rw [hs]; exact congrArg some hj⟩

set_option maxRecDepth 2000 in
theorem dead_letters_ping : ∃ w, (system nullCodec).exec pingWorld exhaustedEvents = some w ∧
    w.status? 0 = some .dlq ∧ w.deadLetters 0 = 1 := by
  obtain ⟨w, r, hw, hr, hdone⟩ := exists_done exhaustedEvents (by decide)
  have hobs : ((system nullCodec).exec pingWorld exhaustedEvents).map (fun w => w.status? 0) =
      some (some .dlq) := by decide
  rw [hw, Option.map_some, Option.some.injEq] at hobs
  have hfault : (system nullCodec).Run FaultFree pingWorld exhaustedEvents w :=
    run_faultFree (n := 1) (Machine.run_of_exec hw (by decide))
  obtain ⟨hrun, halong⟩ := Machine.run_and.mp (hfault.imp (I := fun _ => True)
    (Q := fun w e => True ∧ FaultFree w e) (fun _ _ _ => trivial) (fun _ hP => ⟨trivial, hP⟩)
    trivial)
  have hkept := (dead_letters hrun 0).2.2 halong (not_inFailure_of_done hdone)
  have hone := hkept.2 hobs (by decide)
  have hnone : dlqReceived 0 ((system nullCodec).past [] pingWorld exhaustedEvents) +
      dlqFailed 0 ((system nullCodec).past [] pingWorld exhaustedEvents) = 0 := by decide
  refine ⟨w, hw, hobs, ?_⟩
  change w.deadLetters 0 + dlqReceived 0 ((system nullCodec).past [] pingWorld exhaustedEvents) +
    dlqFailed 0 ((system nullCodec).past [] pingWorld exhaustedEvents) = 1 at hone
  omega

/-- The publishes of `on_failure` raise, and it goes on. -/
def lostEvents : List Event :=
  createEvents 0 "k" ++ startEvents 0 "v" ++
    [.work 0 (.ends (.validationError ⟨"invalid", "Traceback"⟩)),
      .work 0 (.raises ⟨"broker", "Traceback"⟩), .work 0 .returns, .work 0 .returns,
      .work 0 .returns, .work 0 (.raises ⟨"broker", "Traceback"⟩), .work 0 .returns,
      .work 0 .returns, .work 0 .returns, .work 0 .returns]

theorem dead_letters_lost : ∃ w, (system nullCodec).Run FaultFree pingWorld lostEvents w ∧
    w.status? 0 = some .dlq ∧ (∀ s, ¬ (w.slots s).inPhase Phase.inFailure Message.jobId 0) ∧
    (∀ r ∈ w.db.rows, r.parentJobId ≠ some 0) ∧ w.deadLetters 0 = 0 := by
  obtain ⟨w, r, hw, hr, hdone⟩ := exists_done lostEvents (by decide)
  have hobs : ((system nullCodec).exec pingWorld lostEvents).map (fun w =>
      (w.status? 0, w.db.rows.map Job.parentJobId, w.deadLetters 0)) =
        some (some .dlq, [none], 0) := by decide
  rw [hw, Option.map_some, Option.some.injEq] at hobs
  obtain ⟨hst, hrest⟩ := Prod.mk.inj hobs
  obtain ⟨hparents, hzero⟩ := Prod.mk.inj hrest
  refine ⟨w, run_faultFree (n := 1) (Machine.run_of_exec hw (by decide)), hst,
    not_inFailure_of_done hdone, ?_, hzero⟩
  intro r hr hpar
  have hmem : some 0 ∈ w.db.rows.map Job.parentJobId := hpar ▸ List.mem_map_of_mem hr
  rw [hparents] at hmem
  cases List.mem_singleton.mp hmem

end Aegis
