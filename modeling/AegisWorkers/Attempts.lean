/-
# `AegisWorkers.Attempts` — the attempts of one job

Two layers retry a task: `run` calls `retry()` on an exception of `execute()`, with a countdown,
and Celery's autoretry wrapper calls it on what leaves `run`.  Whatever `execute()` does the first
time, the second time, …, a job that is delivered once and not cancelled goes through one chain
of attempts, and both layers agree on where it ends (`retry_engine`).

    o i              how the call of `execute()` in attempt `i` ends
    retriesOf o      the retries that follow from it
    Attempting       attempt `m.retries` is queued or under way
    Concluded n      attempt `n` was the last, and its hooks have issued their updates

What a delivery does is `AegisWorkers.Steps`, that the deliveries of a job form a chain is
`AegisWorkers.Coherence`; here are the outcomes, the countdowns and the end.  A job that has a
message in the queue can be seen through to its end (`Engaged.progress`): every event of its
deliveries brings it nearer (`Slot.weight`).
-/
import AegisWorkers.Coherence
import AegisWorkers.Handling
import AegisWorkers.Replay

namespace Aegis

open BaseTask JobService ReadCommitted

/-! ## The specification -/

/-- An exception that is neither a ValidationError nor Celery's. -/
def BaseTask.Outcome.fails : Outcome → Bool
  | .exception _ => true
  | _ => false

/-- The first of the attempts below `maxRetries` that does not fail, or `maxRetries`. -/
def retriesOf (o : Nat → Outcome) : Nat :=
  (List.range maxRetries).findIdx fun i => !(o i).fails

/-- The countdowns of the first `n` retries. -/
def countdowns (n : Nat) : List Nat := (List.range n).map fun i => 10 * 2 ^ i

/-- What the row says of a last attempt that ended with `o`. -/
def Job.EndsWith (r : Job) : Outcome → Prop
  | .returns v => r.status = .completed ∧ r.result = v.column
  | _ => r.status = .dlq

/-! ## The setting -/

/-- No message is delivered a second time. -/
def unrepeated : Event → Bool
  | .crash _ => false
  | .redeliver _ => false
  | _ => true

/-- The calls of `execute()` for job `j` end with `o 0`, `o 1`, … in turn. -/
def follows (o : Nat → Outcome) (j : Uuid) (w : World) : Event → Prop
  | .work s (.ends x) => (w.slots s).jobId? = some j → x = o (w.executions j - 1)
  | _ => True

/-- The broker takes every retry message of job `j`. -/
def requeues (j : Uuid) (w : World) : Event → Bool
  | .work s (.raises _) =>
      match w.slots s with
      | .delivered m _ (.retrying _ _) => m.jobId ≠ j
      | _ => true
  | _ => true

/-- Database, cache and broker work (only the publish to `dlq` may fail), nothing is delivered
twice, nobody cancels the job, and its calls of `execute()` end as `o` says. -/
structure Governed (o : Nat → Outcome) (j : Uuid) (w : World) (e : Event) : Prop where
  stores : storesWork w e
  requeues : requeues j w e
  unrepeated : unrepeated e
  uncancelled : uncancelled j e
  follows : follows o j w e

/-- Job `r` is committed and its message is queued; nothing has been done about it, and no other
job has its idempotency key. -/
structure Fresh (r : Job) (w : World) : Prop where
  row : w.db.find r.id = some r
  blank : r.Blank
  queued : ∃ s m, w.slots s = .queued m ∧ m.jobId = r.id ∧ m.retries = 0
  sole : ∀ s s', (w.slots s).jobId? = some r.id → (w.slots s').jobId? = some r.id → s = s'
  unexecuted : w.executions r.id = 0
  uncached : w.cache (cacheKey r.idempotencyKey) = none
  keyed : ∀ m ∈ w.published, m.idempotencyKey = r.idempotencyKey → m.jobId = r.id

/-! ## What is observed -/

/-- How long after its publication the message is due that a piece of a delivery of job `j` has
added to the queue. -/
def retryDelay? (J : JsonCodec) (j : Uuid) (x : World × Event) : Option Nat :=
  match x.2 with
  | .work s _ =>
      if (x.1.slots s).jobId? = some j then
        ((system J).step x.1 x.2).bind fun w' =>
          (w'.slots x.1.nextSlot).message?.map fun m => m.eta - x.1.clock
      else none
  | _ => none

/-- The delays of the job's retries, the latest first. -/
def retryDelays (J : JsonCodec) (j : Uuid) (p : List (World × Event)) : List Nat :=
  p.filterMap (retryDelay? J j)

/-- What the event adds to `jobs_total{status=retry}` as a piece of a delivery of job `j`. -/
def retryGain (J : JsonCodec) (j : Uuid) (x : World × Event) : Nat :=
  match x.2 with
  | .work s _ => if (x.1.slots s).jobId? = some j then (World.gain J s x).retry else 0
  | _ => 0

/-- What the deliveries of the job have added to `jobs_total{status=retry}`. -/
def retryCount (J : JsonCodec) (j : Uuid) : List (World × Event) → Nat
  | [] => 0
  | x :: p => retryGain J j x + retryCount J j p

/-! ## The invariant -/

/-- The calls of `execute()` that a delivery has made. -/
def Phase.executed : Phase → Nat
  | .received => 0
  | .started => 0
  | .missed => 0
  | _ => 1

def Slot.executed : Slot → Nat
  | .delivered _ _ phase => phase.executed
  | _ => 0

/-- The delivery goes by how `execute()` has ended in it, attempt `n`. -/
def Phase.Follows (x : Outcome) (n : Nat) (r : Job) : Phase → Prop
  | .returned v => x = .returns v
  | .completed v => x = .returns v ∧ r.result = v.column
  | .counted v => x = .returns v ∧ r.result = v.column
  | .failing exc _ _ => x = .validationError exc ∨ x = .exception exc ∧ maxRetries ≤ n
  | .retrying delay _ => x.fails ∧ delay = 10 * 2 ^ n
  | _ => True

/-- The attempts before that of `m` have failed; its own is queued, or under way in slot `s`. -/
structure Attempting (J : JsonCodec) (o : Nat → Outcome) (r : Job) (p : List (World × Event))
    (w : World) (s : SlotId) (m : Message) : Prop where
  message : (w.slots s).message? = some m
  jobId : m.jobId = r.id
  pends : (w.slots s).pends r.id
  failed : ∀ i < m.retries, (o i).fails
  delays : retryDelays J r.id p = (countdowns m.retries).reverse
  executions : w.executions r.id = m.retries + (w.slots s).executed
  follows : ∀ worker phase, w.slots s = .delivered m worker phase →
    ∃ r', w.db.find r.id = some r' ∧ phase.Follows (o m.retries) m.retries r'
  uncached : w.cache (cacheKey r.idempotencyKey) = none

/-- Attempt `n` was the last. -/
structure Concluded (J : JsonCodec) (o : Nat → Outcome) (r : Job) (p : List (World × Event))
    (w : World) (n : Nat) : Prop where
  idle : ∀ s, ¬ (w.slots s).pends r.id
  failed : ∀ i < n, (o i).fails
  last : n < maxRetries ∧ ¬ (o n).fails ∨ n = maxRetries
  delays : retryDelays J r.id p = (countdowns n).reverse
  executions : w.executions r.id = n + 1
  row : ∃ r', w.db.find r.id = some r' ∧ r'.executionCount = n + 1 ∧ r'.EndsWith (o n)

/-- What holds of the job and of its key, whatever comes of it. -/
structure Setting (r : Job) (w : World) : Prop where
  held : Held r.id w
  blanks : Blanks w
  chained : Chained r.id w
  row : ∃ r', w.db.find r.id = some r' ∧ r'.idempotencyKey = r.idempotencyKey
  keyed : ∀ m ∈ w.published, m.idempotencyKey = r.idempotencyKey → m.jobId = r.id

/-! ## The retries -/

theorem retriesOf_eq {o : Nat → Outcome} {n : Nat} (hfailed : ∀ i < n, (o i).fails)
    (hlast : n < maxRetries ∧ ¬ (o n).fails ∨ n = maxRetries) : retriesOf o = n := by
  rcases hlast with ⟨hlt, hn⟩ | rfl
  · refine (List.findIdx_eq (by rw [List.length_range]; exact hlt)).mpr ⟨?_, ?_⟩
    · simpa using hn
    · intro i hi
      simpa using hfailed i hi
  · refine Eq.trans (List.findIdx_eq_length.mpr ?_) List.length_range
    intro i hi
    simpa using hfailed i (List.mem_range.mp hi)

theorem countdowns_succ (n : Nat) :
    (countdowns (n + 1)).reverse = 10 * 2 ^ n :: (countdowns n).reverse := by
  rw [countdowns, List.range_succ, List.map_append, List.reverse_append]
  rfl

/-! ## One piece of a delivery -/

section Piece
variable {J : JsonCodec} {m : Message} {worker : Worker} {now : Time} {phase : Phase} {i : Input}
  {eff : Effects} {r : Job} {x : Outcome}

theorem Piece.ends_executing {cached : Option String} {y : Outcome}
    (h : Piece J m worker cached now phase (.ends y) eff) : phase = .executing := by
  cases h <;> rfl

/-- A piece of an outstanding delivery brings it further, or publishes the retry of a failed
attempt, or ends the last one. -/
inductive PieceOf (m : Message) (now : Time) (x : Outcome) (r : Job) (phase : Phase)
    (eff : Effects) : Prop
  | goesOn (phase' : Phase) : eff.next = some phase' → phase'.over = false → eff.queue = none →
      phase'.Follows x m.retries (eff.patched now r) →
      phase'.executed = phase.executes + phase.executed → PieceOf m now x r phase eff
  | retries : eff.next = some .retried → x.fails →
      eff.queue = some (retryMessage m (10 * 2 ^ m.retries) now) → m.retries < maxRetries →
      phase.executes + phase.executed = 1 → PieceOf m now x r phase eff
  | ends : eff.next = some .handled → eff.queue = none →
      (¬ x.fails ∨ maxRetries ≤ m.retries) → (eff.patched now r).EndsWith x →
      (eff.patched now r).executionCount = m.retries + 1 →
      phase.executes + phase.executed = 1 → PieceOf m now x r phase eff

theorem Piece.attempts (h : Piece J m worker none now phase i eff) (hover : phase.over = false)
    (hfits : phase.Fits m r) (hc : r.Coherent) (hf : phase.Follows x m.retries r)
    (hends : ∀ y, i = .ends y → y = x) (hown : ∀ delay, x ≠ .retry delay)
    (hok : (∀ exc again, phase ≠ .failing exc again .send) → i.ok) :
    PieceOf m now x r phase eff := by
  cases h with
  | start => exact .goesOn _ rfl rfl rfl trivial rfl
  | miss _ => exact .goesOn _ rfl rfl rfl trivial rfl
  | execute => exact .goesOn _ rfl rfl rfl trivial rfl
  | hit v hsome => exact absurd rfl hsome
  | undecodable hsome => cases hsome
  | returns v => exact .goesOn _ rfl rfl rfl (hends _ rfl).symm rfl
  | invalid exc => exact .goesOn _ rfl rfl rfl (.inl (hends _ rfl).symm) rfl
  | exhausted exc hle => exact .goesOn _ rfl rfl rfl (.inr ⟨(hends _ rfl).symm, hle⟩) rfl
  | again exc hlt =>
      refine .goesOn _ rfl rfl rfl ⟨?_, Nat.mul_comm ..⟩ rfl
      rw [← hends _ rfl]
      rfl
  | ownRetry delay _ => exact absurd (hends _ rfl).symm (hown delay)
  | success v =>
      have hnone : r.result = none := (hc.underway hfits.1).result
      refine .goesOn _ rfl rfl rfl ⟨hf, ?_⟩ rfl
      simp only [Effects.patched, onSuccess, if_true, values_result, hnone, Option.or_none]
  | count v => exact .goesOn _ rfl rfl rfl hf rfl
  | store v =>
      obtain ⟨rfl, hresult⟩ := hf
      exact .ends rfl rfl (.inl Bool.false_ne_true) ⟨hfits.1, hresult⟩ hfits.2 rfl
  | failure exc again stage =>
      cases stage with
      | send => exact .goesOn _ rfl rfl rfl hf rfl
      | failed => exact .goesOn _ rfl rfl rfl hf rfl
      | dlq => exact .goesOn _ rfl rfl rfl hf rfl
      | count =>
          cases again with
          | true => exact .goesOn _ rfl rfl rfl hf rfl
          | false =>
              have hr := Phase.fits_count.mp hfits
              refine .ends rfl rfl ?_ ?_ hr.2 rfl
              · rcases hf with rfl | ⟨-, hle⟩
                · exact .inl Bool.false_ne_true
                · exact .inr hle
              · rcases hf with rfl | ⟨rfl, -⟩ <;> exact hr.1
  | failureFails exc exc' again stage hne =>
      cases stage with
      | count => exact absurd rfl hne
      | send => exact .goesOn _ rfl rfl rfl hf rfl
      | failed => exact absurd (hok (by simp)) Bool.false_ne_true
      | dlq => exact absurd (hok (by simp)) Bool.false_ne_true
  | retry delay again =>
      obtain ⟨hfails, rfl⟩ := hf
      exact .retries rfl hfails rfl hfits.2 rfl
  | startFails exc => exact absurd (hok (by simp)) Bool.false_ne_true
  | lookupFails exc => exact absurd (hok (by simp)) Bool.false_ne_true
  | successFails v exc => exact absurd (hok (by simp)) Bool.false_ne_true
  | storeFails v exc => exact absurd (hok (by simp)) Bool.false_ne_true
  | retryFails delay exc => exact absurd (hok (by simp)) Bool.false_ne_true
  | rejected delay exc => exact absurd (hok (by simp)) Bool.false_ne_true
  | onRetry => cases hover
  | ack => cases hover

end Piece

/-! ## The setting, step by step -/

section Step
variable {J : JsonCodec} {o : Nat → Outcome} {r : Job} {p : List (World × Event)} {w w' : World}
  {e : Event}

theorem Phase.not_publishes_of_persists {phase : Phase} (h : phase.persists) :
    phase.publishes = false := by
  cases phase with
  | failing exc again stage => cases stage <;> first | rfl | cases h
  | retrying delay again => cases h
  | _ => rfl

/-- In a governed run only the publish to `dlq` may fail in a delivery of the job. -/
theorem Governed.ok {s : SlotId} {i : Input} {m : Message} {worker : Worker} {phase : Phase}
    (h : Governed o r.id w (.work s i)) (hs : w.slots s = .delivered m worker phase)
    (hj : m.jobId = r.id) (hsend : ∀ exc again, phase ≠ .failing exc again .send) : i.ok := by
  have hre := h.requeues
  cases hphase : phase with
  | retrying delay again =>
      cases i with
      | raises exc =>
          subst hphase
          simp [Aegis.requeues, hs, hj] at hre
      | _ => rfl
  | failing exc again stage =>
      refine storesWork_ok h.stores hs ?_
      cases stage with
      | send => exact absurd hphase (hsend exc again)
      | _ => rw [hphase]; rfl
  | _ => exact storesWork_ok h.stores hs (by rw [hphase]; rfl)

theorem follows_ends {s : SlotId} {y : Outcome} {m : Message} {worker : Worker} {phase : Phase}
    (h : follows o r.id w (.work s (.ends y))) (hs : w.slots s = .delivered m worker phase)
    (hj : m.jobId = r.id) : y = o (w.executions r.id - 1) := by
  refine h ?_
  rw [hs]
  exact congrArg some hj

/-- No message with the key of a committed row is published for another job. -/
theorem keyed_step (hg : Ground w) (he : SysStep J w e w') {r' : Job}
    (hr : r' ∈ w.db.rows)
    (hkeyed : ∀ m ∈ w.published, m.idempotencyKey = r'.idempotencyKey → m.jobId = r'.id) :
    ∀ m ∈ w'.published, m.idempotencyKey = r'.idempotencyKey → m.jobId = r'.id := by
  intro m hm hk
  rcases he.api_or_offstage with ⟨c, -, ha⟩ | ⟨-, ho⟩
  · cases ha.published with
    | same hp _ => exact hkeyed m (hp ▸ hm) hk
    | sent sub hx _ hp _ _ =>
        rw [hp, List.mem_cons] at hm
        rcases hm with rfl | hm
        · have hins : sub.job ∈ w.db.inserts c := by
            have hs := hg.sessions c
            rw [hx] at hs
            exact hs.1 ▸ List.mem_singleton_self _
          exact absurd (hk.symm.trans (hg.submissions.coherent c sub _ hx).idempotencyKey.symm)
            (Store.pending_fresh hins hr).2
        · exact hkeyed m hm hk
  · exact hkeyed m (ho.published ▸ hm) hk

theorem Setting.moves (h : Setting r w) (hg : Ground w) (hP : Governed o r.id w e)
    (hs : (system J).step w e = some w') : ChainMove J w e w' r.id := by
  refine chain_cases hg h.held.enqueued h.held.copies ?_ ?_ ?_ (step_cases hs)
  · rintro s rfl
    exact absurd hP.unrepeated Bool.false_ne_true
  · rintro s rfl
    exact absurd hP.unrepeated Bool.false_ne_true
  · intro s worker m _ _ _
    obtain ⟨r', hr', -⟩ := h.row
    rw [hr']
    rfl

theorem Setting.step (h : Setting r w) (hg : Ground w) (hP : Governed o r.id w e)
    (hown : ∀ i delay, o i ≠ .retry delay) (hs : (system J).step w e = some w') :
    Setting r w' := by
  have he := step_cases hs
  have hheld := h.held.step hg hP.uncancelled hs
  obtain ⟨r', hr', hkey⟩ := h.row
  obtain ⟨hmem, hid⟩ := Store.find_eq_some.mp hr'
  obtain ⟨r'', hr'', horigin⟩ := he.origin hg.sessions hmem
  refine ⟨hheld, h.blanks.step he, ?_, ?_, ?_⟩
  · refine h.chained.move h.blanks (step_clock hs) ?_ ?_ (h.moves hg hP hs)
    · intro c pc hc
      exact absurd hc (hheld.spared.uncalled c pc)
    · rintro s i m worker phase rfl hslot hj
      refine ⟨fun hu => storesWork_ok hP.stores hslot (Phase.not_publishes_of_persists hu), ?_,
        h.held.spared.uncalled⟩
      rintro delay rfl
      exact hown _ delay (follows_ends hP.follows hslot hj).symm
  · exact ⟨r'', Store.find_eq_some.mpr ⟨hr'', horigin.id.trans hid⟩,
      horigin.idempotencyKey.trans hkey⟩
  · have hkeyed := h.keyed
    rw [← hkey, ← hid] at hkeyed
    have hkeyed' := keyed_step hg he hmem hkeyed
    rwa [hkey, hid] at hkeyed'

/-! ## What a step shows of the job -/

/-- What a piece of a delivery shows of the retries of its job. -/
theorem retry_work {s : SlotId} {i : Input} {m : Message} {worker : Worker} {phase : Phase}
    {eff : Effects} {db : Db} (hb : Bounded w) (hs : w.slots s = .delivered m worker phase)
    (hstep : (system J).step w (.work s i) = some (w.apply J s m worker eff db))
    (hgain : World.gain J s (w, .work s i) = eff.tally) :
    retryDelay? J m.jobId (w, .work s i) = eff.queue.map (fun m => m.eta - w.clock) ∧
      retryGain J m.jobId (w, .work s i) = if eff.counts = some .retry then 1 else 0 := by
  have hid : (w.slots s).jobId? = some m.jobId := by
    rw [hs]
    rfl
  constructor
  · simp only [retryDelay?, hid, if_true, hstep, Option.bind_some]
    cases hq : eff.queue with
    | none =>
        have hne : w.nextSlot ≠ s := Nat.ne_of_gt (hb.lt (by rw [hs]; exact nofun))
        rw [slots_apply_ne hne hq, hb _ (Nat.le_refl _)]
        rfl
    | some m' =>
        rw [slot_of_queue hb hs hq]
        rfl
  · simp only [retryGain, hid, if_true, hgain]
    rfl

/-- No other event shows any. -/
theorem retry_none {j : Uuid} (h : ∀ s i, e = .work s i → (w.slots s).jobId? ≠ some j) :
    retryDelay? J j (w, e) = none ∧ retryGain J j (w, e) = 0 := by
  cases e with
  | work s i => exact ⟨if_neg (h s i rfl), if_neg (h s i rfl)⟩
  | _ => exact ⟨rfl, rfl⟩

theorem retryDelays_cons (x : World × Event) (j : Uuid) :
    retryDelays J j (x :: p) = (retryDelay? J j x).toList ++ retryDelays J j p := by
  cases hx : retryDelay? J j x <;> simp [retryDelays, hx]

/-- A delivery that is not outstanding, or of another job, publishes nothing for the job. -/
theorem retryDelay?_quiet {j : Uuid} (hb : Bounded w) (hs : (system J).step w e = some w')
    (hquiet : ∀ s i, e = .work s i → ¬ (w.slots s).pends j) : retryDelay? J j (w, e) = none := by
  by_cases hown : ∃ s i, e = .work s i ∧ (w.slots s).jobId? = some j
  · obtain ⟨s, i, rfl, hj⟩ := hown
    obtain ⟨m, worker, phase, eff, db, hslot, hgain, hp, -, rfl⟩ := work_piece hb hs
    rw [hslot, Slot.jobId?, Slot.message?, Option.map_some, Option.some.injEq] at hj
    subst hj
    have hover : phase.over := by
      by_contra hover
      exact hquiet s i rfl (pends_of_delivered hslot (Bool.eq_false_iff.mpr hover))
    rw [(retry_work hb hslot hs hgain).1, (hp.over hover).2.1]
    rfl
  · exact (retry_none fun s i he hj => hown ⟨s, i, he, hj⟩).1

theorem executions_quiet {j : Uuid} (he : SysStep J w e w')
    (hquiet : ∀ s i, e = .work s i → ¬ (w.slots s).pends j) :
    w'.executions j = w.executions j := by
  rcases he.worked with @⟨s, i, m, worker, phase, eff, db, rfl, hslot, hp, -, rfl⟩ | hne
  · rw [executions_apply hp]
    by_cases hj : m.jobId = j
    · have hzero : phase.executes = 0 := by
        cases phase with
        | missed => exact absurd (hj ▸ pends_of_delivered hslot rfl) (hquiet s i rfl)
        | _ => rfl
      rw [if_pos hj, hzero, Nat.zero_add]
    · rw [if_neg hj, Nat.zero_add]
  · exact he.executions hne

theorem over_of_unstored {phase : Phase} (h : phase.unstored) : phase.over = false := by
  cases phase <;> first | rfl | cases h

/-- Nothing is cached for the key but by an outstanding delivery of the job. -/
theorem uncached_quiet (h : Setting r w) (hs : (system J).step w e = some w')
    (hquiet : ∀ s i, e = .work s i → ¬ (w.slots s).pends r.id)
    (hnone : w.cache (cacheKey r.idempotencyKey) = none) :
    w'.cache (cacheKey r.idempotencyKey) = none := by
  cases (step_cases hs).cache r.idempotencyKey with
  | stays hc => rw [hc, hnone]
  | @stored s i _ _ _ hev hin _ _ =>
      obtain ⟨m, worker, phase, hslot, hk, hphase⟩ := Slot.inPhase_iff.mp hin
      obtain ⟨m₀, hm₀, hcopy⟩ := h.held.copies s m (by rw [hslot]; rfl)
      have hj : m.jobId = r.id :=
        hcopy.jobId.trans (h.keyed m₀ hm₀ (hcopy.idempotencyKey.symm.trans hk))
      exact absurd (hj ▸ pends_of_delivered hslot (over_of_unstored hphase)) (hquiet s i hev)
  | expired hev =>
      subst hev
      obtain rfl := Option.some.inj hs
      exact Function.update_self ..

/-- An outstanding message stays where it is, as long as the step is another's. -/
theorem pends_kept {s : SlotId} {j : Uuid} (hb : Bounded w) (he : SysStep J w e w')
    (hheard : ∀ worker m, w.slots s = .queued m → m.jobId = j → m.id ∉ w.heard worker)
    (haside : SlotAside w w' j s) (hp : (w.slots s).pends j) : w'.slots s = w.slots s := by
  cases haside with
  | same hsame => exact hsame
  | ended hs _ ho _ =>
      rw [hs, Slot.pends, ho] at hp
      simp at hp
  | other hnone hover =>
      obtain ⟨m, hm, hj, hout⟩ := Slot.pends_iff.mp hp
      exfalso
      cases hs : w.slots s with
      | empty => rw [hs] at hm; cases hm
      | delivered m₀ worker phase =>
          rw [hs] at hm
          obtain rfl := Option.some.inj hm
          have ho := hover m₀ worker phase hs hj
          rw [hout worker phase hs] at ho
          cases ho
      | queued m₀ =>
          rw [hs] at hm
          obtain rfl := Option.some.inj hm
          cases he.slot hb s with
          | stays hsame => exact hnone m₀ (by rw [hsame, hs]; rfl) hj
          | taken _ hs₀ _ hs' =>
              rw [hs, Slot.queued.injEq] at hs₀
              exact hnone m₀ (by rw [hs', hs₀]; rfl) hj
          | dropped _ hs₀ hin _ =>
              rw [hs, Slot.queued.injEq] at hs₀
              exact hheard _ _ hs hj (hs₀ ▸ hin)
          | published h₀ _ _ _ _ => rw [hs] at h₀; cases h₀
          | retried h₀ _ _ _ _ _ => rw [hs] at h₀; cases h₀
          | redelivered h₀ _ _ _ => rw [hs] at h₀; cases h₀
          | advanced _ hs₀ _ _ _ => rw [hs] at hs₀; cases hs₀
          | acknowledged _ hs₀ _ _ _ => rw [hs] at hs₀; cases hs₀
          | crashed _ hs₀ _ => rw [hs] at hs₀; cases hs₀

/-! ## The invariant, step by step -/

theorem Attempting.aside {s : SlotId} {m : Message} (h : Attempting J o r p w s m)
    (hset : Setting r w) (hg : Ground w) (hs : (system J).step w e = some w')
    (haside : ∀ s, SlotAside w w' r.id s) (hfind : w'.db.find r.id = w.db.find r.id)
    (hquiet : ∀ s i, e = .work s i → ¬ (w.slots s).pends r.id) :
    Attempting J o r ((w, e) :: p) w' s m := by
  have hkept : w'.slots s = w.slots s := by
    refine pends_kept hg.bounded (step_cases hs) ?_ (haside s) h.pends
    intro worker m' hs' hj
    exact hset.held.spared.not_revoked hset.held.enqueued hset.held.copies hs' hj worker
  refine ⟨hkept ▸ h.message, h.jobId, hkept ▸ h.pends, h.failed, ?_, ?_, ?_, ?_⟩
  · rw [retryDelays_cons, retryDelay?_quiet hg.bounded hs hquiet]
    exact h.delays
  · rw [executions_quiet (step_cases hs) hquiet, hkept]
    exact h.executions
  · rw [hkept, hfind]
    exact h.follows
  · exact uncached_quiet hset hs hquiet h.uncached

theorem Concluded.aside {n : Nat} (h : Concluded J o r p w n) (hb : Bounded w)
    (hs : (system J).step w e = some w') (haside : ∀ s, SlotAside w w' r.id s)
    (hfind : w'.db.find r.id = w.db.find r.id)
    (hquiet : ∀ s i, e = .work s i → ¬ (w.slots s).pends r.id) :
    Concluded J o r ((w, e) :: p) w' n := by
  refine ⟨?_, h.failed, h.last, ?_, ?_, ?_⟩
  · intro s hp
    exact h.idle s ((haside s).pends hp)
  · rw [retryDelays_cons, retryDelay?_quiet hb hs hquiet]
    exact h.delays
  · rw [executions_quiet (step_cases hs) hquiet]
    exact h.executions
  · rw [hfind]
    exact h.row

/-- A worker takes the message. -/
theorem Attempting.taken {s : SlotId} {m : Message} {worker : Worker}
    (h : Attempting J o r p w s m) (hset : Setting r w) (hs : w.slots s = .queued m) :
    Attempting J o r ((w, .take s worker) :: p) (w.setSlot s (.delivered m worker .received)) s
      m := by
  have hslot : (w.setSlot s (.delivered m worker .received)).slots s =
      .delivered m worker .received := Function.update_self ..
  have hexec := h.executions
  rw [hs] at hexec
  refine ⟨?_, h.jobId, ?_, h.failed, ?_, ?_, ?_, h.uncached⟩
  · rw [hslot]
    rfl
  · exact h.jobId ▸ pends_of_delivered hslot rfl
  · rw [retryDelays_cons]
    exact h.delays
  · rw [hslot]
    exact hexec
  · obtain ⟨r', hr', -⟩ := hset.row
    intro worker' phase' hs'
    rw [hslot, Slot.delivered.injEq] at hs'
    obtain ⟨-, -, rfl⟩ := hs'
    exact ⟨r', hr', trivial⟩

/-- The messages of the job carry its key. -/
theorem Setting.key (h : Setting r w) {s : SlotId} {m : Message}
    (hm : (w.slots s).message? = some m) (hj : m.jobId = r.id) :
    m.idempotencyKey = r.idempotencyKey := by
  obtain ⟨r', hr', hkey⟩ := h.row
  obtain ⟨hmem, hid⟩ := Store.find_eq_some.mp hr'
  obtain ⟨m₀, hm₀, hcopy⟩ := h.held.copies s m hm
  exact (h.held.enqueued.enqueuedAs hmem hm₀ hcopy (hj.trans hid.symm)).idempotencyKey.trans hkey

/-- What slot `s` holds after a piece of the outstanding delivery in it, and what no slot does. -/
theorem Chained.idle_after {s : SlotId} {m : Message} {worker : Worker} {phase phase' : Phase}
    {eff : Effects} {db : Db} (h : Chained m.jobId w)
    (hs : w.slots s = .delivered m worker phase) (hover : phase.over = false)
    (hn : eff.next = some phase') (ho : phase'.over) (hq : eff.queue = none) (s' : SlotId) :
    ¬ ((w.apply J s m worker eff db).slots s').pends m.jobId := by
  intro hp
  obtain ⟨m₁, hm₁, hj₁, hout⟩ := Slot.pends_iff.mp hp
  cases @Chained.holds_after J w s m worker phase phase' eff db h hs hover hn s' m₁ hm₁ hj₁ with
  | self _ _ _ hslot =>
      rw [hout _ _ hslot] at ho
      cases ho
  | retry _ hqueue _ => rw [hq] at hqueue; cases hqueue
  | past _ _ _ hslot ho₁ =>
      rw [hout _ _ hslot] at ho₁
      cases ho₁

/-- What a piece of the outstanding delivery of the job leaves behind, of the row `r'`. -/
structure Performed (J : JsonCodec) (r r' : Job) (p : List (World × Event)) (w : World) (s : SlotId)
    (m : Message) (phase : Phase) (i : Input) (eff : Effects) (w' : World) : Prop where
  delays : retryDelays J r.id ((w, .work s i) :: p) =
    (eff.queue.map fun m => m.eta - w.clock).toList ++ retryDelays J r.id p
  executions : w'.executions r.id = phase.executes + (m.retries + phase.executed)
  row : w'.db.find r.id = some (eff.patched w.clock r')
  uncached : eff.next ≠ some .handled → w'.cache (cacheKey r.idempotencyKey) = none

section Performed
variable {r' : Job} {s : SlotId} {m : Message} {worker : Worker} {phase phase' : Phase} {i : Input}
  {eff : Effects} {db : Db}

theorem Attempting.performed (h : Attempting J o r p w s m) (hb : Bounded w)
    (hs : w.slots s = .delivered m worker phase)
    (hstep : (system J).step w (.work s i) = some (w.apply J s m worker eff db))
    (hp : Piece J m worker (w.cache (cacheKey m.idempotencyKey)) w.clock phase i eff)
    (hgain : World.gain J s (w, .work s i) = eff.tally)
    (hdb : w.write m.jobId eff.write = some db) (hr' : w.db.find r.id = some r') :
    Performed J r r' p w s m phase i eff (w.apply J s m worker eff db) := by
  have hj := h.jobId
  refine ⟨?_, ?_, find_patched (hj ▸ hdb) hr', ?_⟩
  · rw [retryDelays_cons, ← hj, (retry_work hb hs hstep hgain).1]
  · have hexec := h.executions
    rw [hs] at hexec
    rw [executions_apply hp, if_pos hj, hexec]
    rfl
  · intro hne
    cases hv : eff.store with
    | none =>
        rw [cache_apply_none hv]
        exact h.uncached
    | some v => exact absurd (hp.stores hv).2 hne

/-- The delivery goes on. -/
theorem Attempting.goes_on (h : Attempting J o r p w s m)
    (hw : Performed J r r' p w s m phase i eff w') (hn : eff.next = some phase')
    (hslot : w'.slots s = .delivered m worker phase') (hover : phase'.over = false)
    (hq : eff.queue = none)
    (hf : phase'.Follows (o m.retries) m.retries (eff.patched w.clock r'))
    (hcount : phase'.executed = phase.executes + phase.executed) :
    Attempting J o r ((w, .work s i) :: p) w' s m := by
  refine ⟨?_, h.jobId, ?_, h.failed, ?_, ?_, ?_, ?_⟩
  · rw [hslot]
    rfl
  · exact h.jobId ▸ pends_of_delivered hslot hover
  · rw [hw.delays, hq]
    exact h.delays
  · rw [hw.executions, hslot]
    show _ = m.retries + phase'.executed
    omega
  · intro worker' phase₁ hs'
    rw [hslot, Slot.delivered.injEq] at hs'
    obtain ⟨-, -, rfl⟩ := hs'
    exact ⟨_, hw.row, hf⟩
  · refine hw.uncached ?_
    rw [hn]
    rintro ⟨⟩
    cases hover

/-- The retry message of the next attempt is published. -/
theorem Attempting.retries (h : Attempting J o r p w s m)
    (hw : Performed J r r' p w s m phase i eff w') (hn : eff.next = some .retried)
    (hfails : (o m.retries).fails)
    (hq : eff.queue = some (retryMessage m (10 * 2 ^ m.retries) w.clock)) {s' : SlotId}
    (hslot : w'.slots s' = .queued (retryMessage m (10 * 2 ^ m.retries) w.clock))
    (hcount : phase.executes + phase.executed = 1) :
    Attempting J o r ((w, .work s i) :: p) w' s'
      (retryMessage m (10 * 2 ^ m.retries) w.clock) := by
  refine ⟨?_, h.jobId, ?_, ?_, ?_, ?_, ?_, ?_⟩
  · rw [hslot]
    rfl
  · rw [hslot]
    exact decide_eq_true h.jobId
  · intro k hk
    rcases Nat.lt_succ_iff_lt_or_eq.mp hk with hlt | rfl
    · exact h.failed k hlt
    · exact hfails
  · rw [hw.delays, hq, h.delays]
    refine Eq.trans ?_ (countdowns_succ m.retries).symm
    simp only [Option.map_some, Option.toList_some, List.singleton_append, retryMessage,
      Nat.add_sub_cancel_left]
  · rw [hw.executions, hslot]
    show _ = m.retries + 1 + 0
    omega
  · intro worker' phase₁ hs'
    rw [hslot] at hs'
    cases hs'
  · refine hw.uncached ?_
    rw [hn]
    exact nofun

/-- The hooks have issued their updates, and the attempt was the last. -/
theorem Attempting.ends (h : Attempting J o r p w s m)
    (hw : Performed J r r' p w s m phase i eff w') (hidle : ∀ s', ¬ (w'.slots s').pends r.id)
    (hle : m.retries ≤ maxRetries) (hlast : ¬ (o m.retries).fails ∨ maxRetries ≤ m.retries)
    (hq : eff.queue = none) (hends : (eff.patched w.clock r').EndsWith (o m.retries))
    (hcount : (eff.patched w.clock r').executionCount = m.retries + 1)
    (hone : phase.executes + phase.executed = 1) :
    Concluded J o r ((w, .work s i) :: p) w' m.retries := by
  refine ⟨hidle, h.failed, ?_, ?_, ?_, _, hw.row, hcount, hends⟩
  · rcases Nat.lt_or_eq_of_le hle with hlt | heq
    · refine .inl ⟨hlt, ?_⟩
      rcases hlast with hfails | hge
      · exact hfails
      · omega
    · exact .inr heq
  · rw [hw.delays, hq]
    exact h.delays
  · rw [hw.executions]
    omega

/-- A piece of the outstanding delivery. -/
theorem Attempting.worked (h : Attempting J o r p w s m) (hset : Setting r w) (hg : Ground w)
    (hP : Governed o r.id w (.work s i)) (hown : ∀ i delay, o i ≠ .retry delay)
    (hs : w.slots s = .delivered m worker phase)
    (hstep : (system J).step w (.work s i) = some w') :
    (∃ s' m', Attempting J o r ((w, .work s i) :: p) w' s' m') ∨
      Concluded J o r ((w, .work s i) :: p) w' m.retries := by
  obtain ⟨m₁, worker₁, phase₁, eff, db, hslot, hgain, hp, hdb, rfl⟩ := work_piece hg.bounded hstep
  rw [hs, Slot.delivered.injEq] at hslot
  obtain ⟨rfl, rfl, rfl⟩ := hslot
  have hj := h.jobId
  have hover : phase.over = false := by
    have hpends := h.pends
    rw [hs, Slot.pends, Bool.and_eq_true, Bool.not_eq_true'] at hpends
    exact hpends.2
  obtain ⟨r', hr', hfits⟩ := hset.chained.delivered s m worker phase hs hj
  obtain ⟨r'', hr'', hf⟩ := h.follows worker phase hs
  obtain rfl := Option.some.inj (hr'.symm.trans hr'')
  have hw := h.performed hg.bounded hs hstep hp hgain hdb hr'
  have hends : ∀ y, i = .ends y → y = o m.retries := by
    rintro y rfl
    rw [follows_ends hP.follows hs hj, h.executions, hs, hp.ends_executing]
    rfl
  have hp₀ := hp
  rw [hset.key h.message hj, h.uncached] at hp₀
  cases hp₀.attempts hover hfits (hset.chained.row r' hr').1 hf hends (hown _)
    (hP.ok hs hj) with
  | goesOn phase' hn hover' hq hf' hcount =>
      exact .inl ⟨s, m, h.goes_on hw hn (slots_apply_some hn) hover' hq hf' hcount⟩
  | retries hn hfails hq hlt hcount =>
      exact .inl ⟨w.nextSlot, _, h.retries hw hn hfails hq (slot_of_queue hg.bounded hs hq) hcount⟩
  | ends hn hq hlast hends hcount hone =>
      refine .inr (h.ends hw ?_ (hset.chained.retries s m h.message hj) hlast hq hends hcount hone)
      intro s' hp'
      have hch : Chained m.jobId w := hj ▸ hset.chained
      exact hch.idle_after hs hover hn rfl hq s' (hj ▸ hp')

end Performed

/-- The job's attempts are going on, or are over. -/
def Engine (J : JsonCodec) (o : Nat → Outcome) (r : Job) (p : List (World × Event))
    (w : World) : Prop :=
  (∃ s m, Attempting J o r p w s m) ∨ ∃ n, Concluded J o r p w n

theorem Engine.step (h : Engine J o r p w) (hset : Setting r w) (hg : Ground w)
    (hP : Governed o r.id w e) (hown : ∀ i delay, o i ≠ .retry delay)
    (hs : (system J).step w e = some w') : Engine J o r ((w, e) :: p) w' := by
  obtain ⟨r', hr', -⟩ := hset.row
  cases hset.moves hg hP hs with
  | aside haside hfind hquiet =>
      rcases h with ⟨s, m, ha⟩ | ⟨n, hc⟩
      · exact .inl ⟨s, m, ha.aside hset hg hs haside hfind hquiet⟩
      · exact .inr ⟨n, hc.aside hg.bounded hs haside hfind hquiet⟩
  | sent _ hnone _ _ _ => rw [hr'] at hnone; cases hnone
  | landed _ _ hnone _ _ => rw [hr'] at hnone; cases hnone
  | cancelled hc _ _ _ => exact absurd hc (hset.held.spared.uncalled _ _)
  | @taken s worker m hev hslot hj _ hw =>
      subst hev hw
      have hpends : (w.slots s).pends r.id := by
        rw [hslot]
        exact decide_eq_true hj
      rcases h with ⟨s', m', ha⟩ | ⟨n, hc⟩
      · obtain rfl := hset.chained.sole s s' hpends ha.pends
        have hm := ha.message
        rw [hslot] at hm
        obtain rfl := Option.some.inj hm
        exact .inl ⟨s, m, ha.taken hset hslot⟩
      · exact absurd hpends (hc.idle s)
  | @worked s i m worker phase eff db hev hslot hj hover hp hdb hw =>
      subst hev
      have hpends : (w.slots s).pends r.id := hj ▸ pends_of_delivered hslot hover
      rcases h with ⟨s', m', ha⟩ | ⟨n, hc⟩
      · obtain rfl := hset.chained.sole s s' hpends ha.pends
        have hm := ha.message
        rw [hslot] at hm
        obtain rfl := Option.some.inj hm
        exact (ha.worked hset hg hP hown hslot hs).imp_right fun hc => ⟨_, hc⟩
      · exact absurd hpends (hc.idle s)

/-! ## The metric -/

/-- `on_retry` is to come. -/
def Phase.reports : Phase → Bool
  | .retried => true
  | _ => false

/-- Each retry message is counted by `on_retry` once it is published. -/
theorem Piece.reports {m : Message} {worker : Worker} {cached : Option String} {now : Time}
    {phase : Phase} {i : Input} {eff : Effects} (h : Piece J m worker cached now phase i eff)
    (hi : ∀ delay, i ≠ .ends (.retry delay)) :
    (if eff.counts = some .retry then 1 else 0) + (eff.next.any Phase.reports).toNat =
      eff.queue.isSome.toNat + phase.reports.toNat := by
  have hautoretry : ∀ exc : Exc, (if (autoretry m exc).counts = some .retry then 1 else 0) +
      ((autoretry m exc).next.any Phase.reports).toNat = (autoretry m exc).queue.isSome.toNat := by
    intro exc
    rcases autoretry_cases m exc with ⟨-, ha⟩ | ⟨-, ha⟩ <;> rw [ha] <;> rfl
  cases h with
  | ownRetry delay _ => exact absurd rfl (hi delay)
  | undecodable _ => exact hautoretry _
  | lookupFails exc => exact hautoretry exc
  | retryFails delay exc => exact hautoretry exc
  | failure exc again stage =>
      cases stage with
      | count => cases again <;> rfl
      | _ => rfl
  | failureFails exc exc' again stage hne =>
      cases stage with
      | count => exact absurd rfl hne
      | _ => rfl
  | _ => rfl

/-- The retries counted, and those still to be. -/
theorem retryCount_step (hg : Ground w) (hP : Governed o r.id w e)
    (hown : ∀ i delay, o i ≠ .retry delay) (hs : (system J).step w e = some w')
    (h : retryCount J r.id p + w.deliveries Phase.reports r.id =
      (retryDelays J r.id p).length) :
    retryCount J r.id ((w, e) :: p) + w'.deliveries Phase.reports r.id =
      (retryDelays J r.id ((w, e) :: p)).length := by
  have he := step_cases hs
  have hcons : retryCount J r.id ((w, e) :: p) =
      retryGain J r.id (w, e) + retryCount J r.id p := rfl
  by_cases hwork : ∃ s i, e = .work s i
  · obtain ⟨s, i, rfl⟩ := hwork
    obtain ⟨m, worker, phase, eff, db, hslot, hgain, hp, hdb, rfl⟩ := work_piece hg.bounded hs
    have hcount := deliveries_work (p := Phase.reports) (j := r.id) hg.bounded hslot hp hdb
    by_cases hj : m.jobId = r.id
    · have hreports := hp.reports (by
        rintro delay rfl
        exact hown _ delay (follows_ends hP.follows hslot hj).symm)
      obtain ⟨hdelay, hretry⟩ := retry_work hg.bounded hslot hs hgain
      rw [hj] at hdelay hretry
      have hlength : (retryDelays J r.id ((w, .work s i) :: p)).length =
          eff.queue.isSome.toNat + (retryDelays J r.id p).length := by
        rw [retryDelays_cons, hdelay, List.length_append]
        cases eff.queue <;> rfl
      rw [hcons, hretry, hlength]
      simp only [hj, decide_true, Bool.true_and] at hcount
      omega
    · obtain ⟨hdelay, hretry⟩ := retry_none (J := J) (w := w) (e := .work s i) (j := r.id) (by
        rintro s' i' hev hj'
        obtain ⟨rfl, -⟩ := Event.work.inj hev
        rw [hslot] at hj'
        exact hj (Option.some.inj hj'))
      simp only [hj, decide_false, Bool.false_and, Bool.toNat_false, Nat.add_zero] at hcount
      rw [hcons, hretry, Nat.zero_add, retryDelays_cons, hdelay, hcount]
      exact h
  · have hne : ∀ s i, e ≠ .work s i := fun s i hi => hwork ⟨s, i, hi⟩
    have hcrash : ∀ s, e ≠ .crash s := by
      rintro s rfl
      exact absurd hP.unrepeated Bool.false_ne_true
    obtain ⟨hdelay, hretry⟩ := retry_none (J := J) (w := w) (j := r.id) fun s i hev =>
      absurd hev (hne s i)
    rw [hcons, hretry, Nat.zero_add, retryDelays_cons, hdelay,
      deliveries_idle he hg.bounded rfl hne hcrash]
    exact h

end Step

/-! ## Runs -/

/-- What holds along a governed run from a fresh job on. -/
structure Engaged (J : JsonCodec) (o : Nat → Outcome) (r : Job) (p : List (World × Event))
    (w : World) : Prop where
  ground : Ground w
  setting : Setting r w
  engine : Engine J o r p w
  counted : retryCount J r.id p + w.deliveries Phase.reports r.id =
    (retryDelays J r.id p).length

section Run
variable {J : JsonCodec} {allowed : List String} {o : Nat → Outcome} {r : Job}
  {p : List (World × Event)} {w w' : World} {e : Event} {es : List Event}

theorem Engaged.step (h : Engaged J o r p w) (hP : Governed o r.id w e)
    (hown : ∀ i delay, o i ≠ .retry delay) (hs : (system J).step w e = some w') :
    Engaged J o r ((w, e) :: p) w' where
  ground := h.ground.step (step_cases hs)
  setting := h.setting.step h.ground hP hown hs
  engine := h.engine.step h.setting h.ground hP hown hs
  counted := retryCount_step h.ground hP hown hs h.counted

theorem Fresh.engaged (hfresh : Fresh r w)
    (h : (system J).Run (fun _ e => uncancelled r.id e) (.init allowed) es w) :
    Engaged J o r [] w := by
  obtain ⟨hg, hheld, hbl⟩ := run_invariant (I := fun w => Held r.id w ∧ Blanks w) h
    (ground_init allowed) ⟨held_init r.id allowed, blanks_init allowed⟩
    fun hg hi hP hs => ⟨hi.1.step hg hP hs, hi.2.step (step_cases hs)⟩
  obtain ⟨s, m, hs, hj, hzero⟩ := hfresh.queued
  -- the queued message is the only one of the job
  have hqueued : ∀ s' m', (w.slots s').message? = some m' → m'.jobId = r.id →
      s' = s ∧ m' = m ∧ w.slots s' = .queued m' := by
    intro s' m' hm' hj'
    obtain rfl : s' = s := by
      refine hfresh.sole s' s ?_ ?_
      · rw [Slot.jobId?, hm', Option.map_some, hj']
      · rw [hs]
        exact congrArg some hj
    rw [hs] at hm'
    obtain rfl := Option.some.inj hm'
    exact ⟨rfl, rfl, hs⟩
  have hdelivered : ∀ s' m' worker phase, w.slots s' = .delivered m' worker phase →
      m'.jobId ≠ r.id := by
    intro s' m' worker phase hs' hj'
    obtain ⟨-, -, hq⟩ := hqueued s' m' (by rw [hs']; rfl) hj'
    rw [hs'] at hq
    cases hq
  refine ⟨hg, ⟨hheld, hbl, ?_, ⟨r, hfresh.row, rfl⟩, hfresh.keyed⟩, .inl ⟨s, m, ?_⟩, ?_⟩
  · refine ⟨?_, ?_, ?_, ?_, ?_, ?_⟩
    · intro s₁ s₂ h₁ h₂
      obtain ⟨m₁, hm₁, hj₁, -⟩ := Slot.pends_iff.mp h₁
      obtain ⟨m₂, hm₂, hj₂, -⟩ := Slot.pends_iff.mp h₂
      exact (hqueued s₁ m₁ hm₁ hj₁).1.trans (hqueued s₂ m₂ hm₂ hj₂).1.symm
    · intro s' m' hm' hj'
      rw [(hqueued s' m' hm' hj').2.1, hzero]
      exact Nat.zero_le _
    · intro s' m' hs' hj'
      rw [(hqueued s' m' (by rw [hs']; rfl) hj').2.1]
      exact .inr ⟨r, hfresh.row, .inl ⟨hzero, .inl hfresh.blank.status⟩⟩
    · intro s' m' worker phase hs' hj'
      exact absurd hj' (hdelivered s' m' worker phase hs')
    · intro r' hr'
      obtain rfl := Option.some.inj (hfresh.row.symm.trans hr')
      refine ⟨hfresh.blank.coherent, ?_⟩
      intro t ht
      rw [hfresh.blank.startedAt] at ht
      cases ht
    · intro c pc hc
      exact absurd hc (hheld.spared.uncalled c pc)
  · refine ⟨by rw [hs]; rfl, hj, ?_, ?_, ?_, ?_, ?_, hfresh.uncached⟩
    · rw [hs]
      exact decide_eq_true hj
    · intro i hi
      rw [hzero] at hi
      cases hi
    · rw [hzero]
      rfl
    · rw [hfresh.unexecuted, hzero, hs]
      rfl
    · intro worker phase hs'
      exact absurd hj (hdelivered s m worker phase hs')
  · have hunheld : Unheld r.id w := by
      intro s' hs'
      obtain ⟨m', worker, phase, hslot, hj'⟩ := heldFor_iff.mp hs'
      exact hdelivered s' m' worker phase hslot hj'
    rw [deliveries_unheld hunheld]
    rfl

/-- A job that has no message left gets none. -/
theorem Setting.done_step (h : Setting r w) (hg : Ground w) (hP : Governed o r.id w e)
    (hs : (system J).step w e = some w') (hdone : ¬ w.Outstanding r.id) :
    ¬ w'.Outstanding r.id := by
  obtain ⟨r', hr', -⟩ := h.row
  rintro ⟨s, hout⟩
  cases h.moves hg hP hs with
  | aside haside _ _ =>
      cases haside s with
      | same hsame => exact hdone ⟨s, hsame ▸ hout⟩
      | other hnone _ =>
          obtain ⟨m, hm, hj⟩ := Option.map_eq_some_iff.mp hout
          exact hnone m hm hj
      | ended hslot hslot' _ _ =>
          refine hdone ⟨s, ?_⟩
          rw [hslot'] at hout
          rw [hslot]
          exact hout
  | sent _ hnone _ _ _ => rw [hr'] at hnone; cases hnone
  | landed _ _ hnone _ _ => rw [hr'] at hnone; cases hnone
  | cancelled hc _ _ _ => exact h.held.spared.uncalled _ _ hc
  | @taken s' worker m _ hslot hj _ _ =>
      refine hdone ⟨s', ?_⟩
      rw [hslot]
      exact congrArg some hj
  | @worked s' i m worker phase eff db _ hslot hj _ _ _ _ =>
      refine hdone ⟨s', ?_⟩
      rw [hslot]
      exact congrArg some hj

/-- A job without a message has gone through the attempts that `o` makes necessary. -/
theorem Engaged.concluded (h : Engaged J o r p w) (hdone : ¬ w.Outstanding r.id) :
    Concluded J o r p w (retriesOf o) ∧ retryCount J r.id p = retriesOf o := by
  rcases h.engine with ⟨s, m, ha⟩ | ⟨n, hc⟩
  · refine absurd ⟨s, ?_⟩ hdone
    rw [Slot.jobId?, ha.message, Option.map_some, ha.jobId]
  · obtain rfl := retriesOf_eq hc.failed hc.last
    refine ⟨hc, ?_⟩
    have hcounted := h.counted
    rw [deliveries_unheld (unheld_of_done hdone), hc.delays, List.length_reverse, countdowns,
      List.length_map, List.length_range] at hcounted
    exact hcounted

end Run

/-! ## Progress -/

/-- What the next piece of a delivery hears, if nothing external fails. -/
def Phase.input (x : Outcome) : Phase → Input
  | .executing => .ends x
  | _ => .returns

/-- How far a delivery of attempt `n` is from its acknowledgement, its retries included. -/
def Phase.weight (n : Nat) : Phase → Nat
  | .received => 20 * (6 - n) - 1
  | .started => 20 * (6 - n) - 2
  | .missed => 20 * (6 - n) - 3
  | .executing => 20 * (6 - n) - 4
  | .returned _ => 8
  | .completed _ => 7
  | .counted _ => 6
  | .failing _ again stage =>
      (match stage with
        | .send => 5
        | .failed => 4
        | .dlq => 3
        | .count => 2) + if again then 4 else 0
  | .retrying _ again => 20 * (5 - n) + 6 + again.toNat
  | .retried => 2
  | .handled => 1

/-- What a piece leaves in its slot. -/
def BaseTask.Effects.slot (eff : Effects) (m : Message) (worker : Worker) : Slot :=
  match eff.next with
  | some phase => .delivered m worker phase
  | none => .empty

/-- What a slot contributes to the distance of job `j` from its end. -/
def Slot.weight (j : Uuid) : Slot → Nat
  | .empty => 0
  | .queued m => if m.jobId = j then 20 * (6 - m.retries) else 0
  | .delivered m _ phase => if m.jobId = j then phase.weight m.retries else 0

def World.weight (w : World) (j : Uuid) : Nat :=
  ∑ s ∈ Finset.range w.nextSlot, (w.slots s).weight j

section Progress
variable {J : JsonCodec} {o : Nat → Outcome} {r : Job} {p : List (World × Event)} {w w' : World}
  {s : SlotId} {m : Message} {worker : Worker} {phase : Phase} {i : Input} {eff : Effects}
  {db : Db}

theorem Piece.weight {cached : Option String} {now : Time}
    (h : Piece J m worker cached now phase i eff) (hn : m.retries ≤ maxRetries)
    (hi : ∀ delay, i ≠ .ends (.retry delay)) :
    (eff.next.map (Phase.weight m.retries)).getD 0 +
      (eff.queue.map fun m => 20 * (6 - m.retries)).getD 0 < phase.weight m.retries := by
  simp only [maxRetries] at hn
  cases h with
  | ownRetry delay _ => exact absurd rfl (hi delay)
  | failure exc again stage =>
      cases stage <;> cases again <;> simp [onFailure, Phase.weight]
  | failureFails exc exc' again stage =>
      cases stage <;> cases again <;> simp [onFailure, Phase.weight]
  | @undecodable text _ =>
      rcases autoretry_cases m (J.fault text) with ⟨-, ha⟩ | ⟨-, ha⟩ <;> rw [ha] <;>
        simp [Phase.weight] <;> omega
  | lookupFails exc =>
      rcases autoretry_cases m exc with ⟨-, ha⟩ | ⟨-, ha⟩ <;> rw [ha] <;>
        simp [Phase.weight] <;> omega
  | retryFails delay exc =>
      rcases autoretry_cases m exc with ⟨-, ha⟩ | ⟨-, ha⟩ <;> rw [ha] <;> simp [Phase.weight]
  | _ =>
      simp [Phase.weight, beforeStart, onSuccess, countSuccess, storeIdempotencyResult,
        BaseTask.retry, BaseTask.onRetry, retryMessage] <;> omega

theorem sum_update {α : Type} {f : Nat → α} {g : α → Nat} {n k : Nat} (hk : k < n) (x : α) :
    (∑ i ∈ Finset.range n, g (Function.update f k x i)) + g (f k) =
      (∑ i ∈ Finset.range n, g (f i)) + g x := by
  have hsum := sum_moved hk fun i hi => congrArg g (Function.update_of_ne hi x f)
  rwa [Function.update_self] at hsum

theorem weight_queued (m : Message) : (Slot.queued m).weight m.jobId = 20 * (6 - m.retries) :=
  if_pos rfl

theorem weight_delivered : (Slot.delivered m worker phase).weight m.jobId =
    phase.weight m.retries := if_pos rfl

theorem weight_next (worker : Worker) : (eff.slot m worker).weight m.jobId =
    (eff.next.map (Phase.weight m.retries)).getD 0 := by
  unfold Effects.slot
  cases eff.next with
  | none => rfl
  | some phase => exact weight_delivered

theorem weight_setSlot (hlt : s < w.nextSlot) (x : Slot) (j : Uuid) :
    (w.setSlot s x).weight j + (w.slots s).weight j = w.weight j + x.weight j :=
  sum_update hlt x

theorem weight_enqueue (hb : Bounded w) (m : Message) :
    (w.enqueue m).weight m.jobId = w.weight m.jobId + 20 * (6 - m.retries) := by
  have hsum := sum_update (f := w.slots) (g := Slot.weight m.jobId) (Nat.lt_succ_self w.nextSlot)
    (.queued m)
  rw [Finset.sum_range_succ (fun i => (w.slots i).weight m.jobId), hb _ (Nat.le_refl _),
    weight_queued] at hsum
  exact hsum

/-- A worker that takes the message of the job brings it nearer to its end. -/
theorem weight_taken (hb : Bounded w) (hs : w.slots s = .queued m)
    (hn : m.retries ≤ maxRetries) :
    (w.setSlot s (.delivered m worker .received)).weight m.jobId < w.weight m.jobId := by
  have hsum := weight_setSlot (hb.lt (by rw [hs]; exact nofun)) (.delivered m worker .received)
    m.jobId
  rw [hs, weight_queued, weight_delivered, Phase.weight] at hsum
  simp only [maxRetries] at hn
  omega

/-- Every piece of a delivery of the job does. -/
theorem weight_worked (hb : Bounded w) (hs : w.slots s = .delivered m worker phase)
    (hp : Piece J m worker (w.cache (cacheKey m.idempotencyKey)) w.clock phase i eff)
    (hn : m.retries ≤ maxRetries) (hi : ∀ delay, i ≠ .ends (.retry delay)) :
    (w.apply J s m worker eff db).weight m.jobId < w.weight m.jobId := by
  have hlt : s < w.nextSlot := hb.lt (by rw [hs]; exact nofun)
  have hpiece := hp.weight hn hi
  cases hq : eff.queue with
  | none =>
      have happly : (w.apply J s m worker eff db).weight m.jobId =
          (w.setSlot s (eff.slot m worker)).weight m.jobId := by
        rw [World.weight, World.apply, hq]
        rfl
      have hsum := weight_setSlot hlt (eff.slot m worker) m.jobId
      rw [← happly, weight_next worker, hs, weight_delivered] at hsum
      omega
  | some m' =>
      have hj := (hp.queue_copy hq).jobId
      have happly : (w.apply J s m worker eff db).weight m.jobId =
          ((w.enqueue m').setSlot s (eff.slot m worker)).weight m.jobId := by
        rw [World.weight, World.apply, hq]
        rfl
      have hkept : (w.enqueue m').slots s = w.slots s :=
        Function.update_of_ne (Nat.ne_of_lt hlt) ..
      have hqueued := weight_enqueue hb m'
      have hsum := @weight_setSlot (w.enqueue m') s (Nat.lt_succ_of_lt hlt) (eff.slot m worker)
        m.jobId
      rw [← happly, weight_next worker, hkept, hs, weight_delivered] at hsum
      rw [hj] at hqueued
      rw [hq, Option.map_some, Option.getD_some] at hpiece
      omega

/-- The rows of an uncancelled job are free. -/
theorem Setting.unlocked (h : Setting r w) (hg : Ground w) :
    ∀ l ∈ w.db.locks, l.2.1 ≠ r.id := by
  rintro l hl hj
  exact h.held.spared.uncalled l.1 .updated (hj ▸ hg.sessions.held_by hl)

/-- A delivery of the job can always go on. -/
theorem work_enabled {x : Outcome} (hs : w.slots s = .delivered m worker phase)
    (hlocks : ∀ l ∈ w.db.locks, l.2.1 ≠ m.jobId) (hx : ∀ delay, x ≠ .retry delay) :
    ∃ w', (system J).step w (.work s (phase.input x)) = some w' := by
  obtain ⟨eff, heff⟩ : ∃ eff, BaseTask.step J m worker (w.cache (cacheKey m.idempotencyKey))
      w.clock phase (phase.input x) = some eff := by
    cases phase with
    | executing =>
        cases x with
        | retry delay => exact absurd rfl (hx delay)
        | exception exc =>
            simp only [Phase.input, BaseTask.step, executeEnds]
            split <;> exact ⟨_, rfl⟩
        | _ => exact ⟨_, rfl⟩
    | _ => exact ⟨_, rfl⟩
  obtain ⟨db, hdb⟩ : ∃ db, w.write m.jobId eff.write = some db := by
    cases hw : eff.write with
    | none => exact ⟨_, rfl⟩
    | some wr =>
        simp only [World.write, Store.update]
        split
        · rw [if_neg]
          · exact ⟨_, rfl⟩
          · rintro ⟨l, hl, hj⟩
            exact hlocks l hl hj
        · exact ⟨_, rfl⟩
  refine ⟨w.apply J s m worker eff db, ?_⟩
  change w.work J s _ = _
  simp only [World.work, hs, heff, Option.bind_some, World.perform, hdb, Option.map_some]

theorem governed_input {j : Uuid} :
    Governed o j w (.work s (phase.input (o (w.executions j - 1)))) := by
  cases phase with
  | executing => exact ⟨rfl, rfl, rfl, rfl, fun _ => rfl⟩
  | _ => exact ⟨rfl, rfl, rfl, rfl, trivial⟩

theorem input_plain {x : Outcome} (hx : ∀ delay, x ≠ .retry delay) (delay : Nat) :
    phase.input x ≠ .ends (.retry delay) := by
  cases phase with
  | executing => exact fun h => hx delay (Input.ends.inj h)
  | _ => exact nofun

/-- As long as the job has a message, a run brings it nearer to its end. -/
theorem Engaged.progress (h : Engaged J o r p w) (hown : ∀ i delay, o i ≠ .retry delay)
    (hout : w.Outstanding r.id) :
    ∃ es w', (system J).Run (Governed o r.id) w es w' ∧
      (∃ p, Engaged J o r p w') ∧ w'.weight r.id < w.weight r.id := by
  obtain ⟨s, hs⟩ := hout
  obtain ⟨m, hm, hj⟩ := Option.map_eq_some_iff.mp hs
  have hn := h.setting.chained.retries s m hm hj
  cases hslot : w.slots s with
  | empty => rw [hslot] at hm; cases hm
  | queued m₀ =>
      rw [hslot] at hm
      obtain rfl := Option.some.inj hm
      -- the message falls due, and is taken
      have hheard := h.setting.held.spared.not_revoked h.setting.held.enqueued
        h.setting.held.copies hslot hj "v"
      obtain ⟨w₁, hw₁⟩ : ∃ w₁, w₁ = { w with clock := w.clock + (m₀.eta - w.clock) } := ⟨_, rfl⟩
      have htick : (system J).step w (.tick (m₀.eta - w.clock)) = some w₁ := hw₁ ▸ rfl
      have hPtick : Governed o r.id w (.tick (m₀.eta - w.clock)) := ⟨rfl, rfl, rfl, rfl, trivial⟩
      have hPtake : Governed o r.id w₁ (.take s "v") := ⟨rfl, rfl, rfl, rfl, trivial⟩
      have hticked := h.step hPtick hown htick
      have hslot₁ : w₁.slots s = .queued m₀ := hw₁ ▸ hslot
      have htake : (system J).step w₁ (.take s "v") =
          some (w₁.setSlot s (.delivered m₀ "v" .received)) := by
        change w₁.take s "v" = _
        have hdue : ¬ w₁.clock < m₀.eta := by
          rw [hw₁]
          exact Nat.not_lt.mpr (Nat.sub_le_iff_le_add'.mp (Nat.le_refl _))
        have hheard₁ : m₀.id ∉ w₁.heard "v" := hw₁ ▸ hheard
        simp only [World.take, hslot₁, hdue, hheard₁, if_false]
      refine ⟨_, _, .cons hPtick htick (.cons hPtake htake (.nil _)),
        ⟨_, hticked.step hPtake hown htake⟩, ?_⟩
      have hweight : w₁.weight r.id = w.weight r.id := hw₁ ▸ rfl
      rw [← hweight, ← hj]
      exact weight_taken hticked.ground.bounded hslot₁ hn
  | delivered m₀ worker phase =>
      rw [hslot] at hm
      obtain rfl := Option.some.inj hm
      have hlocks := h.setting.unlocked h.ground
      rw [← hj] at hlocks
      obtain ⟨w', hstep⟩ := work_enabled (J := J) (x := o (w.executions r.id - 1)) hslot hlocks
        (hown _)
      refine ⟨_, _, .cons governed_input hstep (.nil _),
        ⟨_, h.step governed_input hown hstep⟩, ?_⟩
      obtain ⟨m₁, worker₁, phase₁, eff, db, hslot₁, -, hp, -, rfl⟩ :=
        work_piece h.ground.bounded hstep
      rw [hslot, Slot.delivered.injEq] at hslot₁
      obtain ⟨rfl, rfl, rfl⟩ := hslot₁
      rw [← hj]
      exact weight_worked h.ground.bounded hslot hp hn (input_plain (hown _))

end Progress

/-! ## The retry engine -/

/-- Whatever `execute()` does in the first attempt, the second, …, a job whose message is
delivered once, and that nobody cancels, is executed until it does not fail, six times at most,
with the countdowns of the exponential backoff; and it is completed with what `execute()`
returned, or ends in DLQ.  It can be seen through from any point, and has no message then. -/
theorem retry_engine {J : JsonCodec} {allowed : List String} {o : Nat → Outcome} {r : Job}
    {es₀ es : List Event} {w₀ w : World} (hown : ∀ i delay, o i ≠ .retry delay)
    (h₀ : (system J).Run (fun _ e => uncancelled r.id e) (.init allowed) es₀ w₀)
    (hfresh : Fresh r w₀) (h : (system J).Run (Governed o r.id) w₀ es w) :
    (¬ w.Outstanding r.id →
      (w.executions r.id = retriesOf o + 1 ∧
        (retryDelays J r.id ((system J).past [] w₀ es)).reverse =
          (List.range (retriesOf o)).map (fun i => 10 * 2 ^ i) ∧
        retryCount J r.id ((system J).past [] w₀ es) = retriesOf o ∧
        ∃ r', w.db.find r.id = some r' ∧ r'.executionCount = retriesOf o + 1 ∧
          r'.EndsWith (o (retriesOf o))) ∧
      ∀ fs w', (system J).Run (Governed o r.id) w fs w' → ¬ w'.Outstanding r.id) ∧
    ∃ fs w', (system J).Run (Governed o r.id) w fs w' ∧ ¬ w'.Outstanding r.id := by
  have hengaged : Engaged J o r ((system J).past [] w₀ es) w :=
    h.invariant_past (fun hi hP hs => hi.step hP hown hs) (hfresh.engaged h₀)
  constructor
  · intro hdone
    obtain ⟨hc, hcount⟩ := hengaged.concluded hdone
    refine ⟨⟨hc.executions, ?_, hcount, hc.row⟩, ?_⟩
    · rw [hc.delays, List.reverse_reverse]
      rfl
    · intro fs w' hrun
      refine (hrun.invariant (I := fun w => (∃ p, Engaged J o r p w) ∧ ¬ w.Outstanding r.id) ?_
        ⟨⟨_, hengaged⟩, hdone⟩).2
      rintro w w' e ⟨⟨p, hi⟩, hout⟩ hP hs
      exact ⟨⟨_, hi.step hP hown hs⟩, hi.setting.done_step hi.ground hP hs hout⟩
  · obtain ⟨fs, w', hrun, -, hdone⟩ := Machine.reaches_of_measure (M := system J)
      (P := Governed o r.id) (I := fun w => ∃ p, Engaged J o r p w)
      (D := fun w => ¬ w.Outstanding r.id) (fun w => w.weight r.id) (by
        rintro w ⟨p, hi⟩ hout
        exact hi.progress hown (not_not.mp hout)) w ⟨_, hengaged⟩
    exact ⟨fs, w', hrun, hdone⟩

/-! ### A job that fails once -/

/-- The first attempt fails, and the second returns. -/
def failsOnce : Nat → Outcome
  | 0 => .exception ⟨"down", "Traceback"⟩
  | _ => .returns .null

/-- `create_job` has returned. -/
def newWorld : World := ((system nullCodec).exec pingWorld (createEvents 0 "k")).getD pingWorld

def newJob : Job := (newWorld.db.find 0).get (by decide)

theorem newJob_run : (system nullCodec).Run (fun _ e => uncancelled newJob.id e) pingWorld
    (createEvents 0 "k") newWorld :=
  Machine.run_of_exec rfl (by decide)

theorem newJob_fresh : Fresh newJob newWorld where
  row := rfl
  blank := ⟨rfl, rfl, rfl, rfl, rfl, rfl, rfl⟩
  queued := ⟨0, _, rfl, rfl, rfl⟩
  sole s s' hs hs' := by
    have hfirst : ∀ {s : SlotId}, (newWorld.slots s).jobId? = some newJob.id → s < 1 := by
      intro s hs
      refine (run_ground newJob_run (ground_init _)).bounded.lt ?_
      intro hempty
      rw [hempty] at hs
      cases hs
    exact (Nat.lt_one_iff.mp (hfirst hs)).trans (Nat.lt_one_iff.mp (hfirst hs')).symm
  unexecuted := by decide
  uncached := rfl
  keyed := by decide

/-- The two attempts, each handled to the end. -/
def failsOnceEvents : List Event :=
  startEvents 0 "v" ++ .work 0 (.ends (failsOnce 0)) :: List.replicate 3 (.work 0 .returns) ++
    .tick 10 :: startEvents 1 "v" ++ .work 1 (.ends (failsOnce 1)) ::
      List.replicate 4 (.work 1 .returns)

/-- The first call of `execute()` ends as attempt 0, and the second as attempt 1. -/
def endsInTurn (w : World) : Event → Bool
  | .work _ (.ends (.exception exc)) =>
      decide (exc.str = "down" ∧ exc.traceback = "Traceback" ∧ w.executions newJob.id = 1)
  | .work _ (.ends (.returns .null)) => decide (w.executions newJob.id = 2)
  | .work _ (.ends _) => false
  | _ => true

theorem follows_of_endsInTurn {w : World} {e : Event} (h : endsInTurn w e) :
    follows failsOnce newJob.id w e := by
  cases e with
  | work s i =>
      cases i with
      | ends x =>
          intro _
          cases x with
          | exception exc =>
              obtain ⟨hstr, htrace, hcount⟩ := of_decide_eq_true h
              rw [hcount]
              show Outcome.exception ⟨exc.str, exc.traceback⟩ = _
              rw [hstr, htrace]
              rfl
          | returns v =>
              cases v with
              | null => rw [of_decide_eq_true h]; rfl
              | _ => cases h
          | _ => cases h
      | _ => trivial
  | _ => trivial

theorem retry_engine_ping : ∃ w, (system nullCodec).exec newWorld failsOnceEvents = some w ∧
    w.executions 0 = 2 ∧
    (retryDelays nullCodec 0 ((system nullCodec).past [] newWorld failsOnceEvents)).reverse =
      [10] ∧
    retryCount nullCodec 0 ((system nullCodec).past [] newWorld failsOnceEvents) = 1 ∧
    ∃ r, w.db.find 0 = some r ∧ r.executionCount = 2 ∧ r.status = .completed := by
  obtain ⟨w, hw, hrun, hobs⟩ := Machine.exists_run_obs (system nullCodec)
    (fun w e => (storesWork w e ∧ requeues newJob.id w e ∧ unrepeated e ∧
      uncancelled newJob.id e) ∧ endsInTurn w e)
    newWorld failsOnceEvents
    (fun w => decide (∃ s < w.nextSlot, (w.slots s).jobId? = some newJob.id)) false
    (by decide) (by decide)
  have hg := run_ground hrun (run_ground newJob_run (ground_init _))
  have hdone : ¬ w.Outstanding newJob.id :=
    fun ho => of_decide_eq_false hobs ((outstanding_iff hg.bounded).mp ho)
  have hgoverned : (system nullCodec).Run (Governed failsOnce newJob.id) newWorld
      failsOnceEvents w :=
    hrun.imp (I := fun _ => True) (fun _ _ _ => trivial) (fun _ hP => ⟨hP.1.1, hP.1.2.1,
      hP.1.2.2.1, hP.1.2.2.2, follows_of_endsInTurn hP.2⟩) trivial
  have hown : ∀ i delay, failsOnce i ≠ .retry delay := by
    intro i delay
    cases i <;> exact nofun
  obtain ⟨⟨hexec, hdelays, hcount, r, hr, hattempts, hends⟩, -⟩ :=
    (retry_engine hown newJob_run newJob_fresh hgoverned).1 hdone
  exact ⟨w, hw, hexec, hdelays, hcount, r, hr, hattempts, hends.1⟩

end Aegis
