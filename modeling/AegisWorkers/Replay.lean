/-
# `AegisWorkers.Replay` — deliveries after the first success

Deliveries of one job's message, one after the other, with the key to themselves: the first
`execute()` that returns decides what every later delivery returns, and each of them writes
row and cache again with what is there already.

    w.yields k     what `execute()` has returned for the key `k`, the latest first
    Unanswered     nothing is stored and no delivery has a value in hand
    Settled v      cache, deliveries and row hold `v`, or are on their way to it

A run is `Unanswered` until `execute()` returns `v`, and `Settled v` from then on.  The cached
`"null"` and the NULL result column need no case of their own: `Json.column` says what the row
holds for `v`, and `Lawful.check` what a lookup makes of the stored text.
-/
import AegisWorkers.Accounting
import AegisWorkers.Lifecycle
import AegisWorkers.Provenance

namespace Aegis

open BaseTask JobService ReadCommitted

/-! ## The condition -/

/-- The messages of job `j` carry the key `k`, and no other message does. -/
def carriedBy (j : Uuid) (k : String) (w : World) : Bool :=
  w.published.all fun m => decide (m.idempotencyKey = k ↔ m.jobId = j)

/-! ## What `execute()` has returned -/

/-- The value `execute()` was seen to return for the key. -/
def Obs.yield? (k : String) : Obs → Option Json
  | .executeReturned m v => if m.idempotencyKey = k then some v else none
  | _ => none

/-- The values `execute()` has returned for the key, the latest first. -/
def World.yields (w : World) (k : String) : List Json := w.trace.filterMap (Obs.yield? k)

/-- What the result column holds for a value: `None` is not written. -/
def Json.column : Json → Option Json
  | .null => none
  | v => some v

theorem values_result (now : Time) (status : JobStatus) (u : StatusUpdate) (r : Job) :
    (values now status u r).result = u.result.column.or r.result := by
  cases hu : u.result <;> simp [values, hu, Json.column]

section Yields
variable {J : JsonCodec} {w w' : World} {e : Event} {k : String} {m : Message} {worker : Worker}
  {cached : Option String} {now : Time} {phase : Phase} {i : Input} {eff : Effects}

theorem Piece.shows_yield (h : Piece J m worker cached now phase i eff) (k : String) :
    eff.seen.filterMap (Obs.yield? k) = [] ∨ m.idempotencyKey = k ∧ phase = .executing ∧
      ∃ v, eff.next = some (.returned v) ∧ eff.seen.filterMap (Obs.yield? k) = [v] := by
  cases h with
  | returns v =>
      by_cases hk : m.idempotencyKey = k
      · exact .inr ⟨hk, rfl, v, rfl, by simp [Obs.yield?, hk]⟩
      · exact .inl (by simp [Obs.yield?, hk])
  | failure exc again stage => cases stage <;> exact .inl rfl
  | failureFails exc exc' again stage => cases stage <;> exact .inl rfl
  | _ => exact .inl rfl

theorem yields_apply {s : SlotId} {db : Db} : (w.apply J s m worker eff db).yields k =
    eff.seen.filterMap (Obs.yield? k) ++ w.yields k := by
  cases hw : eff.write <;>
    simp [World.yields, World.apply, hw, List.filterMap_cons, Obs.yield?]

theorem SysStep.yields (he : SysStep J w e w') (hw : ∀ s i, e ≠ .work s i) :
    w'.yields k = w.yields k := by
  obtain ⟨new, ht, hn⟩ := he.shows_api hw
  have hnone : new.filterMap (Obs.yield? k) = [] := by
    refine List.filterMap_eq_nil_iff.mpr ?_
    intro o ho
    cases o with
    | executeReturned m v => exact (hn _ ho).elim
    | _ => rfl
  rw [World.yields, ht, List.filterMap_append, hnone]
  rfl

end Yields

/-! ## Before and after the first success -/

/-- `execute()` has not returned for the job: nothing is cached, no delivery has a value in
hand, and the result column is NULL. -/
structure Unanswered (j : Uuid) (k : String) (w : World) : Prop where
  cached : w.cache (cacheKey k) = none
  held : ∀ s m worker phase, w.slots s = .delivered m worker phase → m.jobId = j →
    phase.result? = none
  result : ∀ r, w.db.find j = some r → r.result = none

/-- The phases of a delivery that goes by the value `v`. -/
def Phase.replays (v : Json) : Phase → Prop
  | .received => True
  | .started => True
  | .returned u => u = v
  | .completed u => u = v
  | .counted u => u = v
  | .handled => True
  | _ => False

/-- The row is not COMPLETED again yet. -/
def Phase.rewrites : Phase → Bool
  | .started => true
  | .returned _ => true
  | _ => false

/-- `execute()` has returned `v` for the job, and nothing else. -/
structure Settled (J : JsonCodec) (j : Uuid) (k : String) (v : Json) (w : World) : Prop where
  held : ∀ s m worker phase, w.slots s = .delivered m worker phase → m.jobId = j →
    phase.replays v
  cached : w.cache (cacheKey k) = some (J.dumps v) ∨ w.cache (cacheKey k) = none ∧
    ∃ s, (w.slots s).inPhase Phase.succeeded Message.jobId j
  row : ∃ r, w.db.find j = some r ∧ (r.result = none ∨ r.result = v.column) ∧
    ((∃ s, (w.slots s).inPhase Phase.rewrites Message.jobId j) ∨
      r.status = .completed ∧ r.result = v.column)

theorem unanswered_init (j : Uuid) (k : String) (allowed : List String) :
    Unanswered j k (.init allowed) where
  cached := rfl
  held _ _ _ _ h := nomatch h
  result _ h := nomatch h

/-! ## Events that are no piece of a delivery of the job -/

/-- What job `j` and the key `k` see of any other event. -/
structure Aside (j : Uuid) (k : String) (w w' : World) : Prop where
  yields : w'.yields k = w.yields k
  cache : w'.cache (cacheKey k) = w.cache (cacheKey k)
  row : w'.db.find j = w.db.find j ∨
    w.db.find j = none ∧ ∃ r, w'.db.find j = some r ∧ r.Blank
  held : ∀ s m worker phase, w'.slots s = .delivered m worker phase → m.jobId = j →
    w.slots s = .delivered m worker phase ∨ phase = .received
  keeps : ∀ s m worker phase, w.slots s = .delivered m worker phase → m.jobId = j →
    w'.slots s = .delivered m worker phase

section Aside
variable {J : JsonCodec} {w w' : World} {e : Event} {j : Uuid} {k : String}

/-- The messages of the job, and no others, carry the key. -/
theorem key_iff (hcp : Copies w) (hk : carriedBy j k w) {s : SlotId} {m : Message}
    (hs : (w.slots s).message? = some m) : m.idempotencyKey = k ↔ m.jobId = j := by
  obtain ⟨m₀, hm₀, hc⟩ := hcp s m hs
  have hall := of_decide_eq_true (List.all_eq_true.mp hk m₀ hm₀)
  rw [hc.idempotencyKey, hc.jobId]
  exact hall

theorem aside_of_ne (hg : Ground w) (hh : Held j w) (hbl : Blanks w) (hk : carriedBy j k w)
    (hP : undisturbed k e) (he : SysStep J w e w')
    (hne : ∀ s i m worker phase, e = .work s i → w.slots s = .delivered m worker phase →
      m.jobId ≠ j) : Aside j k w w' := by
  have hkey : ∀ {s : SlotId} {m : Message} {worker : Worker} {phase : Phase} {i : Input},
      e = .work s i → w.slots s = .delivered m worker phase → m.idempotencyKey ≠ k := by
    intro s m worker phase i hev hs hm
    exact hne s i m worker phase hev hs ((key_iff hh.copies hk (by rw [hs]; rfl)).mp hm)
  constructor
  · rcases he.worked with ⟨hev, hs, hp, -, rfl⟩ | hnw
    · rw [yields_apply]
      rcases hp.shows_yield k with hnil | ⟨hm, -⟩
      · rw [hnil]; rfl
      · exact absurd hm (hkey hev hs)
    · exact he.yields hnw
  · cases he.cache k with
    | stays hc => exact hc
    | stored hev hin _ _ =>
        obtain ⟨m, worker, phase, hs, hm, -⟩ := Slot.inPhase_iff.mp hin
        exact absurd hm (hkey hev hs)
    | expired hev => subst hev; exact absurd rfl (of_decide_eq_true hP)
  · cases he.row hg j with
    | stays hf => exact .inl hf
    | @landed _ sub t _ hc _ hnone hf => exact .inr ⟨hnone, _, hf, (hbl _ sub _ hc).row t⟩
    | cancelled _ hc _ => exact absurd hc (hh.spared.uncalled _ _)
    | written hev hs _ _ _ hj _ _ => exact absurd hj (hne _ _ _ _ _ hev hs)
  · intro s m worker phase hs hj
    cases he.delivered hg.bounded hs with
    | stays _ hs₀ => exact .inl hs₀
    | taken _ _ hr => exact .inr hr
    | advanced hev hs₀ _ _ _ => exact absurd hj (hne _ _ _ _ _ hev hs₀)
  · intro s m worker phase hs hj
    cases he.slot hg.bounded s with
    | stays hs' => rw [hs', hs]
    | published h₀ _ _ _ _ => rw [hs] at h₀; cases h₀
    | retried h₀ _ _ _ _ _ => rw [hs] at h₀; cases h₀
    | redelivered h₀ _ _ _ => rw [hs] at h₀; cases h₀
    | dropped _ h₀ _ _ => rw [hs] at h₀; cases h₀
    | taken _ h₀ _ _ => rw [hs] at h₀; cases h₀
    | advanced hev _ _ _ _ => exact absurd hj (hne _ _ _ _ _ hev hs)
    | acknowledged hev _ _ _ _ => exact absurd hj (hne _ _ _ _ _ hev hs)
    | crashed hev _ _ => subst hev; cases hP

theorem Unanswered.aside (h : Unanswered j k w) (ha : Aside j k w w') : Unanswered j k w' := by
  constructor
  · rw [ha.cache]
    exact h.cached
  · intro s m worker phase hs hj
    rcases ha.held s m worker phase hs hj with hs₀ | rfl
    · exact h.held s m worker phase hs₀ hj
    · rfl
  · intro r hr
    rcases ha.row with hsame | ⟨-, r', hr', hblank⟩
    · exact h.result r (hsame ▸ hr)
    · rw [hr', Option.some.injEq] at hr
      exact hr ▸ hblank.result

theorem Settled.aside {v : Json} (h : Settled J j k v w) (ha : Aside j k w w') :
    Settled J j k v w' := by
  have hphase : ∀ {p : Phase → Bool}, (∃ s, (w.slots s).inPhase p Message.jobId j) →
      ∃ s, (w'.slots s).inPhase p Message.jobId j := by
    rintro p ⟨s, hs⟩
    obtain ⟨m, worker, phase, hs₀, hj, hp⟩ := Slot.inPhase_iff.mp hs
    exact ⟨s, Slot.inPhase_iff.mpr ⟨m, worker, phase, ha.keeps s m worker phase hs₀ hj, hj, hp⟩⟩
  constructor
  · intro s m worker phase hs hj
    rcases ha.held s m worker phase hs hj with hs₀ | rfl
    · exact h.held s m worker phase hs₀ hj
    · trivial
  · rw [ha.cache]
    rcases h.cached with hc | ⟨hc, hs⟩
    · exact .inl hc
    · exact .inr ⟨hc, hphase hs⟩
  · obtain ⟨r, hr, hres, hrow⟩ := h.row
    have hr' : w'.db.find j = some r := by
      rcases ha.row with hsame | ⟨hnone, -⟩
      · rw [hsame, hr]
      · rw [hr] at hnone
        cases hnone
    refine ⟨r, hr', hres, ?_⟩
    rcases hrow with hs | hdone
    · exact .inl (hphase hs)
    · exact .inr hdone

end Aside

/-! ## A piece of a delivery of the job -/

section Work
variable {J : JsonCodec} {w w' : World} {e : Event} {j : Uuid} {k : String} {s : SlotId}
  {i : Input} {m : Message} {worker : Worker} {phase : Phase} {eff : Effects} {db : Db} {v : Json}

/-- The sole delivery of the job makes the move. -/
theorem sole_work (hsole : Sole j w) (hb : Bounded w)
    (he : SysStep J w (.work s i) (w.apply J s m worker eff db))
    (hs : w.slots s = .delivered m worker phase) (hj : m.jobId = j) {s' : SlotId} {m' : Message}
    {worker' : Worker} {phase' : Phase}
    (hs' : (w.apply J s m worker eff db).slots s' = .delivered m' worker' phase')
    (hj' : m'.jobId = j) : eff.next = some phase' := by
  have hheld : (w.slots s').heldFor j := by
    cases he.delivered hb hs' with
    | stays _ hs₀ => exact heldFor_iff.mpr ⟨m', worker', phase', hs₀, hj'⟩
    | taken hev _ _ => cases hev
    | advanced _ hs₀ _ _ _ => exact heldFor_iff.mpr ⟨m', worker', _, hs₀, hj'⟩
  obtain rfl : s' = s := hsole s s' (heldFor_iff.mpr ⟨m, worker, phase, hs, hj⟩) hheld
  cases hn : eff.next with
  | none => rw [slots_apply_none hn] at hs'; cases hs'
  | some phase₁ =>
      rw [slots_apply_some hn, Slot.delivered.injEq] at hs'
      rw [hs'.2.2]

/-- The lookup of a delivery, with a working cache. -/
theorem lookup_step (hstep : (system J).step w (.work s i) = some w')
    (hs : w.slots s = .delivered m worker .started) (hi : i.ok) :
    w' = w.apply J s m worker (run J m (w.cache (cacheKey m.idempotencyKey))) w.db := by
  have hwork : (BaseTask.step J m worker (w.cache (cacheKey m.idempotencyKey)) w.clock .started
      i).bind (w.perform J s m worker) = some w' := by
    change w.work J s i = some w' at hstep
    simpa only [World.work, hs] using hstep
  cases i with
  | returns =>
      have hwrite : (run J m (w.cache (cacheKey m.idempotencyKey))).write = none := by
        unfold run
        split <;> rfl
      simp only [BaseTask.step, Option.bind_some, World.perform, hwrite, World.write,
        Option.map_some, Option.some.injEq] at hwork
      exact hwork.symm
  | raises exc => cases hi
  | ends o => cases hwork

/-- A lookup of the job before the first success finds nothing. -/
theorem Unanswered.lookup (h : Unanswered j k w) (hm : m.idempotencyKey = k)
    (hstep : (system J).step w (.work s i) = some w')
    (hs : w.slots s = .delivered m worker .started) (hi : i.ok) :
    w' = w.apply J s m worker { next := some .missed } w.db := by
  rw [lookup_step hstep hs hi, hm, h.cached]
  rfl

/-- The result is cached, unless the sole delivery is on its way to store it. -/
theorem Settled.cached_some (h : Settled J j k v w) (hsole : Sole j w)
    (hs : w.slots s = .delivered m worker phase) (hj : m.jobId = j)
    (hp : phase.succeeded = false) : w.cache (cacheKey k) = some (J.dumps v) := by
  rcases h.cached with hc | ⟨-, s', hs'⟩
  · exact hc
  · have hss := hsole s s' (heldFor_iff.mpr ⟨m, worker, phase, hs, hj⟩) (heldFor_of_inPhase hs')
    rw [hss, hs, Slot.inPhase, hp, Bool.and_false] at hs'
    cases hs'

/-- The row is COMPLETED, unless the sole delivery is on its way to complete it again. -/
theorem Settled.completed (h : Settled J j k v w) (hsole : Sole j w)
    (hs : w.slots s = .delivered m worker phase) (hj : m.jobId = j)
    (hp : phase.rewrites = false) :
    ∃ r, w.db.find j = some r ∧ r.status = .completed ∧ r.result = v.column := by
  obtain ⟨r, hr, -, ⟨s', hs'⟩ | hdone⟩ := h.row
  · have hss := hsole s s' (heldFor_iff.mpr ⟨m, worker, phase, hs, hj⟩) (heldFor_of_inPhase hs')
    rw [hss, hs, Slot.inPhase, hp, Bool.and_false] at hs'
    cases hs'
  · exact ⟨r, hr, hdone⟩

/-- A lookup of the job after it finds the value. -/
theorem Settled.lookup (h : Settled J j k v w) (hJ : J.Lawful) (hsole : Sole j w)
    (hm : m.idempotencyKey = k) (hj : m.jobId = j)
    (hstep : (system J).step w (.work s i) = some w')
    (hs : w.slots s = .delivered m worker .started) (hi : i.ok) :
    w' = w.apply J s m worker { next := some (.returned v) } w.db := by
  rw [lookup_step hstep hs hi, hm, h.cached_some hsole hs hj rfl, run, hJ.check]

/-- What a piece of a delivery without a value in hand does, when nothing is cached. -/
theorem Piece.unanswered {now : Time} (h : Piece J m worker none now phase i eff)
    (hr : phase.result? = none) : eff.store = none ∧
      (∀ wr, eff.write = some wr → wr.fields.result = .null) ∧
      ∀ phase' u, eff.next = some phase' → phase'.result? = some u →
        phase = .executing ∧ phase' = .returned u ∧ eff.write = none := by
  refine ⟨?_, ?_, ?_⟩
  · cases hv : eff.store with
    | none => rfl
    | some u =>
        rw [h.stores_counted hv] at hr
        cases hr
  · intro wr hwr
    rcases h.write_result hwr with ⟨-, hnull⟩ | hv
    · exact hnull
    · rw [hr] at hv
      cases hv
  · intro phase' u hn hu
    rcases h.result hn hu with ⟨rfl, rfl⟩ | hv | hseen
    · cases h with
      | hit _ hsome => exact absurd rfl hsome
      | undecodable hsome => cases hsome
      | lookupFails exc =>
          rcases autoretry_cases m exc with ⟨-, ha⟩ | ⟨-, ha⟩ <;> rw [ha] at hn <;> cases hn
      | miss _ => cases hn
    · rw [hr] at hv
      cases hv
    · cases h with
      | returns x =>
          obtain rfl := Option.some.inj hn
          exact ⟨rfl, congrArg Phase.returned (Option.some.inj hu), rfl⟩
      | failure exc again stage => cases stage <;> cases hseen
      | failureFails exc exc' again stage => cases stage <;> cases hseen
      | _ => cases hseen

/-- The first return of `execute()` settles the job; until then nothing is answered. -/
theorem Unanswered.work (h : Unanswered j k w) (hg : Ground w) (ht : Tracked j w)
    (hsole : Sole j w) (hm : m.idempotencyKey = k) (hj : m.jobId = j)
    (hs : w.slots s = .delivered m worker phase)
    (hp : Piece J m worker (w.cache (cacheKey m.idempotencyKey)) w.clock phase i eff)
    (hdb : w.write m.jobId eff.write = some db) :
    (w.apply J s m worker eff db).yields k = w.yields k ∧
        Unanswered j k (w.apply J s m worker eff db) ∨
      ∃ v, (w.apply J s m worker eff db).yields k = v :: w.yields k ∧
        Settled J j k v (w.apply J s m worker eff db) := by
  have he : SysStep J w (.work s i) (w.apply J s m worker eff db) := .work hs hp hdb
  have hp₀ := hp
  rw [hm, h.cached] at hp₀
  obtain ⟨hstore, hnull, hvalue⟩ := hp₀.unanswered (h.held s m worker phase hs hj)
  have hcache : (w.apply J s m worker eff db).cache (cacheKey k) = none := by
    rw [cache_apply_none hstore]
    exact h.cached
  have hresult : ∀ r, db.find j = some r → r.result = none := by
    intro r hr
    rcases find_write hdb j with ⟨hf, -⟩ | ⟨wr, hwr, -, -, -, hf⟩
    · exact h.result r (hf ▸ hr)
    · rw [hf] at hr
      obtain ⟨r₀, hr₀, rfl⟩ := Option.map_eq_some_iff.mp hr
      rw [values_result, hnull wr hwr]
      exact h.result r₀ hr₀
  rcases hp.shows_yield k with hnil | ⟨-, rfl, u, hn, hone⟩
  · refine .inl ⟨by rw [yields_apply, hnil]; rfl, hcache, ?_, hresult⟩
    intro s' m' worker' phase' hs' hj'
    have hn := sole_work hsole hg.bounded he hs hj hs' hj'
    cases hu : phase'.result? with
    | none => rfl
    | some u =>
        obtain ⟨rfl, rfl, -⟩ := hvalue phase' u hn hu
        cases hp with
        | returns x => simp [Obs.yield?, hm] at hnil
        | invalid exc => cases hn
        | exhausted exc _ => cases hn
        | again exc _ => cases hn
        | ownRetry delay _ => cases hn
  · obtain ⟨-, -, hwrite⟩ := hvalue _ u hn rfl
    have hslot := @slots_apply_some J w s m worker _ _ db hn
    refine .inr ⟨u, by rw [yields_apply, hone]; rfl, ?_, .inr ⟨hcache, s, ?_⟩, ?_⟩
    · intro s' m' worker' phase' hs' hj'
      have hn' := sole_work hsole hg.bounded he hs hj hs' hj'
      rw [hn, Option.some.injEq] at hn'
      exact hn' ▸ rfl
    · exact Slot.inPhase_iff.mpr ⟨m, worker, _, hslot, hj, rfl⟩
    · have hsame : db = w.db := by
        rw [hwrite] at hdb
        exact (Option.some.inj hdb).symm
      obtain ⟨r, hr⟩ := Option.isSome_iff_exists.mp
        (ht.started s m worker _ hs hj (by exact nofun))
      refine ⟨r, hsame ▸ hr, .inl (h.result r hr), .inl ⟨s, ?_⟩⟩
      exact Slot.inPhase_iff.mpr ⟨m, worker, _, hslot, hj, rfl⟩

/-- The row after a status update that succeeds. -/
theorem find_written {wr : Write} {r : Job} (hdb : w.write j (some wr) = some db)
    (hok : wr.ok = true) (hr : w.db.find j = some r) :
    db.find j = some (values w.clock wr.status wr.fields r) := by
  rcases find_write hdb j with ⟨-, hno⟩ | ⟨wr', hwr, -, -, -, hf⟩
  · rw [hno wr rfl rfl] at hok
    cases hok
  · obtain rfl := Option.some.inj hwr
    rw [hf, hr]
    rfl

theorem inPhase_apply {p : Phase → Bool} (hn : eff.next.any p) (hj : m.jobId = j) :
    ((w.apply J s m worker eff db).slots s).inPhase p Message.jobId j := by
  cases hnext : eff.next with
  | none => rw [hnext] at hn; cases hn
  | some phase' =>
      rw [hnext] at hn
      exact Slot.inPhase_iff.mpr ⟨m, worker, phase', slots_apply_some hnext, hj, hn⟩

/-- What is left to show of a piece of the sole delivery: where it goes, what is cached then,
and what the row holds. -/
theorem settled_apply (hg : Ground w) (hsole : Sole j w) (hj : m.jobId = j)
    (hs : w.slots s = .delivered m worker phase)
    (hp : Piece J m worker (w.cache (cacheKey m.idempotencyKey)) w.clock phase i eff)
    (hdb : w.write m.jobId eff.write = some db)
    (hheld : ∀ phase', eff.next = some phase' → phase'.replays v)
    (hcached : (w.apply J s m worker eff db).cache (cacheKey k) = some (J.dumps v) ∨
      (w.apply J s m worker eff db).cache (cacheKey k) = none ∧ eff.next.any Phase.succeeded)
    {r : Job} (hr : db.find j = some r) (hres : r.result = none ∨ r.result = v.column)
    (hrow : eff.next.any Phase.rewrites ∨ r.status = .completed ∧ r.result = v.column) :
    Settled J j k v (w.apply J s m worker eff db) := by
  have he : SysStep J w (.work s i) (w.apply J s m worker eff db) := .work hs hp hdb
  constructor
  · intro s' m' worker' phase' hs' hj'
    exact hheld phase' (sole_work hsole hg.bounded he hs hj hs' hj')
  · rcases hcached with hsome | ⟨hnone, hany⟩
    · exact .inl hsome
    · exact .inr ⟨hnone, s, inPhase_apply hany hj⟩
  · refine ⟨r, hr, hres, ?_⟩
    rcases hrow with hany | hdone
    · exact .inl ⟨s, inPhase_apply hany hj⟩
    · exact .inr hdone

/-- Every piece of a later delivery leaves the job settled. -/
theorem Settled.work (h : Settled J j k v w) (hJ : J.Lawful) (hg : Ground w) (hsole : Sole j w)
    (hm : m.idempotencyKey = k) (hj : m.jobId = j)
    (hstep : (system J).step w (.work s i) = some w') (hi : i.ok)
    (hs : w.slots s = .delivered m worker phase)
    (hp : Piece J m worker (w.cache (cacheKey m.idempotencyKey)) w.clock phase i eff)
    (hdb : w.write m.jobId eff.write = some db) (hw' : w' = w.apply J s m worker eff db) :
    w'.yields k = w.yields k ∧ Settled J j k v w' := by
  have hphase := h.held s m worker phase hs hj
  have hyields : ∀ {eff : Effects} {db : Db}, eff.seen.filterMap (Obs.yield? k) = [] →
      (w.apply J s m worker eff db).yields k = w.yields k := by
    intro eff db hnil
    rw [yields_apply, hnil]
    rfl
  cases phase with
  | received =>
      subst hw'
      cases hp with
      | startFails exc => cases hi
      | start =>
          obtain ⟨r, hr, hres, -⟩ := h.row
          subst hj
          refine ⟨hyields rfl, settled_apply hg hsole rfl hs .start hdb ?_ ?_
            (find_written hdb rfl hr) ?_ (.inl rfl)⟩
          · intro phase' hn
            exact Option.some.inj hn ▸ trivial
          · exact .inl (h.cached_some hsole hs rfl rfl)
          · rw [values_result]
            exact hres
  | started =>
      have hcached := h.cached_some hsole hs hj rfl
      have hsome : w.cache (cacheKey m.idempotencyKey) ≠ none := by
        rw [hm, hcached]
        exact Option.some_ne_none _
      obtain ⟨r, hr, hres, -⟩ := h.row
      rw [h.lookup hJ hsole hm hj hstep hs hi]
      refine ⟨hyields rfl, settled_apply hg hsole hj hs (.hit v hsome) rfl ?_ (.inl hcached) hr
        hres (.inl rfl)⟩
      intro phase' hn
      exact Option.some.inj hn ▸ rfl
  | returned u =>
      obtain rfl : u = v := hphase
      subst hw'
      cases hp with
      | successFails _ exc => cases hi
      | success _ =>
          obtain ⟨r, hr, hres, -⟩ := h.row
          subst hj
          have hcolumn : u.column.or r.result = u.column := by
            rcases hres with hnull | hsame
            · rw [hnull, Option.or_none]
            · rw [hsame, Option.or_self]
          refine ⟨hyields rfl, settled_apply hg hsole rfl hs (.success u) hdb ?_ ?_
            (find_written hdb rfl hr) ?_ (.inr ⟨rfl, ?_⟩)⟩
          · intro phase' hn
            exact Option.some.inj hn ▸ rfl
          · rcases h.cached with hsome | ⟨hnone, -⟩
            · exact .inl hsome
            · exact .inr ⟨hnone, rfl⟩
          · rw [values_result]
            exact .inr hcolumn
          · rw [values_result]
            exact hcolumn
  | completed u =>
      obtain rfl : u = v := hphase
      subst hw'
      cases hp with
      | count _ =>
          obtain ⟨r, hr, hdone⟩ := h.completed hsole hs hj rfl
          obtain rfl : db = w.db := (Option.some.inj hdb).symm
          refine ⟨hyields rfl, settled_apply hg hsole hj hs (.count u) rfl ?_ ?_ hr
            (.inr hdone.2) (.inr hdone)⟩
          · intro phase' hn
            exact Option.some.inj hn ▸ rfl
          · rcases h.cached with hsome | ⟨hnone, -⟩
            · exact .inl hsome
            · exact .inr ⟨hnone, rfl⟩
  | counted u =>
      obtain rfl : u = v := hphase
      subst hw'
      cases hp with
      | storeFails _ exc => cases hi
      | store _ =>
          obtain ⟨r, hr, hdone⟩ := h.completed hsole hs hj rfl
          obtain rfl : db = w.db := (Option.some.inj hdb).symm
          refine ⟨hyields rfl, settled_apply hg hsole hj hs (.store u) rfl ?_ (.inl ?_) hr
            (.inr hdone.2) (.inr hdone)⟩
          · intro phase' hn
            exact Option.some.inj hn ▸ trivial
          · rw [cache_apply_some rfl, hm, Function.update_self]
  | handled =>
      subst hw'
      cases hp with
      | ack =>
          obtain ⟨r, hr, hdone⟩ := h.completed hsole hs hj rfl
          obtain rfl : db = w.db := (Option.some.inj hdb).symm
          refine ⟨hyields rfl, settled_apply hg hsole hj hs .ack rfl (fun _ hn => nomatch hn)
            (.inl (h.cached_some hsole hs hj rfl)) hr (.inr hdone.2) (.inr hdone)⟩
  | _ => exact hphase.elim

end Work

/-! ## Whole runs -/

/-- `execute()` has returned for the key once at most, and the job is as that says. -/
structure Replays (J : JsonCodec) (j : Uuid) (k : String) (w : World) : Prop where
  sole : Sole j w
  state : w.yields k = [] ∧ Unanswered j k w ∨ ∃ v, w.yields k = [v] ∧ Settled J j k v w

theorem replays_init (J : JsonCodec) (j : Uuid) (k : String) (allowed : List String) :
    Replays J j k (.init allowed) where
  sole := sole_init j allowed
  state := .inl ⟨rfl, unanswered_init j k allowed⟩

/-- Deliveries of job `j`, one after the other, with the key `k` to themselves, a working
database and cache, no expiry of the key, no crash, and nobody cancelling the job. -/
def replaying (j : Uuid) (k : String) (w : World) (e : Event) : Bool :=
  sequential j w e && undisturbed k e && carriedBy j k w && startsCommitted j w e &&
    uncancelled j e && storesWork w e

/-- A lookup of the key before the first return of `execute()` finds nothing, every lookup
after it finds the value, and `execute()` is not called after it. -/
def Transparent (J : JsonCodec) (k : String) (w : World) (e : Event) : Prop :=
  ∀ s i m worker phase w', e = .work s i → w.slots s = .delivered m worker phase →
    m.idempotencyKey = k → (system J).step w e = some w' →
    (phase = .started → w.yields k = [] ∧ w'.slots s = .delivered m worker .missed ∨
      ∃ v, w.yields k = [v] ∧ w'.slots s = .delivered m worker (.returned v)) ∧
    (phase = .missed → w.yields k = [])

section Run
variable {J : JsonCodec} {allowed : List String} {es : List Event} {w w' : World} {e : Event}
  {j : Uuid} {k : String}

theorem Phase.not_publishes_of_replays {v : Json} {phase : Phase} (h : phase.replays v) :
    phase.publishes = false := by
  cases phase with
  | failing exc again stage => exact h.elim
  | retrying delay again => exact h.elim
  | _ => rfl

theorem Replays.step (h : Replays J j k w) (hJ : J.Lawful) (hg : Ground w) (hh : Held j w)
    (ht : Tracked j w) (hbl : Blanks w) (hP : replaying j k w e)
    (hs : (system J).step w e = some w') : Replays J j k w' := by
  simp only [replaying, Bool.and_eq_true] at hP
  obtain ⟨⟨⟨⟨⟨hseq, hun⟩, hk⟩, -⟩, -⟩, hst⟩ := hP
  have he := step_cases hs
  refine ⟨h.sole.step hg.bounded hseq he, ?_⟩
  by_cases hown : ∃ s i m worker phase, e = .work s i ∧
      w.slots s = .delivered m worker phase ∧ m.jobId = j
  · obtain ⟨s, i, m, worker, phase, rfl, hslot, hj⟩ := hown
    have hm : m.idempotencyKey = k := (key_iff hh.copies hk (by rw [hslot]; rfl)).mpr hj
    rcases he.worked with ⟨hev, hslot', hp, hdb, hw'⟩ | hne
    · obtain ⟨rfl, rfl⟩ := Event.work.inj hev
      rw [hslot, Slot.delivered.injEq] at hslot'
      obtain ⟨rfl, rfl, rfl⟩ := hslot'
      rcases h.state with ⟨hnil, hstate⟩ | ⟨v, hone, hstate⟩
      · rw [hw']
        rcases hstate.work hg ht h.sole hm hj hslot hp hdb with ⟨hy, hs'⟩ | ⟨v, hy, hs'⟩
        · exact .inl ⟨hy.trans hnil, hs'⟩
        · exact .inr ⟨v, by rw [hy, hnil], hs'⟩
      · have hok := storesWork_ok hst hslot
          (Phase.not_publishes_of_replays (hstate.held s m worker phase hslot hj))
        obtain ⟨hy, hs'⟩ := hstate.work hJ hg h.sole hm hj hs hok hslot hp hdb hw'
        exact .inr ⟨v, hy.trans hone, hs'⟩
    · exact absurd rfl (hne s i)
  · have ha : Aside j k w w' := by
      refine aside_of_ne hg hh hbl hk hun he ?_
      intro s i m worker phase hev hslot hj
      exact hown ⟨s, i, m, worker, phase, hev, hslot, hj⟩
    rcases h.state with ⟨hnil, hstate⟩ | ⟨v, hone, hstate⟩
    · exact .inl ⟨ha.yields.trans hnil, hstate.aside ha⟩
    · exact .inr ⟨v, ha.yields.trans hone, hstate.aside ha⟩

theorem Replays.transparent (h : Replays J j k w) (hJ : J.Lawful) (hh : Held j w)
    (hP : replaying j k w e) : Transparent J k w e := by
  simp only [replaying, Bool.and_eq_true] at hP
  obtain ⟨⟨⟨⟨⟨-, -⟩, hk⟩, -⟩, -⟩, hst⟩ := hP
  rintro s i m worker phase w' rfl hslot hm hs
  have hj : m.jobId = j := (key_iff hh.copies hk (by rw [hslot]; rfl)).mp hm
  constructor
  · rintro rfl
    have hok := storesWork_ok hst hslot rfl
    rcases h.state with ⟨hnil, hstate⟩ | ⟨v, hone, hstate⟩
    · rw [hstate.lookup hm hs hslot hok]
      exact .inl ⟨hnil, slots_apply_some rfl⟩
    · rw [hstate.lookup hJ h.sole hm hj hs hslot hok]
      exact .inr ⟨v, hone, slots_apply_some rfl⟩
  · rintro rfl
    rcases h.state with ⟨hnil, -⟩ | ⟨v, -, hstate⟩
    · exact hnil
    · exact (hstate.held s m worker _ hslot hj).elim

/-- Replays are transparent.  When the deliveries of a job come one after the other and have
the key to themselves, `execute()` returns once at most; before that no lookup finds
anything; after it every lookup finds its value `v` and `execute()` is not called again; and
whenever no delivery of the job is between `before_start` and its last status update, the row
is COMPLETED and its result column holds `v`. -/
theorem replay_transparent (hJ : J.Lawful)
    (h : (system J).Run (fun w e => replaying j k w e) (.init allowed) es w) :
    (system J).Along (Transparent J k) (.init allowed) es ∧
    (w.yields k).length ≤ 1 ∧
    ∀ v, w.yields k = [v] → (∀ s, ¬ (w.slots s).inPhase Phase.writes Message.jobId j) →
      ∃ r, w.db.find j = some r ∧ r.status = .completed ∧ r.result = v.column := by
  have hstep : ∀ {w w' : World} {e : Event},
      (Ground w ∧ (Held j w ∧ Tracked j w ∧ Blanks w) ∧ Replays J j k w) →
      replaying j k w e → (system J).step w e = some w' →
      Ground w' ∧ (Held j w' ∧ Tracked j w' ∧ Blanks w') ∧ Replays J j k w' := by
    rintro w w' e ⟨hg, ⟨hh, ht, hbl⟩, hr⟩ hP hs
    have he := step_cases hs
    have hP' := hP
    simp only [replaying, Bool.and_eq_true] at hP'
    obtain ⟨⟨⟨-, hsc⟩, hcan⟩, -⟩ := hP'
    exact ⟨hg.step he, ⟨hh.step hg hcan hs, ht.step hg hh.spared hsc he, hbl.step he⟩,
      hr.step hJ hg hh ht hbl hP hs⟩
  have hinit : Ground (.init allowed) ∧ (Held j (.init allowed) ∧ Tracked j (.init allowed) ∧
      Blanks (.init allowed)) ∧ Replays J j k (.init allowed) :=
    ⟨ground_init allowed, ⟨held_init j allowed, tracked_init j allowed, blanks_init allowed⟩,
      replays_init J j k allowed⟩
  refine ⟨?_, ?_, ?_⟩
  · refine h.along hstep ?_ hinit
    rintro w e ⟨-, ⟨hh, -, -⟩, hr⟩ hP
    exact hr.transparent hJ hh hP
  · obtain ⟨-, -, hr⟩ := h.invariant hstep hinit
    rcases hr.state with ⟨hnil, -⟩ | ⟨v, hone, -⟩
    · rw [hnil]
      exact Nat.zero_le 1
    · rw [hone]
      exact Nat.le_refl 1
  · intro v hv hidle
    obtain ⟨-, -, hr⟩ := h.invariant hstep hinit
    rcases hr.state with ⟨hnil, -⟩ | ⟨u, hone, hstate⟩
    · rw [hnil] at hv
      cases hv
    · rw [hone, List.singleton_inj] at hv
      subst hv
      obtain ⟨r, hr, -, ⟨s, hs⟩ | hdone⟩ := hstate.row
      · obtain ⟨m, worker, phase, hslot, hj, hp⟩ := Slot.inPhase_iff.mp hs
        refine absurd (Slot.inPhase_iff.mpr ⟨m, worker, phase, hslot, hj, ?_⟩) (hidle s)
        cases phase with
        | started => rfl
        | returned x => rfl
        | _ => cases hp
      · exact ⟨r, hr, hdone⟩

end Run

/-! ## A concrete run -/

/-- The first attempt raises, the retry returns the string `"null"`, and its message is
delivered once more before the acknowledgement. -/
def transparentEvents : List Event :=
  createEvents 0 "k" ++ startEvents 0 "v" ++
    [.work 0 (.ends (.exception ⟨"down", "Traceback"⟩)), .work 0 .returns, .work 0 .returns,
      .work 0 .returns, .tick 10] ++ startEvents 1 "v" ++
    [.work 1 (.ends (.returns (.str "null"))), .work 1 .returns, .work 1 .returns, .work 1 .returns,
      .redeliver 1, .work 1 .returns, .take 2 "v"] ++ List.replicate 6 (.work 2 .returns)

theorem replay_transparent_ping : ∃ w r,
    (system jsonText).exec pingWorld transparentEvents = some w ∧
    w.db.find 0 = some r ∧ r.status = .completed ∧ r.result = some (.str "null") := by
  obtain ⟨w, hw, hrun, hobs⟩ := Machine.exists_run_obs (system jsonText)
    (fun w e => replaying 0 "k" w e) pingWorld transparentEvents
    (fun w => decide (∃ s < w.nextSlot, (w.slots s).jobId? = some 0)) false (by decide)
    (by decide)
  have hyields : ((system jsonText).exec pingWorld transparentEvents).map
      (fun w => w.yields "k") = some [.str "null"] := by rfl
  rw [hw, Option.map_some, Option.some.injEq] at hyields
  have hb := (run_invariant hrun (ground_init _) trivial fun _ _ _ _ => trivial).1.bounded
  have hun : Unheld 0 w :=
    unheld_of_done fun ho => of_decide_eq_false hobs ((outstanding_iff hb).mp ho)
  obtain ⟨r, hr, hst, hres⟩ := (replay_transparent jsonText_lawful hrun).2.2 _ hyields
    fun s hs => hun s (heldFor_of_inPhase hs)
  exact ⟨w, r, hw, hr, hst, hres⟩

end Aegis
