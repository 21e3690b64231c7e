/-
# `AegisWorkers.Idempotency` — one success for each key, if the lookups do not overlap

`run` reads the cache before `execute()`, and `on_success` writes it afterwards; nothing
is held in between.  With no crash, no expiry of the key (`undisturbed`) and no SETEX of it
that fails (`remembered`), `execute()` returns once for the key as long as no lookup of the
key misses while another delivery of it is between its own lookup and its SETEX (`unshared`).

    missed  executing  returned  completed  counted
    ——————— unstored ———————————————————————————————
    — computes ——————  — succeeded —————————————————

`Guarded` is the invariant.  While the cache has nothing, at most one delivery of the key
is unstored; once it has something, nobody computes; and a success is in the cache, or on
its way there.
-/
import AegisWorkers.Deliveries

namespace Aegis

open BaseTask JobService ReadCommitted

/-! ## The condition -/

/-- `_check_idempotency` has returned, and `on_success` has not stored a result. -/
def Phase.unstored : Phase → Bool
  | .missed => true
  | .executing => true
  | .returned _ => true
  | .completed _ => true
  | .counted _ => true
  | _ => false

/-- `execute()` has not returned, but may. -/
def Phase.computes : Phase → Bool
  | .missed => true
  | .executing => true
  | _ => false

/-- `run` has returned a result that `on_success` has not stored. -/
def Phase.succeeded : Phase → Bool
  | .returned _ => true
  | .completed _ => true
  | .counted _ => true
  | _ => false

/-- No worker is killed, and the key does not expire. -/
def undisturbed (k : String) : Event → Bool
  | .crash _ => false
  | .expire key => decide (key ≠ k)
  | _ => true

/-- No SETEX of the key fails. -/
def remembered (k : String) (w : World) : Event → Bool
  | .work s i =>
      match w.slots s with
      | .delivered m _ phase => !(decide (m.idempotencyKey = k) && phase.forgets i)
      | _ => true
  | _ => true

/-- No lookup of the key misses while another delivery of the key is unstored. -/
def unshared (k : String) (w : World) : Event → Bool
  | .work s .returns =>
      match w.slots s with
      | .delivered m _ .started =>
          decide (m.idempotencyKey = k → w.cache (cacheKey k) = none →
            ∀ s' < w.nextSlot, ¬ (w.slots s').inPhase Phase.unstored Message.idempotencyKey k)
      | _ => true
  | _ => true

/-- `execute()` has returned for a message of the key. -/
def Obs.returns (k : String) : Obs → Bool
  | .executeReturned m _ => m.idempotencyKey = k
  | _ => false

/-- The number of times `execute()` has returned for the key. -/
def World.returns (w : World) (k : String) : Nat := w.trace.countP (Obs.returns k)

/-! ## The invariant -/

structure Guarded (k : String) (w : World) : Prop where
  sole : w.cache (cacheKey k) = none → ∀ s s',
    (w.slots s).inPhase Phase.unstored Message.idempotencyKey k →
    (w.slots s').inPhase Phase.unstored Message.idempotencyKey k → s' = s
  stored : w.cache (cacheKey k) ≠ none →
    ∀ s, ¬ (w.slots s).inPhase Phase.computes Message.idempotencyKey k
  count : w.returns k = 0 ∨ w.returns k = 1 ∧ (w.cache (cacheKey k) ≠ none ∨
    ∃ s, (w.slots s).inPhase Phase.succeeded Message.idempotencyKey k)

theorem guarded_init (k : String) (allowed : List String) : Guarded k (.init allowed) where
  sole _ _ _ h := absurd h Bool.false_ne_true
  stored h := absurd rfl h
  count := .inl rfl

section Phase
variable {J : JsonCodec} {m : Message} {worker : Worker} {cached : Option String} {now : Time}
  {phase phase' : Phase} {i : Input} {eff : Effects}

theorem Phase.unstored_of_computes (h : phase.computes) : phase.unstored := by
  cases phase with
  | missed => rfl
  | executing => rfl
  | _ => cases h

theorem Phase.unstored_of_succeeded (h : phase.succeeded) : phase.unstored := by
  cases phase with
  | returned v => rfl
  | completed v => rfl
  | counted v => rfl
  | _ => cases h

theorem Slot.inPhase_mono {p q : Phase → Bool} (hpq : ∀ {phase : Phase}, p phase → q phase)
    {k : String} {x : Slot} (h : x.inPhase p Message.idempotencyKey k) :
    x.inPhase q Message.idempotencyKey k := by
  obtain ⟨m, worker, phase, hx, hk, hp⟩ := Slot.inPhase_iff.mp h
  exact Slot.inPhase_iff.mpr ⟨m, worker, phase, hx, hk, hpq hp⟩

/-- A delivery comes to be unstored by its lookup. -/
theorem Piece.unstored (h : Piece J m worker cached now phase i eff)
    (hn : eff.next = some phase') (hu : phase'.unstored) :
    phase.unstored ∨ phase = .started ∧ i = .returns := by
  cases h with
  | start => exact (next_not hn hu rfl rfl).elim
  | startFails exc => exact (next_not hn hu rfl rfl).elim
  | miss _ => exact .inr ⟨rfl, rfl⟩
  | hit v _ => exact .inr ⟨rfl, rfl⟩
  | undecodable _ => exact .inr ⟨rfl, rfl⟩
  | lookupFails exc => exact (next_not hn hu (by split <;> rfl) rfl).elim
  | storeFails v exc => exact (next_not hn hu rfl rfl).elim
  | failure exc again stage =>
      cases stage with
      | count => exact (next_not hn hu (by split <;> rfl) rfl).elim
      | _ => exact (next_not hn hu rfl rfl).elim
  | failureFails exc exc' again stage _ =>
      cases stage with
      | count => exact (next_not hn hu (by split <;> rfl) rfl).elim
      | _ => exact (next_not hn hu rfl rfl).elim
  | retry delay again => exact (next_not hn hu rfl rfl).elim
  | retryFails delay exc => exact (next_not hn hu (by split <;> rfl) rfl).elim
  | rejected delay exc => exact (next_not hn hu rfl rfl).elim
  | onRetry => exact (next_not hn hu rfl rfl).elim
  | ack => cases hn
  | _ => exact .inl rfl

/-- A delivery comes to compute by a lookup that misses. -/
theorem Piece.computes (h : Piece J m worker cached now phase i eff)
    (hn : eff.next = some phase') (hc : phase'.computes) : phase.computes ∨ cached = none := by
  cases h with
  | miss hnone => exact .inr hnone
  | execute => exact .inl rfl
  | undecodable _ => exact (next_not hn hc (by split <;> rfl) rfl).elim
  | lookupFails exc => exact (next_not hn hc (by split <;> rfl) rfl).elim
  | retryFails delay exc => exact (next_not hn hc (by split <;> rfl) rfl).elim
  | failure exc again stage =>
      cases stage with
      | count => exact (next_not hn hc (by split <;> rfl) rfl).elim
      | _ => exact (next_not hn hc rfl rfl).elim
  | failureFails exc exc' again stage _ =>
      cases stage with
      | count => exact (next_not hn hc (by split <;> rfl) rfl).elim
      | _ => exact (next_not hn hc rfl rfl).elim
  | ack => cases hn
  | _ => exact (next_not hn hc rfl rfl).elim

/-- A delivery stops being succeeded by its SETEX. -/
theorem Piece.succeeded (h : Piece J m worker cached now phase i eff) (hs : phase.succeeded)
    (hf : phase.forgets i = false) :
    (∃ phase', eff.next = some phase' ∧ phase'.succeeded) ∨ ∃ v, eff.store = some v := by
  cases h with
  | success v => exact .inl ⟨_, rfl, rfl⟩
  | successFails v exc => exact .inl ⟨_, rfl, rfl⟩
  | count v => exact .inl ⟨_, rfl, rfl⟩
  | store v => exact .inr ⟨v, rfl⟩
  | storeFails v exc => exact absurd hf.symm Bool.false_ne_true
  | _ => cases hs

/-- Only the SETEX of `on_success` stores. -/
theorem Piece.stores (h : Piece J m worker cached now phase i eff) {v : Json}
    (hv : eff.store = some v) : phase.unstored ∧ eff.next = some .handled := by
  cases h with
  | store v => exact ⟨rfl, rfl⟩
  | failure exc again stage => cases stage <;> cases hv
  | failureFails exc exc' again stage => cases stage <;> cases hv
  | _ => cases hv

/-- A piece that shows a return of `execute()` is that return. -/
theorem Piece.shows_return (h : Piece J m worker cached now phase i eff) (k : String) :
    eff.seen.countP (Obs.returns k) = 0 ∨ eff.seen.countP (Obs.returns k) = 1 ∧
      m.idempotencyKey = k ∧ phase = .executing ∧ ∃ v, eff.next = some (.returned v) := by
  cases h with
  | returns v =>
      by_cases hk : m.idempotencyKey = k
      · exact .inr ⟨by simp [Obs.returns, hk], hk, rfl, v, rfl⟩
      · exact .inl (by simp [Obs.returns, hk])
  | failure exc again stage => cases stage <;> exact .inl rfl
  | failureFails exc exc' again stage => cases stage <;> exact .inl rfl
  | _ => exact .inl rfl

end Phase

/-! ## The cache -/

section Cache
variable {J : JsonCodec} {w w' : World} {e : Event} {k : String}

theorem ApiStep.cache {c : CallId} (h : ApiStep w c w') : w'.cache = w.cache := by
  cases h with
  | land _ => simp
  | _ => rfl

/-- What the event `e` does to the cached result of the key. -/
inductive CacheMove (J : JsonCodec) (w : World) (e : Event) (w' : World) (k : String) : Prop
  | stays : w'.cache (cacheKey k) = w.cache (cacheKey k) → CacheMove J w e w' k
  | stored {s : SlotId} {i : Input} {m : Message} {worker : Worker} {v : Json} :
      e = .work s i → (w.slots s).inPhase Phase.unstored Message.idempotencyKey k →
      w'.slots s = .delivered m worker .handled →
      w'.cache (cacheKey k) = some (J.dumps v) → CacheMove J w e w' k
  | expired : e = .expire k → CacheMove J w e w' k

theorem SysStep.cache (h : SysStep J w e w') (k : String) : CacheMove J w e w' k := by
  cases h with
  | api _ ha => exact .stays (congrFun ha.cache _)
  | @work s i m worker phase eff db hs hp hdb =>
      cases hv : eff.store with
      | none =>
          refine .stays ?_
          rw [cache_apply_none hv]
      | some v =>
          by_cases hk : m.idempotencyKey = k
          · obtain ⟨hu, hn⟩ := hp.stores hv
            refine .stored (v := v) rfl (Slot.inPhase_iff.mpr ⟨_, _, _, hs, hk, hu⟩)
              (slots_apply_some hn) ?_
            rw [cache_apply_some hv, hk, Function.update_self]
          · refine .stays ?_
            rw [cache_apply_some hv]
            refine Function.update_of_ne ?_ ..
            intro he
            exact hk (cacheKey_injective he).symm
  | env _ henv =>
      by_cases he : e = .expire k
      · exact .expired he
      · exact .stays (henv.cache k he)
  | _ => exact .stays rfl

/-- What is cached stays cached. -/
theorem SysStep.cache_ne_none (h : SysStep J w e w') (hP : undisturbed k e)
    (hc : w.cache (cacheKey k) ≠ none) : w'.cache (cacheKey k) ≠ none := by
  cases h.cache k with
  | stays hs => rw [hs]; exact hc
  | stored _ _ _ hs => rw [hs]; exact Option.some_ne_none _
  | expired he => subst he; exact absurd rfl (of_decide_eq_true hP)

end Cache

/-! ## Preservation -/

section Step
variable {J : JsonCodec} {w w' : World} {e : Event} {k : String}

/-- A delivery that is unstored after the step was so before, or has looked up just now. -/
theorem unstored_step (hg : Ground w) (hP : unshared k w e) (he : SysStep J w e w')
    (hnone : w.cache (cacheKey k) = none) {s : SlotId}
    (hu : (w'.slots s).inPhase Phase.unstored Message.idempotencyKey k) :
    (w.slots s).inPhase Phase.unstored Message.idempotencyKey k ∨ (∃ i, e = .work s i) ∧
      ∀ s', ¬ (w.slots s').inPhase Phase.unstored Message.idempotencyKey k := by
  obtain ⟨m, worker, phase', hs, hk, hphase⟩ := Slot.inPhase_iff.mp hu
  cases he.delivered hg.bounded hs with
  | stays _ hs₀ => exact .inl (Slot.inPhase_iff.mpr ⟨_, _, _, hs₀, hk, hphase⟩)
  | taken _ _ hr => rw [hr] at hphase; cases hphase
  | advanced hev hs₀ hp hn _ =>
      subst hev
      rcases hp.unstored hn hphase with hphase₀ | ⟨rfl, rfl⟩
      · exact .inl (Slot.inPhase_iff.mpr ⟨_, _, _, hs₀, hk, hphase₀⟩)
      · simp only [unshared, hs₀] at hP
        refine .inr ⟨⟨_, rfl⟩, ?_⟩
        intro s' hin
        exact of_decide_eq_true hP hk hnone s' (hg.bounded.lt_of_inPhase hin) hin

theorem Guarded.sole_step (h : Guarded k w) (hg : Ground w) (hP : undisturbed k e)
    (hP' : unshared k w e) (he : SysStep J w e w') (hnone' : w'.cache (cacheKey k) = none)
    {s s' : SlotId} (hu : (w'.slots s).inPhase Phase.unstored Message.idempotencyKey k)
    (hu' : (w'.slots s').inPhase Phase.unstored Message.idempotencyKey k) : s' = s := by
  have hnone : w.cache (cacheKey k) = none := by
    by_contra hc
    exact he.cache_ne_none hP hc hnone'
  rcases unstored_step hg hP' he hnone hu with hu₀ | ⟨⟨i, hi⟩, hfree⟩
  · rcases unstored_step hg hP' he hnone hu' with hu₀' | ⟨-, hfree⟩
    · exact h.sole hnone s s' hu₀ hu₀'
    · exact absurd hu₀ (hfree s)
  · rcases unstored_step hg hP' he hnone hu' with hu₀' | ⟨⟨i', hi'⟩, -⟩
    · exact absurd hu₀' (hfree s')
    · rw [hi] at hi'
      exact (Event.work.inj hi').1.symm

theorem Guarded.stored_step (h : Guarded k w) (hg : Ground w) (hP : undisturbed k e)
    (he : SysStep J w e w') (hc' : w'.cache (cacheKey k) ≠ none) (s : SlotId) :
    ¬ (w'.slots s).inPhase Phase.computes Message.idempotencyKey k := by
  intro hin
  obtain ⟨m, worker, phase', hs, hk, hphase⟩ := Slot.inPhase_iff.mp hin
  by_cases hc : w.cache (cacheKey k) = none
  · -- the result has been stored just now, by the only delivery that was unstored
    cases he.cache k with
    | stays hs' => exact hc' (hs'.trans hc)
    | expired hev => subst hev; exact of_decide_eq_true hP rfl
    | @stored s₀ i m₀ worker₀ v hev hin₀ hs₀' _ =>
        subst hev
        by_cases hss : s = s₀
        · subst hss
          rw [hs₀', Slot.delivered.injEq] at hs
          rw [← hs.2.2] at hphase
          cases hphase
        · cases he.delivered hg.bounded hs with
          | stays _ hs₁ =>
              have hin₁ : (w.slots s).inPhase Phase.unstored Message.idempotencyKey k :=
                Slot.inPhase_iff.mpr ⟨_, _, _, hs₁, hk, Phase.unstored_of_computes hphase⟩
              exact hss (h.sole hc s₀ s hin₀ hin₁)
          | taken hev _ _ => cases hev
          | advanced hev _ _ _ _ => exact hss (Event.work.inj hev).1.symm
  · cases he.delivered hg.bounded hs with
    | stays _ hs₀ => exact h.stored hc s (Slot.inPhase_iff.mpr ⟨_, _, _, hs₀, hk, hphase⟩)
    | taken _ _ hr => rw [hr] at hphase; cases hphase
    | advanced _ hs₀ hp hn _ =>
        rcases hp.computes hn hphase with hphase₀ | hnone
        · exact h.stored hc s (Slot.inPhase_iff.mpr ⟨_, _, _, hs₀, hk, hphase₀⟩)
        · exact hc (hk ▸ hnone)

/-- What a delivery with an unstored success does. -/
theorem succeeded_step (hg : Ground w) (hP : undisturbed k e) (hP' : remembered k w e)
    (he : SysStep J w e w') {s : SlotId}
    (hs : (w.slots s).inPhase Phase.succeeded Message.idempotencyKey k) :
    w'.cache (cacheKey k) ≠ none ∨
      (w'.slots s).inPhase Phase.succeeded Message.idempotencyKey k := by
  obtain ⟨m, worker, phase, hs₀, hk, hphase⟩ := Slot.inPhase_iff.mp hs
  by_cases hw : ∃ i, e = .work s i
  · obtain ⟨i, rfl⟩ := hw
    rcases he.worked with ⟨hev, hs₁, hp, -, rfl⟩ | hne
    · obtain ⟨rfl, rfl⟩ := Event.work.inj hev
      rw [hs₀, Slot.delivered.injEq] at hs₁
      obtain ⟨rfl, rfl, rfl⟩ := hs₁
      have hf : phase.forgets i = false := by simpa [remembered, hs₀, hk] using hP'
      rcases hp.succeeded hphase hf with ⟨phase', hn, hphase'⟩ | ⟨v, hv⟩
      · exact .inr (Slot.inPhase_iff.mpr
          ⟨m, worker, phase', slots_apply_some hn, hk, hphase'⟩)
      · refine .inl ?_
        rw [cache_apply_some hv, hk, Function.update_self]
        exact Option.some_ne_none _
    · exact absurd rfl (hne s i)
  · have hne : ∀ i, e ≠ .work s i := fun i hi => hw ⟨i, hi⟩
    refine .inr ?_
    cases he.slot hg.bounded s with
    | stays hs' => rw [hs']; exact hs
    | advanced hev _ _ _ _ => exact absurd hev (hne _)
    | acknowledged hev _ _ _ _ => exact absurd hev (hne _)
    | crashed hev _ _ => subst hev; cases hP
    | published hs₁ _ _ _ _ => rw [hs₀] at hs₁; cases hs₁
    | retried hs₁ _ _ _ _ _ => rw [hs₀] at hs₁; cases hs₁
    | redelivered hs₁ _ _ _ => rw [hs₀] at hs₁; cases hs₁
    | dropped _ hs₁ _ _ => rw [hs₀] at hs₁; cases hs₁
    | taken _ hs₁ _ _ => rw [hs₀] at hs₁; cases hs₁

/-- The number of returns stays, or a computing delivery has returned. -/
theorem returns_step (he : SysStep J w e w') : w'.returns k = w.returns k ∨
    w'.returns k = w.returns k + 1 ∧ ∃ s m worker v, w.slots s = .delivered m worker .executing ∧
      m.idempotencyKey = k ∧ w'.slots s = .delivered m worker (.returned v) := by
  rcases he.worked with @⟨s, i, m, worker, phase, eff, db, -, hs, hp, -, rfl⟩ | hne
  · have hcount : (w.apply J s m worker eff db).returns k =
        eff.seen.countP (Obs.returns k) + w.returns k := countP_apply fun _ _ _ => rfl
    rcases hp.shows_return k with hzero | ⟨hone, hk, rfl, v, hn⟩
    · left
      omega
    · exact .inr ⟨by omega, s, m, worker, v, hs, hk, slots_apply_some hn⟩
  · refine .inl (he.countP ?_ hne)
    intro o ho
    cases o with
    | executeReturned m v => exact ho.elim
    | _ => rfl

theorem Guarded.count_step (h : Guarded k w) (hg : Ground w) (hP : undisturbed k e)
    (hP' : remembered k w e) (he : SysStep J w e w') : w'.returns k = 0 ∨ w'.returns k = 1 ∧
      (w'.cache (cacheKey k) ≠ none ∨
        ∃ s, (w'.slots s).inPhase Phase.succeeded Message.idempotencyKey k) := by
  rcases returns_step (k := k) he with hsame | ⟨hsucc, s, m, worker, v, hs, hk, hs'⟩
  · rw [hsame]
    rcases h.count with h0 | ⟨h1, hc | ⟨s, hs⟩⟩
    · exact .inl h0
    · exact .inr ⟨h1, .inl (he.cache_ne_none hP hc)⟩
    · rcases succeeded_step hg hP hP' he hs with hc' | hs'
      · exact .inr ⟨h1, .inl hc'⟩
      · exact .inr ⟨h1, .inr ⟨s, hs'⟩⟩
  · -- the delivery was computing, so nothing was cached and nobody else was unstored
    have hin : (w.slots s).inPhase Phase.computes Message.idempotencyKey k :=
      Slot.inPhase_iff.mpr ⟨_, _, _, hs, hk, rfl⟩
    have hnone : w.cache (cacheKey k) = none := by
      by_contra hc
      exact h.stored hc s hin
    have hzero : w.returns k = 0 := by
      rcases h.count with h0 | ⟨-, hc | ⟨s₁, hs₁⟩⟩
      · exact h0
      · exact absurd hnone hc
      · have hss := h.sole hnone s s₁ (Slot.inPhase_mono Phase.unstored_of_computes hin)
          (Slot.inPhase_mono Phase.unstored_of_succeeded hs₁)
        subst hss
        rw [hs] at hs₁
        simp [Slot.inPhase, Phase.succeeded] at hs₁
    refine .inr ⟨by omega, .inr ⟨s, ?_⟩⟩
    exact Slot.inPhase_iff.mpr ⟨_, _, _, hs', hk, rfl⟩

theorem Guarded.step (h : Guarded k w) (hg : Ground w) (hP : undisturbed k e)
    (hr : remembered k w e) (hP' : unshared k w e) (he : SysStep J w e w') : Guarded k w' where
  sole hnone _ _ hu hu' := h.sole_step hg hP hP' he hnone hu hu'
  stored hc s := h.stored_step hg hP he hc s
  count := h.count_step hg hP hr he

end Step

/-! ## Whole runs -/

/-- Duplicate deliveries have one effect: in every run without a crash, an expiry of the key
or a failing SETEX of it in which no lookup of the key misses while another delivery of it is
unstored, `execute()` returns at most once for the key. -/
theorem executed_once {J : JsonCodec} {allowed : List String} {es : List Event} {w : World}
    {k : String}
    (h : (system J).Run (fun w e => undisturbed k e ∧ remembered k w e ∧ unshared k w e)
      (.init allowed) es w) : w.returns k ≤ 1 := by
  have hall := run_invariant (I := Guarded k) h (ground_init allowed) (guarded_init k allowed)
    fun hg hi hP hs => hi.step hg hP.1 hP.2.1 hP.2.2 (step_cases hs)
  rcases hall.2.count with h0 | ⟨h1, -⟩
  · omega
  · omega

/-- The message is delivered again while `execute()` runs; the second worker looks up after
the SETEX, and answers from the cache. -/
theorem executed_once_ping : ∃ w, (system nullCodec).exec pingWorld
      (createEvents 0 "k" ++ startEvents 0 "v" ++ [.redeliver 0, .take 1 "u"] ++
        finishEvents 0 ++ List.replicate 6 (.work 1 .returns)) = some w ∧
    w.returns "k" ≤ 1 := by
  obtain ⟨w, hw, hrun⟩ := Machine.exists_run (system nullCodec)
    (fun w e => undisturbed "k" e ∧ remembered "k" w e ∧ unshared "k" w e) pingWorld
    (createEvents 0 "k" ++ startEvents 0 "v" ++ [.redeliver 0, .take 1 "u"] ++
      finishEvents 0 ++ List.replicate 6 (.work 1 .returns)) (by decide) (by decide)
  exact ⟨w, hw, executed_once hrun⟩

/-- The second delivery looks up while the first one is in `execute()`: both look up in
vain, and both return. -/
theorem executed_twice : ∃ w,
    (system nullCodec).Run (fun w e => undisturbed "k" e ∧ remembered "k" w e) pingWorld
      (createEvents 0 "k" ++ startEvents 0 "v" ++ [.redeliver 0] ++ startEvents 1 "u" ++
        finishEvents 0 ++ finishEvents 1) w ∧ w.returns "k" = 2 := by
  obtain ⟨w, -, hrun, htwo⟩ := Machine.exists_run_obs (system nullCodec)
    (fun w e => undisturbed "k" e ∧ remembered "k" w e) pingWorld
    (createEvents 0 "k" ++ startEvents 0 "v" ++ [.redeliver 0] ++ startEvents 1 "u" ++
      finishEvents 0 ++ finishEvents 1) (fun w => w.returns "k") 2 (by decide) (by decide)
  exact ⟨w, hrun, htwo⟩

end Aegis
