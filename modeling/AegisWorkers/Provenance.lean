/-
# `AegisWorkers.Provenance` — where the result of a completed job comes from

The cache is keyed by the idempotency key alone and knows nothing of transactions, so
what a job completes with is a value `execute()` has returned for its *key*.  `Sourced`
says so of the cache, of the deliveries and of the rows; it is kept by every step,
whatever fails and whoever moves.

    w.Yielded k v     `execute()` has returned `v` for a message with the key `k`
    w.Orphaned m      no row has the job id of `m`, and the call that published it has raised

Whose message it was follows from the table: two committed rows never share a key, so the
message is the row's own, or its submission was rolled back after `send_task`.
-/
import AegisWorkers.Footprint
import AegisWorkers.Idempotency
import AegisWorkers.JsonText

namespace Aegis

open BaseTask JobService ReadCommitted

/-! ## Results -/

/-- The value a delivery has in hand. -/
def Phase.result? : Phase → Option Json
  | .returned v => some v
  | .completed v => some v
  | .counted v => some v
  | _ => none

/-- `execute()` has returned `v` for a message with the key `k`. -/
def World.Yielded (w : World) (k : String) (v : Json) : Prop :=
  ∃ m, m.idempotencyKey = k ∧ .executeReturned m v ∈ w.trace

/-- Cache, deliveries and rows hold only what `execute()` has returned for their key. -/
structure Sourced (J : JsonCodec) (w : World) : Prop where
  cached : ∀ k text, w.cache (cacheKey k) = some text → ∃ v, w.Yielded k v ∧ text = J.dumps v
  held : ∀ s m worker phase v, w.slots s = .delivered m worker phase → phase.result? = some v →
    w.Yielded m.idempotencyKey v
  result : ∀ r ∈ w.db.rows, ∀ v, r.result = some v → w.Yielded r.idempotencyKey v
  completed : ∀ r ∈ w.db.rows, r.status = .completed → ∃ v, w.Yielded r.idempotencyKey v

theorem sourced_init (J : JsonCodec) (allowed : List String) : Sourced J (.init allowed) where
  cached _ _ h := nomatch h
  held _ _ _ _ _ h := nomatch h
  result _ h := nomatch h
  completed _ h := nomatch h

section Step
variable {J : JsonCodec} {w w' : World} {e : Event}

theorem World.Yielded.step {k : String} {v : Json} (hy : w.Yielded k v) (h : SysStep J w e w') :
    w'.Yielded k v := by
  obtain ⟨m, hk, hm⟩ := hy
  exact ⟨m, hk, h.trace_suffix.subset hm⟩

/-- A lookup that finds what was stored returns it. -/
theorem JsonCodec.Lawful.check (hJ : J.Lawful) (v : Json) :
    checkIdempotency J (some (J.dumps v)) = .hit v := by
  by_cases hv : J.dumps v = "null"
  · simp only [checkIdempotency, hv, ne_eq, not_true_eq_false, if_false]
    rw [hJ.eq_null hv]
  · simp only [checkIdempotency, ne_eq, hv, not_false_eq_true, if_true, hJ.loads_dumps]

/-- What the lookup of a delivery makes of the cached text. -/
theorem lookup_of_step {s : SlotId} {i : Input} {m : Message} {worker : Worker} {v : Json}
    (hs : (system J).step w (.work s i) = some w') (hd : w.slots s = .delivered m worker .started)
    (hd' : w'.slots s = .delivered m worker (.returned v)) :
    checkIdempotency J (w.cache (cacheKey m.idempotencyKey)) = .hit v := by
  have hwork : (BaseTask.step J m worker (w.cache (cacheKey m.idempotencyKey)) w.clock .started
      i).bind (w.perform J s m worker) = some w' := by
    change w.work J s i = some w' at hs
    simpa only [World.work, hd] using hs
  obtain ⟨eff, heff, hp⟩ := Option.bind_eq_some_iff.mp hwork
  obtain ⟨db, -, rfl⟩ := Option.map_eq_some_iff.mp hp
  have hnext : eff.next = some (.returned v) := by
    cases hn : eff.next with
    | none => rw [slots_apply_none hn] at hd'; cases hd'
    | some phase =>
        rw [slots_apply_some hn, Slot.delivered.injEq] at hd'
        rw [hd'.2.2]
  cases i with
  | returns =>
      obtain rfl := Option.some.inj heff
      cases hc : checkIdempotency J (w.cache (cacheKey m.idempotencyKey)) with
      | miss => simp [run, hc] at hnext
      | hit u => simpa [run, hc] using hnext
      | undecodable text =>
          simp only [run, hc, autoretry, Option.some.injEq] at hnext
          split at hnext <;> cases hnext
  | raises exc =>
      obtain rfl := Option.some.inj heff
      simp only [autoretry, Option.some.injEq] at hnext
      split at hnext <;> cases hnext
  | ends o => cases heff

/-- How a delivery has come to have a value in hand. -/
theorem Piece.result {m : Message} {worker : Worker} {cached : Option String} {now : Time}
    {phase phase' : Phase} {i : Input} {eff : Effects} {v : Json}
    (h : Piece J m worker cached now phase i eff) (hn : eff.next = some phase')
    (hv : phase'.result? = some v) :
    phase = .started ∧ phase' = .returned v ∨ phase.result? = some v ∨
      eff.seen = [.executeReturned m v] := by
  have hnot : ∀ {q : Phase}, eff.next = some q → q.result? ≠ none := by
    intro q hq
    rw [hn, Option.some.injEq] at hq
    rw [← hq, hv]
    exact Option.some_ne_none v
  cases h with
  | hit u _ =>
      obtain rfl := Option.some.inj hn
      exact .inl ⟨rfl, congrArg Phase.returned (Option.some.inj hv)⟩
  | returns u =>
      obtain rfl := Option.some.inj hn
      obtain rfl := Option.some.inj hv
      exact .inr (.inr rfl)
  | success u =>
      obtain rfl := Option.some.inj hn
      exact .inr (.inl hv)
  | successFails u exc =>
      obtain rfl := Option.some.inj hn
      exact .inr (.inl hv)
  | count u =>
      obtain rfl := Option.some.inj hn
      exact .inr (.inl hv)
  | ack => cases hn
  | undecodable _ => exact absurd (by split <;> rfl) (hnot rfl)
  | lookupFails exc => exact absurd (by split <;> rfl) (hnot rfl)
  | retryFails delay exc => exact absurd (by split <;> rfl) (hnot rfl)
  | failure exc again stage =>
      cases stage with
      | count => exact absurd (by split <;> rfl) (hnot rfl)
      | _ => exact absurd rfl (hnot rfl)
  | failureFails exc exc' again stage _ =>
      cases stage with
      | count => exact absurd (by split <;> rfl) (hnot rfl)
      | _ => exact absurd rfl (hnot rfl)
  | _ => exact absurd rfl (hnot rfl)

/-- The SETEX of `on_success` stores the value in hand. -/
theorem Piece.stores_counted {m : Message} {worker : Worker} {cached : Option String}
    {now : Time} {phase : Phase} {i : Input} {eff : Effects} {v : Json}
    (h : Piece J m worker cached now phase i eff) (hv : eff.store = some v) :
    phase = .counted v := by
  cases h with
  | store u => exact congrArg Phase.counted (Option.some.inj hv)
  | failure exc again stage => cases stage <;> cases hv
  | failureFails exc exc' again stage => cases stage <;> cases hv
  | _ => cases hv

/-- What the cache holds after a step was there before, or a delivery stored its result. -/
theorem step_cached (hs : (system J).step w e = some w') {k text : String}
    (hc : w'.cache (cacheKey k) = some text) : w.cache (cacheKey k) = some text ∨
      ∃ s m worker v, w.slots s = .delivered m worker (.counted v) ∧ m.idempotencyKey = k ∧
        text = J.dumps v := by
  cases step_cases hs with
  | api _ ha => exact .inl (ha.cache ▸ hc)
  | @work s i m worker phase eff db hslot hp _ =>
      cases hv : eff.store with
      | none => rw [cache_apply_none hv] at hc; exact .inl hc
      | some v =>
          rw [cache_apply_some hv] at hc
          by_cases hk : m.idempotencyKey = k
          · subst hk
            rw [Function.update_self] at hc
            exact .inr ⟨s, m, worker, v, hp.stores_counted hv ▸ hslot, rfl,
              (Option.some.inj hc).symm⟩
          · rw [Function.update_of_ne fun he => hk (cacheKey_injective he).symm] at hc
            exact .inl hc
  | env _ henv =>
      by_cases hk : e = .expire k
      · subst hk
        obtain rfl := Option.some.inj hs
        have hnone : Function.update w.cache (cacheKey k) none (cacheKey k) = none :=
          Function.update_self ..
        exact absurd (hnone.symm.trans hc) (by simp)
      · exact .inl (henv.cache k hk ▸ hc)
  | _ => exact .inl hc

/-- A status update takes its result, and COMPLETED, from the value in hand. -/
theorem Piece.write_result {m : Message} {worker : Worker} {cached : Option String} {now : Time}
    {phase : Phase} {i : Input} {eff : Effects} {wr : Write}
    (h : Piece J m worker cached now phase i eff) (hw : eff.write = some wr) :
    wr.status ≠ .completed ∧ wr.fields.result = .null ∨
      phase.result? = some wr.fields.result := by
  cases h with
  | start => exact .inl (Option.some.inj hw ▸ ⟨nofun, rfl⟩)
  | startFails exc => exact .inl (Option.some.inj hw ▸ ⟨nofun, rfl⟩)
  | success v => exact .inr (Option.some.inj hw ▸ rfl)
  | successFails v exc => exact .inr (Option.some.inj hw ▸ rfl)
  | failure exc again stage =>
      cases stage with
      | send => cases hw
      | failed => exact .inl (Option.some.inj hw ▸ ⟨nofun, rfl⟩)
      | dlq => exact .inl (Option.some.inj hw ▸ ⟨nofun, rfl⟩)
      | count => cases hw
  | failureFails exc exc' again stage _ =>
      cases stage with
      | send => cases hw
      | failed => exact .inl (Option.some.inj hw ▸ ⟨nofun, rfl⟩)
      | dlq => exact .inl (Option.some.inj hw ▸ ⟨nofun, rfl⟩)
      | count => cases hw
  | _ => cases hw

/-- What a piece of a delivery shows is seen. -/
theorem seen_apply (s : SlotId) (m : Message) (worker : Worker) (eff : Effects) (db : Db) :
    eff.seen ⊆ (w.apply J s m worker eff db).trace := by
  intro o ho
  simp only [World.apply]
  split
  · exact List.mem_append_left _ ho
  · exact List.mem_append_left _ ho

theorem Sourced.held_step (h : Sourced J w) (hJ : J.Lawful) (hb : Bounded w)
    (hs : (system J).step w e = some w') {s : SlotId} {m : Message} {worker : Worker}
    {phase' : Phase} {v : Json} (hd : w'.slots s = .delivered m worker phase')
    (hv : phase'.result? = some v) : w'.Yielded m.idempotencyKey v := by
  have he := step_cases hs
  by_cases hwork : ∃ i, e = .work s i
  · obtain ⟨i, rfl⟩ := hwork
    rcases he.worked with @⟨_, _, m₀, worker₀, phase, eff, db, hev, hs₀, hp, -, hw'⟩ | hne
    · obtain ⟨rfl, rfl⟩ := Event.work.inj hev
      cases hn : eff.next with
      | none => rw [hw', slots_apply_none hn] at hd; cases hd
      | some phase₁ =>
          have hd₁ : w'.slots s = .delivered m₀ worker₀ phase₁ := hw' ▸ slots_apply_some hn
          rw [hd, Slot.delivered.injEq] at hd₁
          obtain ⟨rfl, rfl, rfl⟩ := hd₁
          rcases hp.result hn hv with ⟨rfl, rfl⟩ | hv₀ | hseen
          · -- a hit: what is cached was stored by a delivery of the key
            have hcheck := lookup_of_step hs hs₀ hd
            cases hc : w.cache (cacheKey m.idempotencyKey) with
            | none => rw [hc] at hcheck; cases hcheck
            | some text =>
                obtain ⟨u, hy, rfl⟩ := h.cached _ _ hc
                rw [hc, hJ.check, Lookup.hit.injEq] at hcheck
                exact hcheck ▸ hy.step he
          · exact (h.held s m worker phase v hs₀ hv₀).step he
          · refine ⟨m, rfl, ?_⟩
            have hmem := seen_apply (w := w) (J := J) s m worker eff db
            rw [hseen] at hmem
            exact hw' ▸ hmem List.mem_cons_self
    · exact absurd rfl (hne s i)
  · cases he.delivered hb hd with
    | stays _ hs₀ => exact (h.held s m worker phase' v hs₀ hv).step he
    | taken _ _ hr => rw [hr] at hv; cases hv
    | advanced hev _ _ _ _ => exact absurd ⟨_, hev⟩ hwork

/-- What the row of a job has after a step, it had before or a delivery wrote it. -/
theorem Sourced.row_step (h : Sourced J w) (hg : Ground w) (hen : Enqueued w) (hcp : Copies w)
    (hbl : Blanks w) (he : SysStep J w e w') {r : Job} (hr : r ∈ w'.db.rows) :
    (∀ v, r.result = some v → w'.Yielded r.idempotencyKey v) ∧
      (r.status = .completed → ∃ v, w'.Yielded r.idempotencyKey v) := by
  have hold : ∀ {r₀ : Job}, r₀ ∈ w.db.rows → (∀ v, r₀.result = some v →
      w'.Yielded r₀.idempotencyKey v) ∧ (r₀.status = .completed →
        ∃ v, w'.Yielded r₀.idempotencyKey v) := by
    intro r₀ hr₀
    refine ⟨fun v hv => (h.result r₀ hr₀ v hv).step he, ?_⟩
    intro hst
    obtain ⟨v, hy⟩ := h.completed r₀ hr₀ hst
    exact ⟨v, hy.step he⟩
  have hf : w'.db.find r.id = some r := Store.find_eq_some.mpr ⟨hr, rfl⟩
  cases he.row hg r.id with
  | stays hsame =>
      rw [hsame] at hf
      exact hold (Store.find_eq_some.mp hf).1
  | @landed _ sub t _ hc _ _ hnew =>
      rw [hf, Option.some.injEq] at hnew
      have hblank := (hbl _ sub _ hc).row t
      rw [← hnew] at hblank
      refine ⟨fun v hv => ?_, fun hst => ?_⟩
      · rw [hblank.result] at hv
        cases hv
      · rw [hblank.status] at hst
        cases hst
  | cancelled _ _ hmap =>
      rw [hf] at hmap
      obtain ⟨r₀, hr₀, rfl⟩ := Option.map_eq_some_iff.mp hmap.symm
      exact ⟨(hold (Store.find_eq_some.mp hr₀).1).1, nofun⟩
  | @written s i m worker phase eff wr _ hslot hp hw _ hj _ hmap =>
      rw [hf] at hmap
      obtain ⟨r₀, hr₀, rfl⟩ := Option.map_eq_some_iff.mp hmap.symm
      obtain ⟨hmem, hid⟩ := Store.find_eq_some.mp hr₀
      obtain ⟨m₀, hm₀, hcopy⟩ := hcp s m (by rw [hslot]; rfl)
      have hkey : m.idempotencyKey = r₀.idempotencyKey :=
        (hen.enqueuedAs hmem hm₀ hcopy (hj.trans hid.symm)).idempotencyKey
      rcases hp.write_result hw with ⟨hst, hnull⟩ | hv
      · refine ⟨?_, fun hst' => absurd hst' hst⟩
        intro v hv
        simp only [values, hnull] at hv
        exact (hold hmem).1 v hv
      · have hy : w'.Yielded r₀.idempotencyKey wr.fields.result :=
          hkey ▸ (h.held s m worker phase _ hslot hv).step he
        refine ⟨?_, fun _ => ⟨_, hy⟩⟩
        intro v hv'
        simp only [values] at hv'
        split at hv'
        · exact (hold hmem).1 v hv'
        · exact Option.some.inj hv' ▸ hy

theorem Sourced.step (h : Sourced J w) (hJ : J.Lawful) (hg : Ground w) (hen : Enqueued w)
    (hcp : Copies w) (hbl : Blanks w) (hs : (system J).step w e = some w') : Sourced J w' := by
  have he := step_cases hs
  constructor
  · intro k text hc
    rcases step_cached hs hc with hc₀ | ⟨s, m, worker, v, hslot, rfl, rfl⟩
    · obtain ⟨v, hy, ht⟩ := h.cached k text hc₀
      exact ⟨v, hy.step he, ht⟩
    · exact ⟨v, (h.held s m worker _ v hslot rfl).step he, rfl⟩
  · intro s m worker phase v hd hv
    exact h.held_step hJ hg.bounded hs hd hv
  · intro r hr
    exact (h.row_step hg hen hcp hbl he hr).1
  · intro r hr
    exact (h.row_step hg hen hcp hbl he hr).2

end Step

/-! ## Messages of rolled-back submissions -/

/-- The call that published a message is before its commit, has committed, or has raised. -/
def Accounted (w : World) : Prop :=
  ∀ c m, .published c m ∈ w.trace → (∃ r ∈ w.db.rows, r.id = m.jobId) ∨
    (∃ sub t, w.calls c = .submitting sub (.sent t) ∧ m = message sub t) ∨
    ∃ op e, w.calls c = .raised op e

theorem accounted_init (allowed : List String) : Accounted (.init allowed) :=
  fun _ _ h => nomatch h

/-- `execute()` has returned for copies of published messages only. -/
def Issued (w : World) : Prop :=
  ∀ m v, .executeReturned m v ∈ w.trace → ∃ m₀ ∈ w.published, m₀.Copy m

theorem issued_init (allowed : List String) : Issued (.init allowed) := fun _ _ h => nomatch h

/-- No row has the job id of `m`, and the call that published it has raised. -/
def World.Orphaned (w : World) (m : Message) : Prop :=
  (∀ r ∈ w.db.rows, r.id ≠ m.jobId) ∧
    ∃ c m₀ op e, .published c m₀ ∈ w.trace ∧ m₀.Copy m ∧ w.calls c = .raised op e

section Accounted
variable {J : JsonCodec} {w w' : World} {e : Event}

theorem Accounted.step_api {c : CallId} (h : Accounted w) (hs : Sessions w)
    (ha : ApiStep w c w') : Accounted w' := by
  intro c' m hm
  have hrow : (∃ r ∈ w.db.rows, r.id = m.jobId) → ∃ r ∈ w'.db.rows, r.id = m.jobId := by
    rintro ⟨r, hr, hid⟩
    obtain ⟨r', hr', ho⟩ := (ha.rows (hs c)).origin hr
    exact ⟨r', hr', ho.id.trans hid⟩
  by_cases hne : c' = c
  · subst hne
    -- a call that was neither before its commit nor over has its row, or has published nothing
    have hstays : .published c' m ∈ w.trace → (∀ sub t, w.calls c' ≠ .submitting sub (.sent t)) →
        (∀ op e, w.calls c' ≠ .raised op e) → ∃ r ∈ w'.db.rows, r.id = m.jobId := by
      intro hm₀ hsent hraised
      rcases h c' m hm₀ with hr | ⟨sub, t, hc, -⟩ | ⟨op, e, hc⟩
      · exact hrow hr
      · exact absurd hc (hsent sub t)
      · exact absurd hc (hraised op e)
    cases ha with
    | enter op hidle => exact .inl (hstays hm (by simp [hidle]) (by simp [hidle]))
    | move hl =>
        refine .inl (hstays hm ?_ ?_)
        · intro sub t hc
          rw [hc] at hl
          cases hl
        · intro op e hc
          rw [hc] at hl
          cases hl
    | raise _ _ => exact .inr (.inr ⟨_, _, calls_raise_self ..⟩)
    | violate _ _ => exact .inr (.inr ⟨_, _, calls_raise_self ..⟩)
    | flush hb _ =>
        refine .inl (hstays hm ?_ ?_)
        · intro sub t hc
          rw [hc] at hb
          cases hb
        · intro op e hc
          rw [hc] at hb
          cases hb
    | @send sub hc =>
        rcases List.mem_cons.mp hm with heq | hm₀
        · obtain ⟨-, rfl⟩ := Obs.published.inj heq
          exact .inr (.inl ⟨sub, _, calls_setCall_self .., rfl⟩)
        · exact .inl (hstays hm₀ (by simp [hc]) (by simp [hc]))
    | @land sub t hc =>
        have hm₀ : .published c' m ∈ w.trace := by
          simpa only [trace_setCall, trace_countSubmission, trace_observe, List.mem_cons,
            reduceCtorEq, false_or] using hm
        rcases h c' m hm₀ with hr | ⟨sub', t', hc', rfl⟩ | ⟨op, e, hc'⟩
        · exact .inl (hrow hr)
        · rw [hc, Call.submitting.injEq] at hc'
          obtain ⟨rfl, -⟩ := hc'
          have hses := hs c'
          rw [hc] at hses
          refine .inl ⟨sub.row t, ?_, rfl⟩
          simp only [db_setCall, db_countSubmission, db_observe, rows_land t hses.1 hses.2]
          exact List.mem_append_right _ List.mem_cons_self
        · rw [hc] at hc'
          cases hc'
    | lock hc _ => exact .inl (hstays hm (by simp [hc]) (by simp [hc]))
    | cancel hc =>
        have hm₀ : .published c' m ∈ w.trace := (List.mem_cons.mp hm).resolve_left nofun
        exact .inl (hstays hm₀ (by simp [hc]) (by simp [hc]))
    | revoke _ hc _ =>
        have hm₀ : .published c' m ∈ w.trace := (List.mem_cons.mp hm).resolve_left nofun
        exact .inl (hstays hm₀ (by simp [hc]) (by simp [hc]))
  · have hm₀ : .published c' m ∈ w.trace := by
      cases ha.shows with
      | silent ht _ _ _ => exact ht ▸ hm
      | shown o ht ho _ =>
          rw [ht, List.mem_cons] at hm
          rcases hm with rfl | hm
          · exact absurd (Option.some.inj ho) hne
          · exact hm
    rcases h c' m hm₀ with hr | hsent | hraised
    · exact .inl (hrow hr)
    · exact .inr (.inl (ha.calls_ne hne ▸ hsent))
    · exact .inr (.inr (ha.calls_ne hne ▸ hraised))

theorem Accounted.step (h : Accounted w) (hs : Sessions w) (he : SysStep J w e w') :
    Accounted w' := by
  rcases he.api_or_offstage with ⟨c, -, ha⟩ | ⟨-, ho⟩
  · exact h.step_api hs ha
  · intro c m hm
    obtain ⟨new, ht, hn⟩ := ho.trace
    have hm₀ : .published c m ∈ w.trace := by
      rw [ht, List.mem_append] at hm
      exact hm.resolve_left fun hnew => hn _ hnew trivial
    rcases h c m hm₀ with ⟨r, hr, hid⟩ | hsent | hraised
    · obtain ⟨r', hr', hor⟩ := he.origin hs hr
      exact .inl ⟨r', hr', hor.id.trans hid⟩
    · exact .inr (.inl (ho.calls ▸ hsent))
    · exact .inr (.inr (ho.calls ▸ hraised))

theorem Issued.step (h : Issued w) (hcp : Copies w) (he : SysStep J w e w') : Issued w' := by
  intro m v hm
  have hsub := he.published_subset
  have hold : .executeReturned m v ∈ w.trace → ∃ m₀ ∈ w'.published, m₀.Copy m := by
    intro hm₀
    obtain ⟨m₀, hp, hc⟩ := h m v hm₀
    exact ⟨m₀, hsub hp, hc⟩
  rcases he.worked with @⟨s, i, m₁, worker, phase, eff, db, -, hslot, hp, -, rfl⟩ | hne
  · have hmem : .executeReturned m v ∈ eff.seen ∨ .executeReturned m v ∈ w.trace := by
      simp only [World.apply] at hm
      split at hm <;> simpa using hm
    rcases hmem with hseen | hm₀
    · have hs := hp.seen
      generalize eff.seen = obs at hs hseen
      cases hs with
      | returned u =>
          obtain ⟨rfl, -⟩ := Obs.executeReturned.inj (List.mem_singleton.mp hseen)
          obtain ⟨m₀, hm₀, hc⟩ := hcp s m (by rw [hslot]; rfl)
          exact ⟨m₀, hsub hm₀, hc⟩
      | nothing _ _ => cases hseen
      | _ => cases List.mem_singleton.mp hseen
    · exact hold hm₀
  · obtain ⟨new, ht, hn⟩ := he.shows_api hne
    rw [ht, List.mem_append] at hm
    exact hold (hm.resolve_left fun hnew => hn _ hnew)

/-- The message of a result is the row's own, or that of a submission rolled back. -/
theorem own_or_orphaned (hg : Ground w) (hen : Enqueued w) (hac : Accounted w) (his : Issued w)
    {m : Message} {v : Json} (hm : .executeReturned m v ∈ w.trace) {r : Job}
    (hr : r ∈ w.db.rows) (hk : m.idempotencyKey = r.idempotencyKey) :
    (m.jobId = r.id ∧ m.taskName = r.taskName ∧ m.payload = r.payload) ∨ w.Orphaned m := by
  obtain ⟨m₀, hm₀, hcopy⟩ := his m v hm
  by_cases hj : m.jobId = r.id
  · have henq := hen.enqueuedAs hr hm₀ hcopy hj
    exact .inl ⟨hj, henq.taskName, henq.payload⟩
  · have hnorow : ∀ r' ∈ w.db.rows, r'.id ≠ m.jobId := by
      intro r' hr' hid
      have hk' := (hen.enqueuedAs hr' hm₀ hcopy hid.symm).idempotencyKey
      have hfind : w.db.findKey r.idempotencyKey = some r' :=
        Store.findKey_eq_some.mpr ⟨hr', hk'.symm.trans hk⟩
      have hsame : r' = r :=
        Option.some.inj (hfind.symm.trans (Store.findKey_eq_some.mpr ⟨hr, rfl⟩))
      exact hj (hsame ▸ hid.symm)
    refine .inr ⟨hnorow, ?_⟩
    obtain ⟨o, ho, hobs⟩ := List.mem_filterMap.mp hm₀
    cases o with
    | published c m₁ =>
        obtain rfl := Option.some.inj hobs
        rcases hac c m₁ ho with ⟨r', hr', hid⟩ | ⟨sub, t, hc, rfl⟩ | ⟨op, e, hc⟩
        · exact absurd (hid.trans hcopy.jobId.symm) (hnorow r' hr')
        · -- a submission before its commit holds the key, so no row has it
          have hses := hg.sessions c
          rw [hc] at hses
          have hmem : sub.job ∈ w.db.inserts c := hses.1 ▸ List.mem_singleton_self _
          have hcoh := hg.submissions.coherent c sub _ hc
          have hkey : sub.job.idempotencyKey = r.idempotencyKey :=
            hcoh.idempotencyKey.trans (hcopy.idempotencyKey.symm.trans hk)
          exact absurd hkey.symm (Store.pending_fresh hmem hr).2
        · exact ⟨c, m₁, op, e, ho, hcopy, hc⟩
    | _ => cases hobs

end Accounted

/-! ## Whole runs -/

/-- A completed job has been worked on under its key: `execute()` has returned for a message
with the row's key, the row's result, if any, is what it returned, and the message is the
row's own or was orphaned by a call that raised after `send_task`. -/
theorem completed_by_key {J : JsonCodec} {allowed : List String} {es : List Event} {w : World}
    {r : Job} (hJ : J.Lawful) (h : (system J).Run (fun _ _ => True) (.init allowed) es w)
    (hr : r ∈ w.db.rows) (hst : r.status = .completed) :
    ∃ m v, .executeReturned m v ∈ w.trace ∧ m.idempotencyKey = r.idempotencyKey ∧
      (r.result = none ∨ r.result = some v) ∧
      ((m.jobId = r.id ∧ m.taskName = r.taskName ∧ m.payload = r.payload) ∨ w.Orphaned m) := by
  obtain ⟨hg, ⟨hen, -, -⟩, hsrc, hac, his⟩ := run_invariant
    (I := fun w => (Enqueued w ∧ Copies w ∧ Blanks w) ∧ Sourced J w ∧ Accounted w ∧ Issued w)
    h (ground_init allowed)
    ⟨⟨enqueued_init allowed, copies_init allowed, blanks_init allowed⟩, sourced_init J allowed,
      accounted_init allowed, issued_init allowed⟩
    fun hg ⟨⟨hen, hcp, hbl⟩, hsrc, hac, his⟩ _ hs =>
      have he := step_cases hs
      ⟨⟨hen.step hg he, hcp.step hg.bounded he, hbl.step he⟩, hsrc.step hJ hg hen hcp hbl hs,
        hac.step hg.sessions he, his.step hcp he⟩
  have hyield : ∃ v, w.Yielded r.idempotencyKey v ∧ (r.result = none ∨ r.result = some v) := by
    cases hres : r.result with
    | none =>
        obtain ⟨v, hy⟩ := hsrc.completed r hr hst
        exact ⟨v, hy, .inl rfl⟩
    | some v => exact ⟨v, hsrc.result r hr v hres, .inr rfl⟩
  obtain ⟨v, ⟨m, hk, hm⟩, hres⟩ := hyield
  exact ⟨m, v, hm, hk, hres, own_or_orphaned hg hen hac his hm hr hk⟩

/-- A job that completes on its own message. -/
theorem completed_by_key_ping : ∃ w r, (system jsonText).exec pingWorld
      (createEvents 0 "k" ++ startEvents 0 "v" ++ finishEvents 0) = some w ∧
    r ∈ w.db.rows ∧ r.status = .completed ∧
    ∃ m v, .executeReturned m v ∈ w.trace ∧ m.idempotencyKey = r.idempotencyKey ∧
      (r.result = none ∨ r.result = some v) ∧
      ((m.jobId = r.id ∧ m.taskName = r.taskName ∧ m.payload = r.payload) ∨ w.Orphaned m) := by
  obtain ⟨w, hw, hrun, hst⟩ := Machine.exists_run_obs (system jsonText) (fun _ _ => True)
    pingWorld (createEvents 0 "k" ++ startEvents 0 "v" ++ finishEvents 0)
    (fun w => (w.db.find 0).map Job.status) (some .completed) (by decide) (by decide)
  obtain ⟨r, hr, hcompleted⟩ := Option.map_eq_some_iff.mp hst
  have hmem := (Store.find_eq_some.mp hr).1
  exact ⟨w, r, hw, hmem, hcompleted, completed_by_key jsonText_lawful hrun hmem hcompleted⟩

/-- The jobs `execute()` has returned for. -/
def World.returnedFor (w : World) : List Uuid :=
  w.trace.filterMap fun
    | .executeReturned m _ => some m.jobId
    | _ => none

/-- The first submission of the key fails at commit, its message is worked on, and the
second submission of the key, with another payload, completes from the cache. -/
def borrowedEvents : List Event :=
  (createEvents 0 "k").take 4 ++ [.apiFail 0] ++ startEvents 0 "v" ++ finishEvents 0 ++
    [.call 1 (.createJob
      { taskName := "ping", payload := .obj [("n", .bool true)], idempotencyKey := "k" })] ++
    List.replicate 5 (.api 1) ++ [.take 1 "v"] ++ List.replicate 6 (.work 1 .returns)

theorem completed_by_another : ∃ w r, (system nullCodec).Run (fun _ _ => True) pingWorld
      borrowedEvents w ∧ r ∈ w.db.rows ∧ r.status = .completed ∧
    ∀ m v, .executeReturned m v ∈ w.trace → m.jobId ≠ r.id := by
  obtain ⟨w, -, hrun, hobs⟩ := Machine.exists_run_obs (system nullCodec) (fun _ _ => True)
    pingWorld borrowedEvents (fun w => ((w.db.find 2).map Job.status, w.returnedFor))
    (some .completed, [0]) (by decide) (by decide)
  obtain ⟨hst, hfor⟩ := Prod.mk.inj hobs
  obtain ⟨r, hr, hcompleted⟩ := Option.map_eq_some_iff.mp hst
  obtain ⟨hmem, hid⟩ := Store.find_eq_some.mp hr
  refine ⟨w, r, hrun, hmem, hcompleted, ?_⟩
  intro m v hm hj
  have hin : m.jobId ∈ w.returnedFor := List.mem_filterMap.mpr ⟨_, hm, rfl⟩
  rw [hfor, List.mem_singleton, hj, hid] at hin
  cases hin

end Aegis
