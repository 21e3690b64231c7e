/-
# `AegisWorkers.Backoff` — no attempt comes before its time

A retry waits `10 * 2 ** retries` seconds, ten where the lookup in the cache has failed or the
first publish of the retry has, since the autoretry wrapper publishes it then.  A
message carries its number of retries and the time before which no worker starts it, and
neither crashes nor second deliveries take anything off it, so attempt `n` of a job begins no
sooner after the job's creation than its `n` waits add up to.  What they add up to is left
open (`pace`), as long as every retry that is scheduled waits for its share.

    w.CreatedAt j t        job `j` was created at `t`, its row committed or about to be
    (w.slots s).Paced …    the message in slot `s` has waited, or still has to
-/
import Mathlib.Order.MinMax
import Mathlib.Order.Monotone.Basic
import AegisWorkers.DeadLetters
import AegisWorkers.Tolerance

namespace Aegis

open BaseTask JobService ReadCommitted

/-! ## Waiting -/

/-- The waits of `n` retries, each of `10 * 2 ** retries` seconds. -/
def backoff (n : Nat) : Nat := 10 * (Nat.pow 2 n - 1)

theorem backoff_succ (n : Nat) : backoff (n + 1) = backoff n + countdown n := by
  have hpos : 1 ≤ Nat.pow 2 n := Nat.one_le_two_pow
  have hdouble : Nat.pow 2 (n + 1) = Nat.pow 2 n * 2 := rfl
  unfold backoff countdown
  omega

/-- The retry about to be published waits for its share. -/
def Phase.Waits (pace : Nat → Nat) (n : Nat) : Phase → Prop
  | .retrying delay _ => pace (n + 1) ≤ pace n + delay
  | _ => True

/-- A message of the job, created at `t`, has waited, or is still waiting. -/
def Slot.Paced (pace : Nat → Nat) (j : Uuid) (t now : Time) : Slot → Prop
  | .empty => True
  | .queued m => m.jobId = j → t + pace m.retries ≤ max m.eta now
  | .delivered m _ phase => m.jobId = j → t + pace m.retries ≤ now ∧ phase.Waits pace m.retries

section Waiting
variable {pace : Nat → Nat} {j : Uuid} {t now now' : Time} {x : Slot} {m : Message}

theorem Slot.Paced.mono (h : x.Paced pace j t now) (hle : now ≤ now') : x.Paced pace j t now' := by
  cases x with
  | empty => trivial
  | queued m =>
      intro hj
      exact (h hj).trans (max_le_max (Nat.le_refl _) hle)
  | delivered m worker phase =>
      intro hj
      exact ⟨(h hj).1.trans hle, (h hj).2⟩

theorem paced_of_empty (hx : x.message? = none) : x.Paced pace j t now := by
  cases x with
  | empty => trivial
  | queued m => cases hx
  | delivered m worker phase => cases hx

theorem paced_of_other (hx : x.message? = some m) (hj : m.jobId ≠ j) :
    x.Paced pace j t now := by
  cases x with
  | empty => trivial
  | queued m' =>
      obtain rfl := Option.some.inj hx
      exact fun hj' => absurd hj' hj
  | delivered m' worker phase =>
      obtain rfl := Option.some.inj hx
      exact fun hj' => absurd hj' hj

end Waiting

def World.CreatedAt (w : World) (j : Uuid) (t : Time) : Prop :=
  (∃ r ∈ w.db.rows, r.id = j ∧ r.createdAt = t) ∨
    ∃ c sub stage, w.calls c = .submitting sub stage ∧ sub.job.id = j ∧ sub.job.createdAt = t

def Paced (pace : Nat → Nat) (j : Uuid) (w : World) : Prop :=
  ∀ t, w.CreatedAt j t → ∀ s, (w.slots s).Paced pace j t w.clock

def BaseTask.Lookup.fails : Lookup → Bool
  | .undecodable _ => true
  | _ => false

/-- `execute()` calls `self.retry` in a delivery of job `j`. -/
def retriesItself (j : Uuid) (x : World × Event) : Bool :=
  match x.2 with
  | .work s (.ends (.retry _)) => (x.1.slots s).jobId? = some j
  | _ => false

/-- The idempotency lookup of a delivery of job `j` fails, or the publish of its retry by `run`;
the autoretry wrapper goes on. -/
def stumbles (J : JsonCodec) (j : Uuid) (x : World × Event) : Bool :=
  match x.2 with
  | .work s i =>
      match x.1.slots s with
      | .delivered m _ .started => m.jobId = j &&
          (!i.ok || (checkIdempotency J (x.1.cache (cacheKey m.idempotencyKey))).fails)
      | .delivered m _ (.retrying _ true) => m.jobId = j && !i.ok
      | _ => false
  | _ => false

/-- Celery calls `on_failure` for job `j` whatever retries are left: `execute()` raises a
ValidationError, or the SETEX of `on_success` fails. -/
def givesUp (j : Uuid) (x : World × Event) : Bool :=
  invalidates j x ||
    match x.2 with
    | .work s i =>
        match x.1.slots s with
        | .delivered m _ phase => m.jobId = j && phase.forgets i
        | _ => false
    | _ => false

/-! ## One step -/

section Steps
variable {J : JsonCodec} {w w' : World} {e : Event} {pace : Nat → Nat} {j : Uuid} {t : Time}

/-- A job whose creation is new has a new id. -/
theorem World.CreatedAt.old (h : w'.CreatedAt j t) (hg : Ground w) (he : SysStep J w e w') :
    w.CreatedAt j t ∨ w.uuid ≤ j := by
  rcases h with ⟨r', hr', hid, hcreated⟩ | ⟨c, sub, stage, hc, hid, hcreated⟩
  · have hf : w'.db.find j = some r' := Store.find_eq_some.mpr ⟨hr', hid⟩
    have hkept : ∀ {f : Job → Job}, w'.db.find j = (w.db.find j).map f →
        (∀ r, (f r).createdAt = r.createdAt) → w.CreatedAt j t := by
      intro f hmap hkeep
      rw [hf] at hmap
      obtain ⟨r, hr, rfl⟩ := Option.map_eq_some_iff.mp hmap.symm
      obtain ⟨hmem, hid'⟩ := Store.find_eq_some.mp hr
      exact .inl ⟨r, hmem, hid', (hkeep r).symm.trans hcreated⟩
    cases he.row hg j with
    | stays hsame =>
        obtain ⟨hmem, -⟩ := Store.find_eq_some.mp (hsame ▸ hf)
        exact .inl (.inl ⟨r', hmem, hid, hcreated⟩)
    | @landed c sub u _ hx hsub _ hnew =>
        obtain rfl := Option.some.inj (hf.symm.trans hnew)
        exact .inl (.inr ⟨c, sub, _, hx, hsub, hcreated⟩)
    | cancelled _ _ hmap => exact .inl (hkept hmap fun _ => rfl)
    | written _ _ _ _ _ _ _ hmap => exact .inl (hkept hmap fun _ => rfl)
  · rcases he.api_or_offstage with ⟨c', -, ha⟩ | ⟨-, ho⟩
    · by_cases hne : c = c'
      · subst hne
        rcases ha.submitting hc with ⟨n, hb⟩ | ⟨stage', hc'⟩
        · exact .inr (hid ▸ hb.id_lt.1)
        · exact .inl (.inr ⟨c, sub, stage', hc', hid, hcreated⟩)
      · exact .inl (.inr ⟨c, sub, stage, ha.calls_ne hne ▸ hc, hid, hcreated⟩)
    · exact .inl (.inr ⟨c, sub, stage, ho.calls ▸ hc, hid, hcreated⟩)

/-- Jobs are created in the past. -/
theorem World.CreatedAt.le (h : w.CreatedAt j t) (ht : Timed w) : t ≤ w.clock := by
  rcases h with ⟨r, hr, -, rfl⟩ | ⟨c, sub, stage, hc, -, rfl⟩
  · exact (ht.rows r hr).created_le
  · have htimely := ht.calls c
    rw [hc] at htimely
    exact Nat.le_trans (Nat.le_of_eq htimely.1) htimely.2

/-- The job of a message has an old id. -/
theorem jobId_lt (hen : Enqueued w) (hcp : Copies w) {s : SlotId} {m : Message}
    (hs : (w.slots s).message? = some m) : m.jobId < w.uuid := by
  obtain ⟨m₀, hm₀, hcopy⟩ := hcp s m hs
  exact hcopy.jobId ▸ (hen.ids m₀ hm₀).2

/-- A message that a worker begins is due. -/
theorem eta_le {s : SlotId} {worker : Worker} {m : Message}
    (hs : (system J).step w (.take s worker) = some w') (hq : w.slots s = .queued m)
    (hheard : m.id ∉ w.heard worker) : m.eta ≤ w.clock := by
  cases take_cases (J := J) hs with
  | drop hq' hheard' =>
      obtain rfl := Slot.queued.inj (hq.symm.trans hq')
      exact absurd hheard' hheard
  | take hq' heta _ =>
      obtain rfl := Slot.queued.inj (hq.symm.trans hq')
      exact heta
  | api hc _ => cases hc
  | env hn _ => cases hn

/-- A lookup that does not fail goes on to `execute()` or to the end. -/
theorem lookup_holds {s : SlotId} {i : Input} {m : Message} {worker : Worker} {phase : Phase}
    (hs : (system J).step w (.work s i) = some w') (hd : w.slots s = .delivered m worker .started)
    (hok : stumbles J m.jobId (w, .work s i) = false)
    (hd' : w'.slots s = .delivered m worker phase) :
    phase = .missed ∨ ∃ v, phase = .returned v := by
  have hwork : (BaseTask.step J m worker (w.cache (cacheKey m.idempotencyKey)) w.clock .started
      i).bind (w.perform J s m worker) = some w' := by
    change w.work J s i = some w' at hs
    simpa only [World.work, hd] using hs
  obtain ⟨eff, heff, hp⟩ := Option.bind_eq_some_iff.mp hwork
  obtain ⟨db, -, rfl⟩ := Option.map_eq_some_iff.mp hp
  simp only [stumbles, hd, decide_true, Bool.true_and, Bool.or_eq_false_iff] at hok
  cases i with
  | returns =>
      obtain rfl := Option.some.inj heff
      cases hc : checkIdempotency J (w.cache (cacheKey m.idempotencyKey)) with
      | miss =>
          have hn : (run J m (w.cache (cacheKey m.idempotencyKey))).next = some .missed := by
            simp [run, hc]
          rw [slots_apply_some hn] at hd'
          exact .inl (Slot.delivered.inj hd').2.2.symm
      | hit v =>
          have hn : (run J m (w.cache (cacheKey m.idempotencyKey))).next = some (.returned v) := by
            simp [run, hc]
          rw [slots_apply_some hn] at hd'
          exact .inr ⟨v, (Slot.delivered.inj hd').2.2.symm⟩
      | undecodable text =>
          rw [hc] at hok
          cases hok.2
  | raises exc => cases hok.1
  | ends o => cases heff

/-- Every retry that an event schedules for job `j` waits for its share. -/
structure Unhurried (J : JsonCodec) (pace : Nat → Nat) (j : Uuid) (w : World) (e : Event) :
    Prop where
  own : retriesItself j (w, e) = false
  retry : ∀ n < maxRetries, pace (n + 1) ≤ pace n + countdown n
  lookup : stumbles J j (w, e) = true →
    ∀ n < maxRetries, pace (n + 1) ≤ pace n + defaultRetryDelay

/-- What a piece of a delivery schedules waits for its share. -/
theorem Unhurried.waits (h : Unhurried J pace j w e) {s : SlotId} {i : Input} {m : Message}
    {worker : Worker} {phase phase' : Phase} {eff : Effects} (hev : e = .work s i)
    (hj : m.jobId = j) (hs : (system J).step w e = some w')
    (hd : w.slots s = .delivered m worker phase)
    (hp : Piece J m worker (w.cache (cacheKey m.idempotencyKey)) w.clock phase i eff)
    (hn : eff.next = some phase') (hd' : w'.slots s = .delivered m worker phase')
    (hwaits : phase.Waits pace m.retries) : phase'.Waits pace m.retries := by
  subst hev hj
  have hautoretry : ∀ exc, stumbles J m.jobId (w, .work s i) = true →
      eff.next = (autoretry m exc).next → phase'.Waits pace m.retries := by
    intro exc hst hauto
    rcases autoretry_cases m exc with ⟨hlt, ha⟩ | ⟨-, ha⟩
    · rw [hn, ha] at hauto
      obtain rfl := Option.some.inj hauto
      exact h.lookup hst _ hlt
    · rw [hn, ha] at hauto
      obtain rfl := Option.some.inj hauto
      trivial
  have hlookup : ∀ exc, phase = .started → eff.next = (autoretry m exc).next →
      phase'.Waits pace m.retries := by
    rintro exc rfl hauto
    cases hst : stumbles J m.jobId (w, .work s i) with
    | false =>
        rcases lookup_holds hs hd hst hd' with rfl | ⟨v, rfl⟩ <;> trivial
    | true => exact hautoretry exc hst hauto
  cases hp with
  | undecodable _ => exact hlookup _ rfl rfl
  | lookupFails exc => exact hlookup _ rfl rfl
  | retryFails delay exc => exact hautoretry exc (by simp [stumbles, hd, Input.ok]) rfl
  | again exc hlt =>
      obtain rfl := Option.some.inj hn
      exact h.retry _ hlt
  | ownRetry delay hlt =>
      have hself : retriesItself m.jobId (w, .work s (.ends (.retry delay))) = true := by
        simp [retriesItself, hd, Slot.jobId?, Slot.message?]
      exact absurd (h.own.symm.trans hself) Bool.false_ne_true
  | failure exc again stage =>
      cases stage with
      | count =>
          obtain rfl := Option.some.inj hn
          cases again <;> trivial
      | _ =>
          obtain rfl := Option.some.inj hn
          trivial
  | failureFails exc exc' again stage hne =>
      cases stage with
      | count => exact absurd rfl hne
      | _ =>
          obtain rfl := Option.some.inj hn
          trivial
  | ack => cases hn
  | _ =>
      obtain rfl := Option.some.inj hn
      trivial

/-- A retry that is published has its share before it. -/
theorem Unhurried.published (h : Unhurried J pace j w e) {s : SlotId} {i : Input}
    {m m' : Message} {worker : Worker} {phase : Phase} {eff : Effects} (hev : e = .work s i)
    (hj : m.jobId = j) (hd : w.slots s = .delivered m worker phase)
    (hp : Piece J m worker (w.cache (cacheKey m.idempotencyKey)) w.clock phase i eff)
    (hq : eff.queue = some m') (hpaced : t + pace m.retries ≤ w.clock)
    (hwaits : phase.Waits pace m.retries) : t + pace m'.retries ≤ m'.eta := by
  cases hp with
  | retry delay again =>
      obtain rfl := Option.some.inj hq
      have hshare : pace (m.retries + 1) ≤ pace m.retries + delay := hwaits
      calc t + pace (m.retries + 1) ≤ t + (pace m.retries + delay) :=
            Nat.add_le_add_left hshare t
        _ = t + pace m.retries + delay := (Nat.add_assoc ..).symm
        _ ≤ w.clock + delay := Nat.add_le_add_right hpaced delay
  | ownRetry delay _ =>
      have hself : retriesItself j (w, e) = true := by
        simp [retriesItself, hev, hd, Slot.jobId?, Slot.message?, hj]
      exact absurd (h.own.symm.trans hself) Bool.false_ne_true
  | undecodable _ => cases hq
  | lookupFails exc => cases hq
  | failure exc again stage => cases stage <;> cases hq
  | failureFails exc exc' again stage _ => cases stage <;> cases hq
  | _ => cases hq

theorem Paced.step (h : Paced pace j w) (hzero : pace 0 = 0) (hP : Unhurried J pace j w e)
    (hg : Ground w) (hen : Enqueued w) (hcp : Copies w) (ht : Timed w)
    (hs : (system J).step w e = some w') : Paced pace j w' := by
  intro t hcreated s
  have he := step_cases hs
  have hclock := step_clock hs
  -- a message of a job whose creation is new is new itself, so there is none
  have hold : ∀ {s : SlotId} {m : Message}, (w.slots s).message? = some m → m.jobId = j →
      (w.slots s).Paced pace j t w.clock := by
    intro s m hm hj
    rcases hcreated.old hg he with hcreated | hfresh
    · exact h t hcreated s
    · exact absurd (jobId_lt hen hcp hm) (Nat.not_lt.mpr (hj ▸ hfresh))
  cases he.slot hg.bounded s with
  | stays hsame =>
      rw [hsame]
      cases hx : (w.slots s).message? with
      | none => exact paced_of_empty hx
      | some m =>
          by_cases hj : m.jobId = j
          · exact (hold hx hj).mono hclock
          · exact paced_of_other hx hj
  | @published c sub _ hc hx hs' _ =>
      rw [hs']
      intro hj
      have hle : t ≤ w.clock := by
        rcases hcreated.old hg he with hcreated | hfresh
        · exact hcreated.le ht
        · obtain rfl : sub.job.id = j := hj
          exact absurd (hg.submissions.fresh c _ (by rw [hx]; rfl)) (Nat.not_lt.mpr hfresh)
      have hnone : (message sub w.uuid).retries = 0 := rfl
      rw [hnone, hzero]
      exact (hle.trans hclock).trans (le_max_right _ _)
  | @retried s₀ i m m' worker phase eff _ hev hslot hp hq hs' =>
      rw [hs']
      intro hj
      have hj' : m.jobId = j := (hp.queue_copy hq).jobId.symm.trans hj
      have hm := hold (by rw [hslot]; rfl) hj'
      rw [hslot] at hm
      obtain ⟨hpaced, hwaits⟩ := hm hj'
      exact le_max_of_le_left (hP.published hev hj' hslot hp hq hpaced hwaits)
  | redelivered _ _ hslot hs' =>
      rw [hs']
      intro hj
      have hm := hold (by rw [hslot]; rfl) hj
      rw [hslot] at hm
      exact le_max_of_le_right ((hm hj).1.trans hclock)
  | dropped _ _ _ hs' => rw [hs']; trivial
  | taken hev hslot hheard hs' =>
      subst hev
      rw [hs']
      intro hj
      have hm := hold (by rw [hslot]; rfl) hj
      rw [hslot] at hm
      have hdue := hm hj
      rw [max_eq_right (eta_le hs hslot hheard)] at hdue
      exact ⟨hdue.trans hclock, trivial⟩
  | advanced hev hslot hp hn hs' =>
      rw [hs']
      intro hj
      have hm := hold (by rw [hslot]; rfl) hj
      rw [hslot] at hm
      obtain ⟨hpaced, hwaits⟩ := hm hj
      exact ⟨hpaced.trans hclock, hP.waits hev hj hs hslot hp hn hs' hwaits⟩
  | acknowledged _ _ _ _ hs' => rw [hs']; trivial
  | crashed _ hslot hs' =>
      rw [hs']
      intro hj
      have hm := hold (by rw [hslot]; rfl) hj
      rw [hslot] at hm
      exact le_max_of_le_right ((hm hj).1.trans hclock)

end Steps

/-! ## Giving up -/

/-- A delivery of job `j` that fails for good has no retries left. -/
def Exhausted (j : Uuid) (w : World) : Prop :=
  ∀ s m worker exc again stage, w.slots s = .delivered m worker (.failing exc again stage) →
    m.jobId = j → maxRetries ≤ m.retries

/-- The job was not given up before `wait` seconds had passed. -/
def Job.Patient (wait : Nat) (r : Job) : Prop :=
  r.status = .failed ∨ r.status = .dlq → ∃ t, r.completedAt = some t ∧ r.createdAt + wait ≤ t

/-- No attempt at the job has begun before its waits were over. -/
def Job.Unrushed (pace : Nat → Nat) (w : World) (r : Job) : Prop :=
  ∀ s m worker phase, w.slots s = .delivered m worker phase → m.jobId = r.id →
    r.createdAt + pace m.retries ≤ w.clock

def Persistent (wait : Nat) (j : Uuid) (w : World) : Prop :=
  ∀ r, w.db.find j = some r → r.Patient wait

section GivingUp
variable {J : JsonCodec} {w w' : World} {e : Event} {pace : Nat → Nat} {j : Uuid}

theorem Exhausted.step (h : Exhausted j w) (hP : givesUp j (w, e) = false)
    (hg : Ground w) (hs : (system J).step w e = some w') : Exhausted j w' := by
  intro s m worker exc again stage hd' hj
  have hauto : ∀ {eff : Effects} {exc' : Exc}, eff.next = (autoretry m exc').next →
      eff.next = some (.failing exc again stage) → maxRetries ≤ m.retries := by
    intro eff exc' hauto hn
    rcases autoretry_cases m exc' with ⟨-, ha⟩ | ⟨hle, -⟩
    · rw [hn, ha] at hauto
      cases hauto
    · exact hle
  obtain ⟨hvalid, hstored⟩ := Bool.or_eq_false_iff.mp hP
  cases (step_cases hs).delivered hg.bounded hd' with
  | stays _ hd => exact h s m worker exc again stage hd hj
  | taken _ _ hphase => cases hphase
  | @advanced i phase eff hev hd hp hn _ =>
      subst hev
      cases hp with
      | exhausted _ hle => exact hle
      | invalid exc₀ =>
          simp [invalidates, hd, Slot.inPhase, hj, Phase.inExecute, Input.rejects] at hvalid
      | undecodable _ => exact hauto rfl hn
      | lookupFails _ => exact hauto rfl hn
      | failure exc₀ again₀ stage₀ => exact h s m worker exc₀ again₀ stage₀ hd hj
      | failureFails exc₀ exc₁ again₀ stage₀ _ => exact h s m worker exc₀ again₀ stage₀ hd hj
      | storeFails v exc₀ => simp [hd, hj, Phase.forgets] at hstored
      | retryFails delay exc₀ => exact hauto rfl hn
      | _ => cases hn

theorem Persistent.step (h : Persistent (pace maxRetries) j w) (hmono : Monotone pace)
    (hpaced : Paced pace j w) (hex : Exhausted j w) (hg : Ground w) (hbl : Blanks w)
    (hs : (system J).step w e = some w') : Persistent (pace maxRetries) j w' := by
  intro r' hr' hst
  cases (step_cases hs).row hg j with
  | stays hsame => exact h r' (hsame ▸ hr') hst
  | @landed c sub t _ hx _ _ hnew =>
      obtain rfl := Option.some.inj (hr'.symm.trans hnew)
      have hpending := ((hbl c sub _ hx).row t).status
      rcases hst with hst | hst <;> rw [hpending] at hst <;> cases hst
  | cancelled _ _ hmap =>
      rw [hr'] at hmap
      obtain ⟨r, -, rfl⟩ := Option.map_eq_some_iff.mp hmap.symm
      rcases hst with hst | hst <;> cases hst
  | @written s i m worker phase eff wr _ hd hp hw _ hj _ hmap =>
      rw [hr'] at hmap
      obtain ⟨r, hr, rfl⟩ := Option.map_eq_some_iff.mp hmap.symm
      obtain ⟨hmem, hid⟩ := Store.find_eq_some.mp hr
      have hm := hpaced r.createdAt (.inl ⟨r, hmem, hid, rfl⟩) s
      rw [hd] at hm
      have hwaited := (hm hj).1
      have hclosed : maxRetries ≤ m.retries → wr.status = .failed ∨ wr.status = .dlq →
          ∃ t, (values w.clock wr.status wr.fields r).completedAt = some t ∧
            r.createdAt + pace maxRetries ≤ t := by
        intro hle hwr
        refine ⟨w.clock, ?_, (Nat.add_le_add_left (hmono hle) _).trans hwaited⟩
        exact if_pos (hwr.elim (fun hf => .inr (.inl hf)) fun hd => .inr (.inr hd))
      cases hp.write hw with
      | start hrun _ _ =>
          change wr.status = .failed ∨ wr.status = .dlq at hst
          rw [hrun] at hst
          rcases hst with hst | hst <;> cases hst
      | success v hdone _ _ =>
          change wr.status = .failed ∨ wr.status = .dlq at hst
          rw [hdone] at hst
          rcases hst with hst | hst <;> cases hst
      | failed exc again _ _ _ => exact hclosed (hex s m worker exc again _ hd hj) hst
      | dlq exc again _ _ _ => exact hclosed (hex s m worker exc again _ hd hj) hst

end GivingUp

/-! ## Every run -/

section Runs
variable {J : JsonCodec} {allowed : List String} {es : List Event} {w : World} {pace : Nat → Nat}
  {j : Uuid} {r : Job}

/-- What carries the waits along a run. -/
structure Keeping (pace : Nat → Nat) (j : Uuid) (w : World) : Prop where
  ground : Ground w
  enqueued : Enqueued w
  copies : Copies w
  blanks : Blanks w
  timed : Timed w
  paced : Paced pace j w

theorem keeping_init (allowed : List String) : Keeping pace j (.init allowed) where
  ground := ground_init allowed
  enqueued := enqueued_init allowed
  copies := copies_init allowed
  blanks := blanks_init allowed
  timed := timed_init allowed
  paced _ _ _ := trivial

theorem Keeping.step {w' : World} {e : Event} (h : Keeping pace j w) (hzero : pace 0 = 0)
    (hP : Unhurried J pace j w e) (hs : (system J).step w e = some w') : Keeping pace j w' where
  ground := h.ground.step (step_cases hs)
  enqueued := h.enqueued.step h.ground (step_cases hs)
  copies := h.copies.step h.ground.bounded (step_cases hs)
  blanks := h.blanks.step (step_cases hs)
  timed := h.timed.step h.ground h.blanks hs
  paced := h.paced.step hzero hP h.ground h.enqueued h.copies h.timed hs

theorem run_unrushed (hzero : pace 0 = 0)
    (h : (system J).Run (Unhurried J pace r.id) (.init allowed) es w) (hr : r ∈ w.db.rows) :
    r.Unrushed pace w := by
  have hk := h.invariant (I := Keeping pace r.id) (fun hk hP hs => hk.step hzero hP hs)
    (keeping_init allowed)
  intro s m worker phase hd hj
  have hm := hk.paced r.createdAt (.inl ⟨r, hr, rfl, rfl⟩) s
  rw [hd] at hm
  exact (hm hj).1

theorem run_patient (hzero : pace 0 = 0) (hmono : Monotone pace)
    (h : (system J).Run (Unhurried J pace r.id) (.init allowed) es w)
    (hvalid : (system J).Along (fun w e => givesUp r.id (w, e) = false) (.init allowed) es)
    (hr : r ∈ w.db.rows) : r.Patient (pace maxRetries) := by
  have hinv := (Machine.run_and.mpr ⟨h, hvalid⟩).invariant
    (I := fun w => Keeping pace r.id w ∧ Exhausted r.id w ∧ Persistent (pace maxRetries) r.id w)
    (fun hi hP hs => ⟨hi.1.step hzero hP.1 hs, hi.2.1.step hP.2 hi.1.ground hs,
      hi.2.2.step hmono hi.1.paced hi.2.1 hi.1.ground hi.1.blanks hs⟩)
    ⟨keeping_init allowed, fun _ _ _ _ _ _ hd => (by cases hd), fun _ hf => (by cases hf)⟩
  exact hinv.2.2 r (Store.find_eq_some.mpr ⟨hr, rfl⟩)

end Runs

/-- Waits are kept in every run, whatever crashes, fails or is delivered twice, as long as the
job's `execute()` does not call `self.retry`.  Attempt `n` of a job begins at least `10 * n` seconds
after its creation, and `10 * (2 ^ n - 1)` where no lookup of the job fails and no publish of its
retries by `run`; and a job none of whose attempts ends in a ValidationError or a failing SETEX
is not given up before 50 and 310 seconds. -/
theorem backoff_respected {J : JsonCodec} {allowed : List String} {es : List Event} {w : World}
    {r : Job}
    (h : (system J).Run (fun w e => retriesItself r.id (w, e) = false) (.init allowed) es w)
    (hr : r ∈ w.db.rows) :
    r.Unrushed (fun n => 10 * n) w ∧
    ((system J).Along (fun w e => givesUp r.id (w, e) = false) (.init allowed) es →
      r.Patient 50) ∧
    ((system J).Along (fun w e => stumbles J r.id (w, e) = false) (.init allowed) es →
      r.Unrushed backoff w ∧
      ((system J).Along (fun w e => givesUp r.id (w, e) = false) (.init allowed) es →
        r.Patient 310)) := by
  have hten : ∀ n < maxRetries, 10 * (n + 1) ≤ 10 * n + countdown n := by
    intro n _
    have hpos : 1 ≤ Nat.pow 2 n := Nat.one_le_two_pow
    unfold countdown
    omega
  have hlinear : (system J).Run (Unhurried J (fun n => 10 * n) r.id) (.init allowed) es w :=
    h.imp (I := fun _ => True) (fun _ _ _ => trivial)
      (fun _ hown => ⟨hown, hten, fun _ n _ => Nat.le_of_eq (Nat.mul_succ 10 n)⟩) trivial
  refine ⟨run_unrushed rfl hlinear hr, ?_, ?_⟩
  · intro hvalid
    refine run_patient rfl ?_ hlinear hvalid hr
    intro a b hab
    exact Nat.mul_le_mul_left 10 hab
  · intro hfound
    have hdoubling : (system J).Run (Unhurried J backoff r.id) (.init allowed) es w :=
      (Machine.run_and.mpr ⟨h, hfound⟩).imp (I := fun _ => True) (fun _ _ _ => trivial)
        (fun _ hP => ⟨hP.1, fun n _ => Nat.le_of_eq (backoff_succ n), fun hst =>
          absurd hst (by rw [hP.2]; exact Bool.false_ne_true)⟩) trivial
    refine ⟨run_unrushed rfl hdoubling hr, ?_⟩
    intro hvalid
    refine run_patient rfl ?_ hdoubling hvalid hr
    refine monotone_nat_of_le_succ ?_
    intro n
    rw [backoff_succ]
    exact Nat.le_add_right _ _

/-- One attempt fails, and its retry waits. -/
def failEvents (s : SlotId) : List Event :=
  .take s "v" :: List.replicate 3 (.work s .returns) ++
    .work s (.ends (.exception ⟨"failed", "Traceback"⟩)) ::
    List.replicate 3 (.work s .returns) ++ [.tick (10 * Nat.pow 2 s)]

/-- Six attempts fail, each as soon as it may begin. -/
def givingUpEvents : List Event :=
  createEvents 0 "k" ++ (List.range 5).flatMap failEvents ++
    .take 5 "v" :: List.replicate 3 (.work 5 .returns) ++
    .work 5 (.ends (.exception ⟨"failed", "Traceback"⟩)) :: List.replicate 4 (.work 5 .returns)

/-- The bound is reached. -/
theorem backoff_respected_ping : ∃ w r,
    (system nullCodec).exec pingWorld givingUpEvents = some w ∧ r ∈ w.db.rows ∧
    (r.status, r.createdAt, r.completedAt) = (.dlq, 0, some 310) ∧
    r.Unrushed (fun n => 10 * n) w ∧ r.Unrushed backoff w ∧ r.Patient 310 := by
  obtain ⟨w, hw, hrun, hobs⟩ := Machine.exists_run_obs (system nullCodec)
    (fun w e => retriesItself 0 (w, e) = false) pingWorld givingUpEvents
    (fun w => (w.db.find 0).map fun r => (r.status, r.createdAt, r.completedAt))
    (some (.dlq, 0, some 310)) (by decide +kernel) (by decide +kernel)
  obtain ⟨r, hr, hrow⟩ := Option.map_eq_some_iff.mp hobs
  obtain ⟨hmem, hid⟩ := Store.find_eq_some.mp hr
  have hfound : (system nullCodec).Along (fun w e => stumbles nullCodec 0 (w, e) = false)
      pingWorld givingUpEvents := by decide +kernel
  have hvalid : (system nullCodec).Along (fun w e => givesUp 0 (w, e) = false)
      pingWorld givingUpEvents := by decide +kernel
  rw [← hid] at hrun hfound hvalid
  obtain ⟨hlinear, -, hrest⟩ := backoff_respected hrun hmem
  obtain ⟨hdoubling, hpatient⟩ := hrest hfound
  exact ⟨w, r, hw, hmem, hrow, hlinear, hdoubling, hpatient hvalid⟩

end Aegis
