/-
# `AegisWorkers.Tolerance` — what a row says whatever fails

`AegisWorkers.Coherence` is about fault-free runs.  When calls fail, workers crash, messages
are delivered twice and cancellations race with deliveries, a row no longer agrees with its
status in every column: a COMPLETED row may have never been started, and keep the error of an
earlier attempt.  What is left (`Job.Sound`) is still what the columns are read for.

    PENDING      nothing has been written but the INSERT
    RUNNING      an attempt has been counted
    the others   end at a time, and have an error or a result only if they have
    started_at   set if and only if an attempt has been counted, and by whom

Every time in a row lies between its creation and now.  Attempts that are counted stay counted,
and a row that has started, or has ended once, keeps a time of it (`Job.Onward`); that time may
be an earlier one afterwards, since a worker reads it before its UPDATE takes effect.
-/
import AegisWorkers.Coherence

namespace Aegis

open BaseTask JobService ReadCommitted

/-- What every row says at the time `now`. -/
structure Job.Sound (now : Time) (r : Job) : Prop where
  updated : r.createdAt ≤ r.updatedAt ∧ r.updatedAt ≤ now
  started : ∀ t, r.startedAt = some t → r.createdAt ≤ t ∧ t ≤ now
  completed : ∀ t, r.completedAt = some t → r.createdAt ≤ t ∧ t ≤ now
  startedAt : r.startedAt.isSome ↔ 0 < r.executionCount
  workerId : r.workerId.isSome ↔ 0 < r.executionCount
  pending : r.status = .pending → r.Blank
  running : r.status = .running → 0 < r.executionCount
  ended : r.status = .completed ∨ r.status = .failed ∨ r.status = .dlq → r.completedAt.isSome
  failed : r.status = .failed → r.errorDetail.isSome
  errorDetail : ∀ text, r.errorDetail = some text → text.length ≤ 4096 ∧ r.completedAt.isSome
  result : r.result.isSome → r.completedAt.isSome

/-- A later version of the row. -/
structure Job.Onward (r r' : Job) : Prop where
  origin : r.Origin r'
  executionCount : r.executionCount ≤ r'.executionCount
  startedAt : r.startedAt.isSome → r'.startedAt.isSome
  completedAt : r.completedAt.isSome → r'.completedAt.isSome

theorem Job.Onward.refl (r : Job) : r.Onward r :=
  ⟨.refl r, Nat.le_refl _, fun h => h, fun h => h⟩

theorem Job.Onward.trans {r r' r'' : Job} (h : r.Onward r') (h' : r'.Onward r'') : r.Onward r'' :=
  ⟨h.origin.trans h'.origin, Nat.le_trans h.executionCount h'.executionCount,
    h'.startedAt ∘ h.startedAt, h'.completedAt ∘ h.completedAt⟩

/-! ## What is written -/

section Writes
variable {r : Job} {now now' began : Time} {worker : Worker}

theorem Job.Sound.mono (h : r.Sound now) (hle : now ≤ now') : r.Sound now' :=
  { h with
    updated := ⟨h.updated.1, Nat.le_trans h.updated.2 hle⟩
    started := fun t ht => ⟨(h.started t ht).1, Nat.le_trans (h.started t ht).2 hle⟩
    completed := fun t ht => ⟨(h.completed t ht).1, Nat.le_trans (h.completed t ht).2 hle⟩ }

theorem Job.Sound.created_le (h : r.Sound now) : r.createdAt ≤ now :=
  Nat.le_trans h.updated.1 h.updated.2

/-- A row nobody has written since its INSERT. -/
theorem Job.Blank.sound (h : r.Blank) (hle : r.createdAt ≤ r.updatedAt ∧ r.updatedAt ≤ now) :
    r.Sound now where
  updated := hle
  started t ht := by rw [h.startedAt] at ht; cases ht
  completed t ht := by rw [h.completedAt] at ht; cases ht
  startedAt := by rw [h.startedAt, h.executionCount]; decide
  workerId := by rw [h.workerId, h.executionCount]; decide
  pending _ := h
  running hst := by rw [h.status] at hst; cases hst
  ended hst := by rw [h.status] at hst; rcases hst with hst | hst | hst <;> cases hst
  failed hst := by rw [h.status] at hst; cases hst
  errorDetail text ht := by rw [h.errorDetail] at ht; cases ht
  result hr := by rw [h.result] at hr; cases hr

/-- `before_start` starts the row now. -/
theorem Job.Sound.start (h : r.Sound now) :
    (values now .running { workerId := some worker, incrementExecution := true } r).Sound now where
  updated := ⟨h.created_le, Nat.le_refl _⟩
  started t ht := by
    obtain rfl : now = t := Option.some.inj ht
    exact ⟨h.created_le, Nat.le_refl _⟩
  completed := h.completed
  startedAt := ⟨fun _ => Nat.succ_pos _, fun _ => rfl⟩
  workerId := ⟨fun _ => Nat.succ_pos _, fun _ => rfl⟩
  pending hst := by cases hst
  running _ := Nat.succ_pos _
  ended hst := by rcases hst with hst | hst | hst <;> cases hst
  failed hst := by cases hst
  errorDetail := h.errorDetail
  result := h.result

/-- An UPDATE that ends the row now, with an error of a legal length if it fails the row. -/
theorem Job.Sound.finish (h : r.Sound now) {st : JobStatus} {u : StatusUpdate}
    (hst : st = .completed ∨ st = .failed ∨ st = .dlq) (hworker : u.workerId = none)
    (hinc : u.incrementExecution = false) (herr : st = .failed → u.errorDetail.isSome) :
    (values now st u r).Sound now := by
  have hend : (values now st u r).completedAt = some now := if_pos hst
  have hne : st ≠ .running := by
    rcases hst with rfl | rfl | rfl <;> exact JobStatus.noConfusion
  have hstart : (values now st u r).startedAt = r.startedAt := if_neg hne
  have hcount : (values now st u r).executionCount = r.executionCount := by
    simp only [values, hinc, Bool.false_eq_true, if_false]
  have hby : (values now st u r).workerId = r.workerId := by
    simp only [values, hworker, Option.none_or]
  refine ⟨⟨h.created_le, Nat.le_refl _⟩, ?_, ?_, ?_, ?_, ?_, ?_, ?_, ?_, ?_, ?_⟩
  · rw [hstart]
    exact h.started
  · intro t ht
    obtain rfl : now = t := Option.some.inj (hend.symm.trans ht)
    exact ⟨h.created_le, Nat.le_refl _⟩
  · rw [hstart, hcount]
    exact h.startedAt
  · rw [hby, hcount]
    exact h.workerId
  · intro hp
    obtain rfl : st = .pending := hp
    rcases hst with hst | hst | hst <;> cases hst
  · exact fun hr => absurd hr hne
  · exact fun _ => hend ▸ rfl
  · intro hf
    obtain ⟨text, htext⟩ := Option.isSome_iff_exists.mp (herr hf)
    simp only [values, htext, Option.map_some, Option.some_or, Option.isSome_some]
  · intro text ht
    refine ⟨?_, hend ▸ rfl⟩
    cases he : u.errorDetail with
    | none =>
        simp only [values, he, Option.map_none, Option.none_or] at ht
        exact (h.errorDetail text ht).1
    | some text' =>
        simp only [values, he, Option.map_some, Option.some_or, Option.some.injEq] at ht
        rw [← ht, truncate_length]
        exact Nat.min_le_left _ _
  · exact fun _ => hend ▸ rfl

/-- The UPDATE of `cancel_job`, in a transaction that began after the row was created. -/
theorem Job.Sound.cancel (h : r.Sound now) (hbegan : r.createdAt ≤ began ∧ began ≤ now) :
    ((cancelPatch began).apply r).Sound now :=
  { h with
    updated := hbegan
    pending := fun hst => by cases hst
    running := fun hst => by cases hst
    ended := fun hst => by rcases hst with hst | hst | hst <;> cases hst
    failed := fun hst => by cases hst }

/-- The updates of `on_failure`. -/
theorem Job.Sound.bury (h : r.Sound now) {exc : Exc} {again ok : Bool} {stage : FailureStage}
    {wr : Write} (hw : (onFailure exc again ok stage).write = some wr) :
    (values now wr.status wr.fields r).Sound now := by
  cases stage with
  | failed =>
      obtain rfl := Option.some.inj hw
      exact h.finish (.inr (.inl rfl)) rfl rfl fun _ => rfl
  | dlq =>
      obtain rfl := Option.some.inj hw
      exact h.finish (.inr (.inr rfl)) rfl rfl fun hf => by cases hf
  | _ => cases hw

/-- Any status update of a hook. -/
theorem Piece.sound {J : JsonCodec} {m : Message} {cached : Option String} {phase : Phase}
    {i : Input} {eff : Effects} {wr : Write} (hp : Piece J m worker cached now phase i eff)
    (hw : eff.write = some wr) (h : r.Sound now) :
    (values now wr.status wr.fields r).Sound now := by
  cases hp with
  | start => obtain rfl := Option.some.inj hw; exact h.start
  | startFails exc => obtain rfl := Option.some.inj hw; exact h.start
  | success v =>
      obtain rfl := Option.some.inj hw
      exact h.finish (.inl rfl) rfl rfl fun hf => by cases hf
  | successFails v exc =>
      obtain rfl := Option.some.inj hw
      exact h.finish (.inl rfl) rfl rfl fun hf => by cases hf
  | failure exc again stage => exact h.bury hw
  | failureFails exc exc' again stage _ => exact h.bury hw
  | _ => cases hw

/-- A status update counts attempts up, and unsets no time. -/
theorem Job.onward (r : Job) (now : Time) (st : JobStatus) (u : StatusUpdate) :
    r.Onward (values now st u r) where
  origin := ⟨rfl, rfl, rfl, rfl, rfl, rfl, rfl, rfl⟩
  executionCount := by
    simp only [values]
    split
    · exact Nat.le_succ _
    · exact Nat.le_refl _
  startedAt := by
    intro hstart
    simp only [values]
    split
    · rfl
    · exact hstart
  completedAt := by
    intro hend
    simp only [values]
    split
    · rfl
    · exact hend

end Writes

/-! ## Transactions -/

/-- The transaction began at `began`, when job `j` was there. -/
def World.Since (w : World) (j : Uuid) (began : Time) : Prop :=
  began ≤ w.clock ∧ ∃ r, w.db.find j = some r ∧ r.createdAt ≤ began

/-- The transaction of call `c` began in the past, and its job was there if it updates it. -/
def Call.Timely (w : World) (c : CallId) : Call → Prop
  | .createJob _ (.missed began) => began ≤ w.clock
  | .retryDlqJob _ (.checked began _) => began ≤ w.clock
  | .submitting sub _ => sub.job.createdAt = sub.began ∧ sub.began ≤ w.clock
  | .cancelJob j (.checked began _) => w.Since j began
  | .cancelJob j (.revoked began) => w.Since j began
  | .cancelJob j .updated => ∃ began, w.db.updates c = [(j, cancelPatch began)] ∧ w.Since j began
  | _ => True

/-- The rows are sound, and the transactions under way are timely. -/
structure Timed (w : World) : Prop where
  rows : ∀ r ∈ w.db.rows, r.Sound w.clock
  calls : ∀ c, (w.calls c).Timely w c

theorem timed_init (allowed : List String) : Timed (.init allowed) :=
  ⟨fun r hr => (by cases hr), fun _ => trivial⟩

section Step
variable {J : JsonCodec} {w w' : World} {e : Event} {c : CallId} {j : Uuid} {began : Time}

theorem World.Since.mono (h : w.Since j began) (hclock : w.clock ≤ w'.clock)
    (hrows : ∀ r ∈ w.db.rows, ∃ r' ∈ w'.db.rows, r.Origin r') : w'.Since j began := by
  obtain ⟨hle, r, hr, hcreated⟩ := h
  obtain ⟨hmem, hid⟩ := Store.find_eq_some.mp hr
  obtain ⟨r', hmem', ho⟩ := hrows r hmem
  refine ⟨Nat.le_trans hle hclock, r', Store.find_eq_some.mpr ⟨hmem', ho.id.trans hid⟩, ?_⟩
  exact Nat.le_trans (Nat.le_of_eq ho.createdAt) hcreated

theorem Call.Timely.mono {x : Call} (h : x.Timely w c) (hclock : w.clock ≤ w'.clock)
    (hrows : ∀ r ∈ w.db.rows, ∃ r' ∈ w'.db.rows, r.Origin r')
    (hupd : w'.db.updates c = w.db.updates c) : x.Timely w' c := by
  cases x with
  | createJob req pc =>
      cases pc with
      | called => trivial
      | missed began => exact Nat.le_trans h hclock
  | retryDlqJob j pc =>
      cases pc with
      | called => trivial
      | checked began original => exact Nat.le_trans h hclock
  | submitting sub stage => exact ⟨h.1, Nat.le_trans h.2 hclock⟩
  | cancelJob j pc =>
      cases pc with
      | called => trivial
      | checked began job => exact World.Since.mono h hclock hrows
      | revoked began => exact World.Since.mono h hclock hrows
      | updated =>
          obtain ⟨began, hu, hs⟩ := h
          exact ⟨began, hupd.trans hu, hs.mono hclock hrows⟩
  | _ => trivial

/-- A row that an INSERT brings is created when its transaction began. -/
theorem Builds.timely {n : Nat} {sub : Submission} (hb : Builds w (w.calls c) n sub)
    (h : (w.calls c).Timely w c) : sub.job.createdAt = sub.began ∧ sub.began ≤ w.clock := by
  generalize w.calls c = x at hb h
  cases hb with
  | create => exact ⟨rfl, h⟩
  | retry => exact ⟨rfl, h⟩

/-- A call that moves stays timely. -/
theorem ApiStep.timely (ha : ApiStep w c w') (hg : Ground w) (h : Timed w) :
    (w'.calls c).Timely w' c := by
  have hc := h.calls c
  have hclock := ha.clock
  cases ha with
  | enter op hidle =>
      have hx := enter_cases w.allowedTaskNames op
      rw [calls_setCall_self]
      generalize JobService.enter w.allowedTaskNames op = y at hx ⊢
      cases hx <;> trivial
  | @move y hl =>
      rw [calls_setCall_self]
      generalize w.calls c = x at hc hl
      cases hl with
      | hit _ => trivial
      | miss _ => exact Nat.le_refl w.clock
      | @checkCancel j job hf _ =>
          exact ⟨Nat.le_refl w.clock, job, hf, (h.rows job (Store.find_eq_some.mp hf).1).created_le⟩
      | noTask _ => exact hc
      | checkRetry _ _ => exact Nat.le_refl w.clock
      | refresh _ => trivial
  | raise _ _ =>
      rw [calls_raise_self]
      trivial
  | violate _ _ =>
      rw [calls_raise_self]
      trivial
  | flush hb _ =>
      rw [calls_setCall_self]
      exact hb.timely hc
  | send hx =>
      rw [hx] at hc
      rw [calls_setCall_self]
      exact hc
  | @land sub t hx =>
      rw [hx] at hc
      rw [calls_setCall_self]
      exact ⟨hc.1, Nat.le_trans hc.2 (Nat.le_of_eq hclock.symm)⟩
  | @lock j began db hx hl =>
      rw [hx] at hc
      have hs := hg.sessions c
      rw [hx] at hs
      obtain ⟨rfl, -⟩ := Store.lock_eq_some hl
      rw [calls_setCall_self]
      refine ⟨began, (Store.updates_cons rfl c).trans ?_, hc⟩
      rw [if_pos rfl, hs.2]
  | cancel _ =>
      rw [calls_return_self]
      trivial
  | revoke _ hx _ =>
      rw [hx] at hc
      rw [calls_setCall_self]
      exact hc

/-- The rows after the commit of a `cancel_job`. -/
theorem ApiStep.cancels_row (ha : ApiStep w c w') (hg : Ground w) (h : Timed w)
    (hc : w.calls c = .cancelJob j .updated) {r' : Job} (hr' : w'.db.find j = some r') :
    ∃ r, w.db.find j = some r ∧ r.Onward r' ∧ r'.Sound w.clock := by
  have hkeep : w'.db.find j = w.db.find j →
      ∃ r, w.db.find j = some r ∧ r.Onward r' ∧ r'.Sound w.clock := by
    intro hf
    rw [hf] at hr'
    exact ⟨r', hr', .refl r', h.rows r' (Store.find_eq_some.mp hr').1⟩
  cases ha with
  | enter op hidle => rw [hidle] at hc; cases hc
  | move hl => rw [hc] at hl; cases hl
  | raise _ _ => exact hkeep rfl
  | violate hb _ => rw [hc] at hb; cases hb
  | flush hb _ => rw [hc] at hb; cases hb
  | send hx => rw [hc] at hx; cases hx
  | land hx => rw [hc] at hx; cases hx
  | lock hx _ => rw [hc] at hx; cases hx
  | revoke _ hx _ => rw [hc] at hx; cases hx
  | @cancel j' hx =>
      obtain ⟨rfl, -⟩ : j' = j ∧ CancelPc.updated = .updated := by
        rw [hc] at hx
        exact ⟨(Call.cancelJob.inj hx).1.symm, rfl⟩
      have hs := hg.sessions c
      rw [hc] at hs
      have htimely := h.calls c
      rw [hc] at htimely
      obtain ⟨began, hupd, hle, r, hr, hcreated⟩ := htimely
      have hrows : (w.db.commit c).rows = w.db.rows.map ((cancelPatch began).applyAt j') := by
        simp only [Store.rows_commit, hs.1, hupd, List.append_nil]
        rfl
      have hfind := find_cancelled hrows
      rw [db_return, db_observe, hfind, hr] at hr'
      obtain rfl := Option.some.inj hr'
      have hsound := h.rows r (Store.find_eq_some.mp hr).1
      refine ⟨r, hr, ⟨keepsOrigin_cancel began r, Nat.le_refl _, fun h => h, fun h => h⟩, ?_⟩
      exact hsound.cancel ⟨hcreated, hle⟩

/-- A row is a later version of an old one, or is new; and it is sound. -/
theorem Timed.row (h : Timed w) (hg : Ground w) (hbl : Blanks w) (he : SysStep J w e w')
    (hclock : w.clock ≤ w'.clock) {r' : Job} (hr' : r' ∈ w'.db.rows) :
    r'.Sound w'.clock ∧ ∀ r, w.db.find r'.id = some r → r.Onward r' := by
  have hf : w'.db.find r'.id = some r' := Store.find_eq_some.mpr ⟨hr', rfl⟩
  cases he.row hg r'.id with
  | stays hsame =>
      have hold : w.db.find r'.id = some r' := hsame ▸ hf
      refine ⟨(h.rows r' (Store.find_eq_some.mp hold).1).mono hclock, ?_⟩
      intro r hr
      obtain rfl := Option.some.inj (hold.symm.trans hr)
      exact .refl r'
  | @landed c sub t _ hx _ hnone hnew =>
      obtain rfl := Option.some.inj (hf.symm.trans hnew)
      have htimely := h.calls c
      rw [hx] at htimely
      refine ⟨((hbl c sub _ hx).row t).sound ⟨Nat.le_of_eq htimely.1, ?_⟩, ?_⟩
      · exact Nat.le_trans htimely.2 hclock
      · intro r hr
        rw [hnone] at hr
        cases hr
  | cancelled hc hx _ =>
      rcases he.api_or_offstage with ⟨c', hc', ha⟩ | ⟨hnone, -⟩
      · obtain rfl := Option.some.inj (hc'.symm.trans hc)
        obtain ⟨r, hr, hon, hsound⟩ := ha.cancels_row hg h hx hf
        refine ⟨hsound.mono hclock, ?_⟩
        intro r₁ hr₁
        obtain rfl := Option.some.inj (hr.symm.trans hr₁)
        exact hon
      · rw [hnone] at hc
        cases hc
  | written _ _ hp hw _ _ _ hmap =>
      rw [hf] at hmap
      obtain ⟨r, hr, hval⟩ := Option.map_eq_some_iff.mp hmap.symm
      have hsound := h.rows r (Store.find_eq_some.mp hr).1
      subst hval
      refine ⟨(hp.sound hw hsound).mono hclock, ?_⟩
      intro r₁ hr₁
      obtain rfl := Option.some.inj (hr.symm.trans hr₁)
      exact r.onward _ _ _

theorem Timed.step (h : Timed w) (hg : Ground w) (hbl : Blanks w)
    (hs : (system J).step w e = some w') : Timed w' := by
  have he := step_cases hs
  have hclock := step_clock hs
  have hrows : ∀ r ∈ w.db.rows, ∃ r' ∈ w'.db.rows, r.Origin r' :=
    fun _ hr => he.origin hg.sessions hr
  refine ⟨fun r' hr' => (h.row hg hbl he hclock hr').1, ?_⟩
  intro c
  rcases he.api_or_offstage with ⟨c', -, ha⟩ | ⟨-, ho⟩
  · by_cases hne : c = c'
    · subst hne
      exact ha.timely hg h
    · rw [ha.calls_ne hne]
      exact (h.calls c).mono hclock hrows (ha.session_ne hne).2
  · rw [ho.calls]
    exact (h.calls c).mono hclock hrows (ho.updates c)

end Step

section Run
variable {J : JsonCodec} {P : World → Event → Prop} {allowed : List String} {es : List Event}
  {w w' : World}

theorem run_timed (h : (system J).Run P (.init allowed) es w) : Ground w ∧ Blanks w ∧ Timed w :=
  run_invariant (I := fun w => Blanks w ∧ Timed w) h (ground_init allowed)
    ⟨blanks_init allowed, timed_init allowed⟩
    fun hg hi _ hs => ⟨hi.1.step (step_cases hs), hi.2.step hg hi.1 hs⟩

/-- A row goes on as a later version of itself. -/
theorem run_onward (hi : Ground w ∧ Blanks w ∧ Timed w) (h : (system J).Run P w es w') {r : Job}
    (hr : r ∈ w.db.rows) : ∃ r' ∈ w'.db.rows, r.Onward r' := by
  refine (h.invariant (I := fun v => (Ground v ∧ Blanks v ∧ Timed v) ∧
    ∃ r' ∈ v.db.rows, r.Onward r') ?_ ⟨hi, r, hr, .refl r⟩).2
  rintro v v' e ⟨⟨hg, hbl, ht⟩, r₁, hr₁, hon⟩ - hs
  have he := step_cases hs
  refine ⟨⟨hg.step he, hbl.step he, ht.step hg hbl hs⟩, ?_⟩
  obtain ⟨r₂, hr₂, ho⟩ := he.origin hg.sessions hr₁
  have hfind : v.db.find r₂.id = some r₁ := Store.find_eq_some.mpr ⟨hr₁, ho.id.symm⟩
  exact ⟨r₂, hr₂, hon.trans ((ht.row hg hbl he (step_clock hs) hr₂).2 r₁ hfind)⟩

end Run

/-- Whatever fails, whoever crashes and whatever is delivered twice, every row of every
reachable state is sound; its attempts stay counted, and what has a time keeps one. -/
theorem rows_sound {J : JsonCodec} {allowed : List String} {es fs : List Event} {w w' : World}
    (h : (system J).Run (fun _ _ => True) (.init allowed) es w)
    (h' : (system J).Run (fun _ _ => True) w fs w') :
    (∀ r ∈ w.db.rows, r.Sound w.clock) ∧
      ∀ r ∈ w.db.rows, ∃ r' ∈ w'.db.rows, r.Onward r' ∧ r'.Sound w'.clock := by
  have htimed := run_timed h
  refine ⟨htimed.2.2.rows, ?_⟩
  intro r hr
  obtain ⟨r', hr', hon⟩ := run_onward htimed h' hr
  exact ⟨r', hr', hon, (run_timed (h.append h')).2.2.rows r' hr'⟩

/-- The start of an attempt is lost with its UPDATE, and the job completes uncounted. -/
theorem rows_sound_ping : ∃ w w' r, (system nullCodec).exec pingWorld
      (createEvents 0 "k" ++ [.tick 5]) = some w ∧ r ∈ w.db.rows ∧
    (system nullCodec).exec w (.take 0 "v" :: .work 0 (.raises ⟨"down", "Traceback"⟩) ::
      .work 0 .returns :: .work 0 .returns :: finishEvents 0) = some w' ∧
    ∃ r' ∈ w'.db.rows, r.Onward r' ∧ r'.Sound w'.clock := by
  obtain ⟨w, hw, hrun, hlen⟩ := Machine.exists_run_obs (system nullCodec) (fun _ _ => True)
    pingWorld (createEvents 0 "k" ++ [.tick 5]) (fun w => w.db.rows.head?) (some _) rfl (by decide)
  have hexec : ((system nullCodec).exec pingWorld ((createEvents 0 "k" ++ [.tick 5]) ++
      (.take 0 "v" :: .work 0 (.raises ⟨"down", "Traceback"⟩) :: .work 0 .returns ::
        .work 0 .returns :: finishEvents 0))).isSome := by decide
  rw [Machine.exec_append, hw, Option.bind_some] at hexec
  obtain ⟨w', hw'⟩ := Option.isSome_iff_exists.mp hexec
  have hr := List.mem_of_mem_head? hlen
  exact ⟨w, w', _, hw, hr, hw', (rows_sound hrun (Machine.run_of_computed hw')).2 _ hr⟩

end Aegis
