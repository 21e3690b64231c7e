/-
# `AegisWorkers.Retries` — one success for each lineage, if the retries wait

`retry_dlq_job` checks that its row is DLQ, and the row stays DLQ: every further call starts
another job, whatever the earlier ones have come to.  What keeps the successes of a lineage
to one is the operator's patience (`Restful`): a retry is asked for when no job of the
lineage has succeeded, none is outstanding, and no other retry of the lineage is on its way.

    InLineage db ρ j    row `j` is `ρ`, or reaches it through `parent_job_id`
    w.Alive j           job `j` is outstanding, or `on_success` has been called for it
    w.Retrying ρ c      call `c` is between its SELECT of a row of the lineage and its end

`Single` is the invariant: of all the live jobs of a lineage and the retries on their way,
there is at most one.
-/
import AegisWorkers.Accounting
import AegisWorkers.Lifecycle
import AegisWorkers.Lineage

namespace Aegis

open BaseTask JobService ReadCommitted

/-! ## Lineages -/

/-- The job `parent_job_id` of row `j` names. -/
def parentId (db : Db) (j : Uuid) : Option Uuid := (db.find j).bind Job.parentJobId

/-- Row `j` is `ρ`, or reaches it through `parent_job_id`. -/
def InLineage (db : Db) (ρ j : Uuid) : Prop :=
  (db.find j).isSome ∧ ∃ n, Forest.climb (parentId db) n j = some ρ

namespace World

/-- A message of the job is outstanding, or `on_success` has been called for it. -/
def Alive (w : World) (j : Uuid) : Prop := w.Outstanding j ∨ w.completions j ≠ 0

end World

/-- The row a call is going to retry. -/
def Call.retries? : Call → Option Uuid
  | .retryDlqJob _ (.checked _ original) => some original.id
  | .submitting sub .flushed => sub.job.parentJobId
  | .submitting sub (.sent _) => sub.job.parentJobId
  | _ => none

/-- Call `c` has read a row of the lineage of `ρ` as DLQ, and has neither committed its retry
nor failed. -/
def World.Retrying (w : World) (ρ : Uuid) (c : CallId) : Prop :=
  ∃ i, (w.calls c).retries? = some i ∧ InLineage w.db ρ i

/-- No job of the lineage of `ρ` is alive, and no retry of it is on its way. -/
def World.Resting (w : World) (ρ : Uuid) : Prop :=
  (∀ j, InLineage w.db ρ j → ¬ w.Alive j) ∧ ∀ c, ¬ w.Retrying ρ c

/-- A `retry_dlq_job` that finds a DLQ row of the lineage finds the lineage at rest. -/
def Restful (ρ : Uuid) (w : World) (e : Event) : Prop :=
  ∀ c i r, e = .api c → w.calls c = .retryDlqJob i .called → w.db.find i = some r →
    r.status = .dlq → InLineage w.db ρ i → w.Resting ρ

/-! ## The lineage of a row is settled when it is committed -/

/-- Rows and retries on their way name rows that are committed. -/
structure Parented (w : World) : Prop where
  rows : ∀ r ∈ w.db.rows, ∀ i, r.parentJobId = some i → (w.db.find i).isSome
  calls : ∀ c i, (w.calls c).retries? = some i → (w.db.find i).isSome

section Lineage
variable {J : JsonCodec} {w w' : World} {e : Event} {ρ i j : Uuid}

theorem Lineages.parented {p : Past} (h : Lineages p w) : Parented w := by
  have hfind : ∀ {r : Job}, r ∈ w.db.rows → (w.db.find r.id).isSome := by
    intro r hr
    rw [Store.find_eq_some.mpr ⟨hr, rfl⟩]
    rfl
  have hstems : ∀ {c : CallId} {r : Job} {i : Uuid}, r.Stems p w c → r.parentJobId = some i →
      (w.db.find i).isSome := by
    intro c r i hst hi
    cases hst with
    | created _ hmade =>
        rw [hmade.parentJobId] at hi
        cases hi
    | retried _ hmem hret =>
        rw [hret.parentJobId, Option.some.injEq] at hi
        exact hi ▸ hfind hmem
  constructor
  · intro r hr i hi
    obtain ⟨c, -, hst⟩ := h.rows r hr
    exact hstems hst hi
  · intro c i hi
    cases hc : w.calls c with
    | retryDlqJob j pc =>
        cases pc with
        | called => rw [hc] at hi; cases hi
        | checked began original =>
            rw [hc] at hi
            obtain rfl := Option.some.inj hi
            obtain ⟨-, r, hr, ho⟩ := h.checked c j began original hc
            exact ho.id ▸ hfind hr
    | submitting sub stage =>
        rw [hc] at hi
        cases stage with
        | flushed => exact hstems (h.submitting c sub _ hc) hi
        | sent t => exact hstems (h.submitting c sub _ hc) hi
        | committed => cases hi
    | _ => rw [hc] at hi; cases hi

theorem Parented.closed (h : Parented w) (a b : Uuid) (_ : (w.db.find a).isSome)
    (hb : parentId w.db a = some b) : (w.db.find b).isSome := by
  obtain ⟨r, hr, hp⟩ := Option.bind_eq_some_iff.mp hb
  exact h.rows r (Store.find_eq_some.mp hr).1 b hp

/-- A row keeps its parent. -/
theorem parentId_step (hg : Ground w) (he : SysStep J w e w') (hi : (w.db.find i).isSome) :
    parentId w'.db i = parentId w.db i := by
  obtain ⟨r, hr⟩ := Option.isSome_iff_exists.mp hi
  obtain ⟨hmem, hid⟩ := Store.find_eq_some.mp hr
  obtain ⟨r', hmem', ho⟩ := he.origin hg.sessions hmem
  have hr' : w'.db.find i = some r' := Store.find_eq_some.mpr ⟨hmem', ho.id.trans hid⟩
  rw [parentId, parentId, hr, hr']
  exact ho.parentJobId

theorem climb_step (h : Parented w) (hg : Ground w) (he : SysStep J w e w') {n : Nat}
    (hi : (w.db.find i).isSome) :
    Forest.climb (parentId w'.db) n i = Forest.climb (parentId w.db) n i :=
  Forest.climb_congr (P := fun i => (w.db.find i).isSome) h.closed
    (fun _ ha => parentId_step hg he ha) hi

/-- A row stays in its lineage, and comes to no other. -/
theorem inLineage_step (h : Parented w) (hg : Ground w) (he : SysStep J w e w')
    (hi : (w.db.find i).isSome) : InLineage w'.db ρ i ↔ InLineage w.db ρ i := by
  have hi' := he.find_isSome hg.sessions hi
  constructor
  · rintro ⟨-, n, hn⟩
    exact ⟨hi, n, climb_step h hg he hi ▸ hn⟩
  · rintro ⟨-, n, hn⟩
    exact ⟨hi', n, (climb_step h hg he hi).trans hn⟩

/-- The root of a lineage with a row in it is a row. -/
theorem InLineage.root (h : Parented w) (hj : InLineage w.db ρ j) : (w.db.find ρ).isSome := by
  obtain ⟨hsome, n, hn⟩ := hj
  exact Forest.climb_mem (P := fun i => (w.db.find i).isSome) h.closed hsome hn

/-- A row that is not new was committed before, or a submission has just committed it. -/
theorem find_step (hg : Ground w) (he : SysStep J w e w') (hi : (w'.db.find i).isSome) :
    (w.db.find i).isSome ∨ ∃ c sub t, e.call? = some c ∧
      w.calls c = .submitting sub (.sent t) ∧ sub.job.id = i ∧ w.db.find i = none ∧
      w'.db.find i = some (sub.row t) := by
  cases he.row hg i with
  | stays hf => exact .inl (hf ▸ hi)
  | landed hc hx hid hnone hf => exact .inr ⟨_, _, _, hc, hx, hid, hnone, hf⟩
  | cancelled _ _ hf => rw [hf, Option.isSome_map] at hi; exact .inl hi
  | written _ _ _ _ _ _ _ hf => rw [hf, Option.isSome_map] at hi; exact .inl hi

end Lineage

/-! ## What a step makes alive, and what it starts to retry -/

section Step
variable {J : JsonCodec} {w w' : World} {e : Event} {ρ i j : Uuid} {c : CallId}

/-- A job comes alive by `send_task`. -/
theorem alive_step (hb : Bounded w) (he : SysStep J w e w') (h : w'.Alive j) : w.Alive j ∨
    ∃ c sub, e.call? = some c ∧ w.calls c = .submitting sub .flushed ∧ sub.job.id = j := by
  rcases h with ⟨s, hs⟩ | hcomp
  · have hold : ∀ {s₀ : SlotId} {m₀ m : Message}, (w.slots s₀).message? = some m₀ →
        m₀.jobId = m.jobId → (some m).map Message.jobId = some j → w.Alive j := by
      intro s₀ m₀ m hm hcopy hj
      refine .inl ⟨s₀, ?_⟩
      rw [Slot.jobId?, hm]
      exact (congrArg some hcopy).trans hj
    cases he.slot hb s with
    | stays hsame => exact .inl (.inl ⟨s, hsame ▸ hs⟩)
    | published _ hc hx hs' _ =>
        rw [hs'] at hs
        exact .inr ⟨_, _, hc, hx, Option.some.inj hs⟩
    | retried _ _ hs₀ hp hq hs' =>
        rw [hs'] at hs
        exact .inl (hold (by rw [hs₀]; rfl) (hp.queue_copy hq).jobId.symm hs)
    | redelivered _ _ hs₀ hs' =>
        rw [hs'] at hs
        exact .inl (hold (by rw [hs₀]; rfl) rfl hs)
    | dropped _ _ _ hs' => rw [hs'] at hs; cases hs
    | taken _ hs₀ _ hs' =>
        rw [hs'] at hs
        exact .inl (hold (by rw [hs₀]; rfl) rfl hs)
    | advanced _ hs₀ _ _ hs' =>
        rw [hs'] at hs
        exact .inl (hold (by rw [hs₀]; rfl) rfl hs)
    | acknowledged _ _ _ _ hs' => rw [hs'] at hs; cases hs
    | crashed _ hs₀ hs' =>
        rw [hs'] at hs
        exact .inl (hold (by rw [hs₀]; rfl) rfl hs)
  · rcases completions_step (j := j) he with hsame | ⟨s, _, m, _, _, -, hs, hj, -⟩
    · exact .inl (.inr (hsame ▸ hcomp))
    · refine .inl (.inl ⟨s, ?_⟩)
      rw [hs]
      exact congrArg some hj

/-- A committed job does not come alive any more. -/
theorem alive_of_row (hg : Ground w) (he : SysStep J w e w') (hj : (w'.db.find j).isSome)
    (h : w'.Alive j) : w.Alive j := by
  rcases alive_step hg.bounded he h with h | ⟨c, sub, hc, hx, rfl⟩
  · exact h
  · exfalso
    rcases find_step hg he hj with hrow | ⟨c', sub', t, hc', hx', -⟩
    · rw [hg.sessions.unborn hx nofun] at hrow
      cases hrow
    · obtain rfl : c = c' := Option.some.inj (hc.symm.trans hc')
      rw [hx] at hx'
      cases hx'

theorem Builds.retries? {x : Call} {n : Nat} {sub : Submission} (h : Builds w x n sub)
    (hi : sub.job.parentJobId = some i) : x.retries? = some i := by
  cases h with
  | create => cases hi
  | retry => exact hi

/-- A call goes on with the row it retries, or has just read one as DLQ. -/
theorem ApiStep.retries? (h : ApiStep w c w') (hi : (w'.calls c).retries? = some i) :
    (w.calls c).retries? = some i ∨
      ∃ r, w.calls c = .retryDlqJob i .called ∧ w.db.find i = some r ∧ r.status = .dlq := by
  cases h with
  | enter op _ =>
      rw [calls_setCall_self] at hi
      have hx := enter_cases w.allowedTaskNames op
      generalize JobService.enter w.allowedTaskNames op = x at hx hi
      cases hx <;> cases hi
  | @move y hl =>
      rw [calls_setCall_self] at hi
      generalize w.calls c = x at hl ⊢
      cases hl with
      | checkRetry hf hd =>
          obtain rfl := (Store.find_eq_some.mp hf).2.symm.trans (Option.some.inj hi)
          exact .inr ⟨_, rfl, hf, hd⟩
      | _ => cases hi
  | flush hb _ =>
      rw [calls_setCall_self] at hi
      exact .inl (hb.retries? hi)
  | send hx =>
      rw [calls_setCall_self] at hi
      rw [hx]
      exact .inl hi
  | land _ => rw [calls_setCall_self] at hi; cases hi
  | lock _ _ => rw [calls_setCall_self] at hi; cases hi
  | revoke _ _ _ => rw [calls_setCall_self] at hi; cases hi
  | raise _ _ => rw [calls_raise_self] at hi; cases hi
  | violate _ _ => rw [calls_raise_self] at hi; cases hi
  | cancel _ => rw [calls_return_self] at hi; cases hi

/-- The commit of a retry ends it, and so does its failure. -/
theorem ApiStep.retried (h : ApiStep w c w') {sub : Submission} {t : Uuid}
    (hx : w.calls c = .submitting sub (.sent t)) : (w'.calls c).retries? = none := by
  cases h with
  | enter op hidle => rw [hx] at hidle; cases hidle
  | move hl => rw [hx] at hl; cases hl
  | raise _ _ => rw [calls_raise_self]; rfl
  | violate hb _ => rw [calls_raise_self]; rfl
  | flush hb _ => rw [hx] at hb; cases hb
  | send hx' => rw [hx] at hx'; cases hx'
  | land _ => rw [calls_setCall_self]; rfl
  | lock hx' _ => rw [hx] at hx'; cases hx'
  | cancel hx' => rw [hx] at hx'; cases hx'
  | revoke _ hx' _ => rw [hx] at hx'; cases hx'

/-- A row of a lineage was in it before, or a call has just committed it: as the root, or as
the retry it was on its way with. -/
theorem inLineage_cases (h : Parented w) (hg : Ground w) (he : SysStep J w e w')
    (hj : InLineage w'.db ρ j) : InLineage w.db ρ j ∨ ∃ c sub t, e.call? = some c ∧
      w.calls c = .submitting sub (.sent t) ∧ sub.job.id = j ∧ w.db.find j = none ∧
      (ρ = j ∨ w.Retrying ρ c) := by
  rcases find_step hg he hj.1 with hrow | ⟨c, sub, t, hc, hx, hid, hnone, hrow⟩
  · exact .inl ((inLineage_step h hg he hrow).mp hj)
  · refine .inr ⟨c, sub, t, hc, hx, hid, hnone, ?_⟩
    obtain ⟨-, n, hn⟩ := hj
    cases n with
    | zero => exact .inl (Option.some.inj hn).symm
    | succ n =>
        obtain ⟨i, hi, hn⟩ := Forest.climb_succ.mp hn
        rw [parentId, hrow] at hi
        have hret : (w.calls c).retries? = some i := by rw [hx]; exact hi
        have hsome := h.calls c i hret
        refine .inr ⟨i, hret, ?_⟩
        exact (inLineage_step h hg he hsome).mp ⟨he.find_isSome hg.sessions hsome, n, hn⟩

/-- A retry of a lineage was on its way before, or has just made its SELECT, and then the
lineage was at rest. -/
theorem retrying_cases (h : Parented w) (hg : Ground w) (hP : Restful ρ w e)
    (hs : (system J).step w e = some w') (hc : w'.Retrying ρ c) :
    w.Retrying ρ c ∨ e = .api c ∧ (∃ i, w.calls c = .retryDlqJob i .called) ∧ w.Resting ρ := by
  have he := step_cases hs
  obtain ⟨i, hi, hin⟩ := hc
  by_cases hce : e.call? = some c
  · rcases (step_api hce hs).retries? hi with hi₀ | ⟨r, hx, hf, hd⟩
    · exact .inl ⟨i, hi₀, (inLineage_step h hg he (h.calls c i hi₀)).mp hin⟩
    · rcases select_cases hce hs hx with rfl | rfl
      · have hin₀ := (inLineage_step h hg he (by rw [hf]; rfl)).mp hin
        exact .inr ⟨rfl, ⟨i, hx⟩, hP c i r rfl hx hf hd hin₀⟩
      · rw [calls_raise_self] at hi
        cases hi
  · rw [step_calls_ne hce hs] at hi
    exact .inl ⟨i, hi, (inLineage_step h hg he (h.calls c i hi)).mp hin⟩

end Step

/-! ## The invariant -/

/-- Of the live jobs of the lineage of `ρ` and the retries of it on their way, there is at
most one. -/
structure Single (ρ : Uuid) (w : World) : Prop where
  jobs : ∀ i j, InLineage w.db ρ i → InLineage w.db ρ j → w.Alive i → w.Alive j → i = j
  calls : ∀ c c', w.Retrying ρ c → w.Retrying ρ c' → c = c'
  apart : ∀ c j, w.Retrying ρ c → InLineage w.db ρ j → ¬ w.Alive j

theorem not_inLineage_init {ρ j : Uuid} {allowed : List String} :
    ¬ InLineage (World.init allowed).db ρ j := fun h => nomatch h.1

theorem single_init (ρ : Uuid) (allowed : List String) : Single ρ (.init allowed) where
  jobs _ _ h := absurd h not_inLineage_init
  calls _ _ h := h.elim fun _ h => absurd h.2 not_inLineage_init
  apart _ _ _ h := absurd h not_inLineage_init

section Single
variable {J : JsonCodec} {w w' : World} {e : Event} {ρ i j : Uuid} {c : CallId}

/-- A row that has just been committed joins a lineage without live jobs. -/
theorem Single.joins (h : Single ρ w) (hp : Parented w) (hc : ρ = i ∨ w.Retrying ρ c)
    (hnone : w.db.find i = none) (hj : InLineage w.db ρ j) : ¬ w.Alive j := by
  rcases hc with rfl | hc
  · have hroot := hj.root hp
    rw [hnone] at hroot
    cases hroot
  · exact h.apart c j hc hj

theorem Single.step (h : Single ρ w) (hp : Parented w) (hg : Ground w) (hP : Restful ρ w e)
    (hs : (system J).step w e = some w') : Single ρ w' := by
  have he := step_cases hs
  constructor
  · intro i j hi hj hai haj
    have hai₀ := alive_of_row hg he hi.1 hai
    have haj₀ := alive_of_row hg he hj.1 haj
    rcases inLineage_cases hp hg he hi with hi₀ | ⟨c, sub, t, hc, hx, rfl, hnone, hroot⟩
    · rcases inLineage_cases hp hg he hj with hj₀ | ⟨c, sub, t, -, -, -, hnone, hroot⟩
      · exact h.jobs i j hi₀ hj₀ hai₀ haj₀
      · exact absurd hai₀ (h.joins hp hroot hnone hi₀)
    · rcases inLineage_cases hp hg he hj with hj₀ | ⟨c', sub', t', hc', hx', rfl, -, -⟩
      · exact absurd haj₀ (h.joins hp hroot hnone hj₀)
      · obtain rfl : c = c' := Option.some.inj (hc.symm.trans hc')
        rw [hx, Call.submitting.injEq] at hx'
        rw [hx'.1]
  · intro c c' hc hc'
    rcases retrying_cases hp hg hP hs hc with hc₀ | ⟨rfl, -, hrest⟩
    · rcases retrying_cases hp hg hP hs hc' with hc₀' | ⟨-, -, hrest⟩
      · exact h.calls c c' hc₀ hc₀'
      · exact absurd hc₀ (hrest.2 c)
    · rcases retrying_cases hp hg hP hs hc' with hc₀' | ⟨hev, -, -⟩
      · exact absurd hc₀' (hrest.2 c')
      · exact Event.api.inj hev
  · intro c j hc hj ha
    have ha₀ := alive_of_row hg he hj.1 ha
    rcases inLineage_cases hp hg he hj with hj₀ | ⟨c₁, sub, t, hc₁, hx, rfl, hnone, hroot⟩
    · rcases retrying_cases hp hg hP hs hc with hc₀ | ⟨-, -, hrest⟩
      · exact h.apart c j hc₀ hj₀ ha₀
      · exact hrest.1 j hj₀ ha₀
    · rcases retrying_cases hp hg hP hs hc with hc₀ | ⟨rfl, ⟨i, hsel⟩, -⟩
      · rcases hroot with rfl | hc₁'
        · obtain ⟨i, -, hi⟩ := hc₀
          have hrow := hi.root hp
          rw [hnone] at hrow
          cases hrow
        · obtain rfl := h.calls c c₁ hc₀ hc₁'
          obtain ⟨i, hi, -⟩ := hc
          rw [(step_api hc₁ hs).retried hx] at hi
          cases hi
      · obtain rfl : c = c₁ := Option.some.inj hc₁
        rw [hsel] at hx
        cases hx

end Single

/-! ## Reaching COMPLETED -/

/-- A COMPLETED row has had its UPDATE issued. -/
def Earned (w : World) : Prop :=
  ∀ j, w.status? j = some .completed → w.completions j ≠ 0

/-- The row of the job is COMPLETED, or was. -/
def Reached (p : Past) (w : World) (j : Uuid) : Prop :=
  w.status? j = some .completed ∨ ∃ x ∈ p, x.1.status? j = some .completed

theorem earned_init (allowed : List String) : Earned (.init allowed) := fun _ h => nomatch h

theorem Earned.step {J : JsonCodec} {w w' : World} {e : Event} (h : Earned w) (hg : Ground w)
    (he : SysStep J w e w') : Earned w' := by
  intro j hj
  have hold : w.status? j = some .completed → w'.completions j ≠ 0 := by
    intro hj₀
    have hpos := h j hj₀
    have hle := he.completions_le (j := j)
    omega
  cases he.row hg j with
  | stays hf =>
      refine hold ?_
      rw [World.status?, ← hf]
      exact hj
  | landed _ hx _ _ hf =>
      rw [World.status?, hf] at hj
      have hpending := (hg.submissions.coherent _ _ _ hx).pending
      rw [Option.map_some, Option.some.injEq] at hj
      cases hpending.symm.trans hj
  | cancelled _ _ hf =>
      obtain ⟨r, hr, hst⟩ := World.status?_eq_some.mp hj
      rw [hf] at hr
      obtain ⟨r₀, -, rfl⟩ := Option.map_eq_some_iff.mp hr
      cases hst
  | @written s i m worker phase eff wr hev hs hp hwr _ hid _ hf =>
      obtain ⟨r, hr, hst⟩ := World.status?_eq_some.mp hj
      rw [hf] at hr
      obtain ⟨r₀, -, rfl⟩ := Option.map_eq_some_iff.mp hr
      have hst' : wr.status = .completed := hst
      subst hev
      rcases he.worked with ⟨hev', hs', hp', -, rfl⟩ | hne
      · obtain ⟨rfl, rfl⟩ := Event.work.inj hev'
        rw [hs, Slot.delivered.injEq] at hs'
        obtain ⟨rfl, rfl, rfl⟩ := hs'
        rw [completions_apply hp', if_pos hid]
        cases hp.write hwr with
        | success v _ _ _ => exact Nat.ne_of_gt (Nat.lt_add_right _ Nat.zero_lt_one)
        | start hst₁ _ _ => rw [hst'] at hst₁; cases hst₁
        | failed exc again hst₁ _ _ => rw [hst'] at hst₁; cases hst₁
        | dlq exc again hst₁ _ _ => rw [hst'] at hst₁; cases hst₁
      · exact absurd rfl (hne s i)

/-! ## Whole runs -/

section Run
variable {J : JsonCodec} {allowed : List String} {es : List Event} {w : World} {ρ : Uuid}

/-- What holds of a run whose retries wait: of every job that has reached COMPLETED, the
UPDATE has been issued. -/
structure Patient (ρ : Uuid) (p : Past) (w : World) : Prop where
  ground : Ground w
  lineages : Lineages p w
  single : Single ρ w
  earned : Earned w
  reached : ∀ x ∈ p, ∀ j, x.1.status? j = some .completed → w.completions j ≠ 0

theorem Patient.step {w' : World} {e : Event} {p : Past} (h : Patient ρ p w) (hP : Restful ρ w e)
    (hs : (system J).step w e = some w') : Patient ρ ((w, e) :: p) w' := by
  have he := step_cases hs
  refine ⟨h.ground.step he, h.lineages.step h.ground hs,
    h.single.step h.lineages.parented h.ground hP hs, h.earned.step h.ground he, ?_⟩
  intro x hx j hj
  have hpos : w.completions j ≠ 0 := by
    rcases List.mem_cons.mp hx with rfl | hx
    · exact h.earned j hj
    · exact h.reached x hx j hj
  have hle := he.completions_le (j := j)
  omega

/-- Manual retries do not duplicate work if they wait: in every run in which each
`retry_dlq_job` that finds a DLQ row of the lineage of `ρ` finds the lineage at rest, at most
one job of the lineage ever reaches COMPLETED. -/
theorem one_success (h : (system J).Run (Restful ρ) (.init allowed) es w) :
    ∀ i j, InLineage w.db ρ i → InLineage w.db ρ j →
      Reached ((system J).past [] (.init allowed) es) w i →
      Reached ((system J).past [] (.init allowed) es) w j → i = j := by
  have hpat : Patient ρ ((system J).past [] (.init allowed) es) w :=
    h.invariant_past (I := Patient ρ) (fun hi hP hs => hi.step hP hs)
      ⟨ground_init allowed, lineages_init allowed, single_init ρ allowed, earned_init allowed,
        fun _ hx => nomatch hx⟩
  have halive : ∀ {j : Uuid}, Reached ((system J).past [] (.init allowed) es) w j →
      w.Alive j := by
    rintro j (hj | ⟨x, hx, hj⟩)
    · exact .inr (hpat.earned j hj)
    · exact .inr (hpat.reached x hx j hj)
  intro i j hi hj hri hrj
  exact hpat.single.jobs i j hi hj (halive hri) (halive hrj)

end Run

/-! ## Concrete runs -/

/-- What `Restful` asks, of the first `n` calls and of all lineages at once. -/
def restfulBelow (n : Nat) (w : World) : Event → Bool
  | .api c =>
      match w.calls c with
      | .retryDlqJob _ .called =>
          decide ((∀ r ∈ w.db.rows, w.completions r.id = 0) ∧
            (∀ s < w.nextSlot, (w.slots s).jobId? = none) ∧ ∀ c < n, (w.calls c).retries? = none)
      | _ => true
  | _ => true

/-- A schedule of the first `n` calls whose retries find the system at rest is patient. -/
theorem run_restful {J : JsonCodec} {n : Nat} {allowed : List String} {es : List Event}
    {w : World} {ρ : Uuid}
    (h : (system J).Run (fun w e => restfulBelow n w e ∧ e.within n) (.init allowed) es w) :
    (system J).Run (Restful ρ) (.init allowed) es w := by
  refine h.imp (I := fun w => Bounded w ∧ IdleFrom n w)
    (fun hi hP hs => ⟨hi.1.step (step_cases hs), hi.2.step hP.2 hs⟩) ?_
    ⟨bounded_init allowed, fun _ _ => rfl⟩
  rintro w e ⟨hb, hi⟩ ⟨hP, -⟩ c i r rfl hx - - -
  simp only [restfulBelow, hx] at hP
  obtain ⟨hcomp, hslots, hcalls⟩ := of_decide_eq_true hP
  constructor
  · rintro j ⟨hrow, -⟩ (hout | hne)
    · obtain ⟨s, hs, hj⟩ := (outstanding_iff hb).mp hout
      rw [hslots s hs] at hj
      cases hj
    · obtain ⟨r, hr⟩ := Option.isSome_iff_exists.mp hrow
      obtain ⟨hmem, hid⟩ := Store.find_eq_some.mp hr
      exact hne (hid ▸ hcomp r hmem)
  · rintro c' ⟨i', hret, -⟩
    have hnone := hi.forall (Q := fun x => x.retries? = none) rfl hcalls c'
    rw [hnone] at hret
    cases hret

/-- A job in DLQ. -/
def buriedEvents : List Event := createEvents 0 "k" ++ startEvents 0 "v" ++ buryEvents 0

/-- The job is retried, and the retry succeeds. -/
def retriedOnceEvents : List Event :=
  buriedEvents ++ retryEvents 1 0 ++ startEvents 1 "v" ++ finishEvents 1

/-- What is observed of row `j` in the lineage of job 0. -/
def descent (w : World) (j : Uuid) : Bool × Option Uuid × Option JobStatus :=
  ((w.db.find j).isSome, Forest.climb (parentId w.db) 1 j, w.status? j)

theorem inLineage_of_descent {w : World} {j : Uuid} {st : JobStatus}
    (h : descent w j = (true, some 0, some st)) : InLineage w.db 0 j ∧ w.status? j = some st := by
  obtain ⟨hsome, hrest⟩ := Prod.mk.inj h
  obtain ⟨hclimb, hst⟩ := Prod.mk.inj hrest
  exact ⟨⟨hsome, 1, hclimb⟩, hst⟩

theorem one_success_ping : ∃ w, (system nullCodec).exec pingWorld retriedOnceEvents = some w ∧
    InLineage w.db 0 5 ∧
    Reached ((system nullCodec).past [] pingWorld retriedOnceEvents) w 5 ∧
    ∀ j, InLineage w.db 0 j →
      Reached ((system nullCodec).past [] pingWorld retriedOnceEvents) w j → j = 5 := by
  obtain ⟨w, hw, hrun, hobs⟩ := Machine.exists_run_obs (system nullCodec)
    (fun w e => restfulBelow 2 w e ∧ e.within 2) pingWorld retriedOnceEvents
    (fun w => descent w 5) (true, some 0, some .completed) (by decide) (by decide)
  obtain ⟨hin, hst⟩ := inLineage_of_descent hobs
  refine ⟨w, hw, hin, .inl hst, ?_⟩
  intro j hj hrj
  exact one_success (run_restful hrun) j 5 hj hin hrj (.inl hst)

/-- The job is retried twice before the first retry has started. -/
def retriedTwiceEvents : List Event :=
  buriedEvents ++ retryEvents 1 0 ++ retryEvents 2 0 ++ startEvents 1 "v" ++ finishEvents 1 ++
    startEvents 2 "v" ++ finishEvents 2

theorem two_successes : ∃ w, (system nullCodec).Run (fun _ e => smooth e) pingWorld
      retriedTwiceEvents w ∧
    (InLineage w.db 0 5 ∧ Reached ((system nullCodec).past [] pingWorld retriedTwiceEvents) w 5) ∧
    (InLineage w.db 0 8 ∧
      Reached ((system nullCodec).past [] pingWorld retriedTwiceEvents) w 8) := by
  obtain ⟨w, -, hrun, hobs⟩ := Machine.exists_run_obs (system nullCodec) (fun _ e => smooth e)
    pingWorld retriedTwiceEvents (fun w => (descent w 5, descent w 8))
    ((true, some 0, some .completed), (true, some 0, some .completed)) (by decide) (by decide)
  obtain ⟨h5, h8⟩ := Prod.mk.inj hobs
  obtain ⟨hin5, hst5⟩ := inLineage_of_descent h5
  obtain ⟨hin8, hst8⟩ := inLineage_of_descent h8
  exact ⟨w, hrun, ⟨hin5, .inl hst5⟩, ⟨hin8, .inl hst8⟩⟩

end Aegis
