/-
# `AegisWorkers.Answers` — the rows `get_job` has an answer for

`retry_dlq_job` adds one to `retry_count`, as often as a retry ends in DLQ; nothing reads the
column `max_retries`.  For a PENDING row `get_job` adds `10 * 2 ** retry_count` seconds to the
current time.  With 34 retries this is a date, with 35 it is past the year 9999, and the
addition raises `OverflowError`.

    w.Answers      `get_job` answers for every row, at any time of these years
    w.Shallow      no row is more than 34 retries away from its request
    shallow w e    the step commits no row that is

A row is PENDING when it is committed, so the commit itself is the breach.
-/
import AegisWorkers.Estimate
import AegisWorkers.Retries

namespace Aegis

open BaseTask JobService ReadCommitted

/-- The start of the year 2000. -/
def year2000 : Time := 730119 * 86400

/-- The end of the year 2100. -/
def year2101 : Time := 767009 * 86400

/-- `get_job` answers for every job in the table, whenever it is asked. -/
def World.Answers (w : World) : Prop :=
  ∀ r ∈ w.db.rows, ∀ now, year2000 ≤ now → now < year2101 →
    ∃ resp, getJob w.db now r.id = .ok resp

/-- `retry_count` of no row is beyond 34. -/
def World.Shallow (w : World) : Prop := ∀ r ∈ w.db.rows, r.retryCount ≤ 34

/-- The step does not commit a row whose `retry_count` is beyond 34. -/
def shallow (w : World) : Event → Bool
  | .api c =>
      match w.calls c with
      | .submitting sub (.sent _) => sub.job.retryCount ≤ 34
      | _ => true
  | _ => true

/-! ## One row -/

/-- Up to the 34th retry the estimate is a date. -/
theorem fits_iff {now : Nat} (hnow : now < year2101) (n : Nat) :
    fits now (Nat.pow 2 n * 10) = true ↔ n ≤ 34 := by
  have hend : now < 66269577600 := hnow
  have hfits : fits now (Nat.pow 2 n * 10) = true ↔
      Nat.pow 2 n * 10 / 86400 ≤ 999999999 ∧ now + Nat.pow 2 n * 10 ≤ 315537897599 := by
    rw [fits, Bool.and_eq_true_iff, decide_eq_true_iff, decide_eq_true_iff]
    rfl
  rw [hfits]
  constructor
  · rintro ⟨-, hle⟩
    by_contra hn
    have hpow : 2 ^ 35 ≤ Nat.pow 2 n := Nat.pow_le_pow_right (by decide) (by omega)
    omega
  · intro hn
    have hpow : Nat.pow 2 n ≤ 2 ^ 34 := Nat.pow_le_pow_right (by decide) hn
    omega

section Step
variable {J : JsonCodec} {w w' : World} {e : Event}

/-- `get_job` answers for a row unless it is PENDING and too many retries away. -/
theorem getJob_answers_iff {r : Job} {now : Time} (hr : r ∈ w.db.rows) (hnow : now < year2101) :
    (∃ resp, getJob w.db now r.id = .ok resp) ↔ (r.status = .pending → r.retryCount ≤ 34) := by
  by_cases hest : r.status = .pending ∧ 0 < r.retryCount
  · have heq : estimatedNextRun now r = if fits now (Nat.pow 2 r.retryCount * 10) then
        .ok (some (now + Nat.pow 2 r.retryCount * 10)) else .error .overflow := if_pos hest
    constructor
    · rintro ⟨resp, hget⟩ -
      have hok := estimatedNextRun_of_getJob hr hget
      by_contra hdeep
      rw [heq, if_neg (mt (fits_iff hnow _).mp hdeep)] at hok
      cases hok
    · intro hle
      rw [if_pos ((fits_iff hnow _).mpr (hle hest.1))] at heq
      obtain ⟨resp, hget, -⟩ := getJob_ok hr heq
      exact ⟨resp, hget⟩
  · have hnone : estimatedNextRun now r = .ok none := if_neg hest
    obtain ⟨resp, hget, -⟩ := getJob_ok hr hnone
    refine iff_of_true ⟨resp, hget⟩ ?_
    intro hst
    exact (Nat.le_zero.mp (Nat.not_lt.mp fun h => hest ⟨hst, h⟩)).trans_le (Nat.zero_le 34)

theorem World.Shallow.answers (h : w.Shallow) : w.Answers :=
  fun r hr _ _ hnow => (getJob_answers_iff hr hnow).mpr fun _ => h r hr

/-! ## One step -/

/-- Only the commit of a submission brings in a row or a new `retry_count`. -/
theorem World.Shallow.step (h : w.Shallow) (hg : Ground w) (hP : shallow w e)
    (hs : (system J).step w e = some w') : w'.Shallow := by
  intro r hr
  have hf : w'.db.find r.id = some r := Store.find_eq_some.mpr ⟨hr, rfl⟩
  cases (step_cases hs).row hg r.id with
  | stays hsame =>
      rw [hsame] at hf
      exact h r (Store.find_eq_some.mp hf).1
  | @landed c sub t hc hx _ hnone hnew =>
      rcases api_or_raise hc hs (by rw [hx]; rfl) (by simp [hx]) with rfl | ⟨-, rfl⟩
      · rw [hf, Option.some.injEq] at hnew
        subst hnew
        simp only [shallow, hx, decide_eq_true_eq] at hP
        exact hP
      · exact absurd (hf.symm.trans hnone) (Option.some_ne_none r)
  | cancelled _ _ hmap =>
      rw [hf] at hmap
      obtain ⟨r₀, hr₀, rfl⟩ := Option.map_eq_some_iff.mp hmap.symm
      exact h r₀ (Store.find_eq_some.mp hr₀).1
  | written _ _ _ _ _ _ _ hmap =>
      rw [hf] at hmap
      obtain ⟨r₀, hr₀, rfl⟩ := Option.map_eq_some_iff.mp hmap.symm
      exact h r₀ (Store.find_eq_some.mp hr₀).1

/-- The commit of a row too many retries away: it is there, and PENDING. -/
theorem not_answers_of_deep (hg : Ground w) (hbl : Blanks w) (hdeep : ¬ shallow w e)
    (hs : (system J).step w e = some w') : ¬ w'.Answers := by
  obtain ⟨c, sub, t, rfl, hx, hlt⟩ : ∃ c sub t, e = .api c ∧
      w.calls c = .submitting sub (.sent t) ∧ 34 < sub.job.retryCount := by
    unfold shallow at hdeep
    split at hdeep
    · rename_i c
      split at hdeep
      · rename_i sub t hx
        exact ⟨c, sub, t, rfl, hx, by simpa using hdeep⟩
      · exact absurd rfl hdeep
    · exact absurd rfl hdeep
  have hses := hg.sessions c
  rw [hx] at hses
  have hw' : submit w c sub (.sent t) = some w' := by
    change api w c = some w' at hs
    rwa [api, hx] at hs
  have hmem : sub.row t ∈ w'.db.rows := by
    obtain rfl := Option.some.inj hw'
    simp only [db_setCall, db_countSubmission, db_observe, rows_land t hses.1 hses.2]
    exact List.mem_append_right _ (List.mem_singleton_self _)
  intro hans
  have hle := (getJob_answers_iff hmem (by decide : year2000 < year2101)).mp
    (hans _ hmem year2000 (Nat.le_refl _) (by decide)) ((hbl c sub _ hx).row t).status
  exact absurd hle (Nat.not_le.mpr hlt)

end Step

/-! ## Whole runs -/

/-- `get_job` answers for every job in every state of a run if and only if no step of it commits
a row that is more than 34 retries away from its request. -/
theorem answers_iff_shallow {J : JsonCodec} {allowed : List String} {es : List Event} {w : World}
    (h : (system J).Run (fun _ _ => True) (.init allowed) es w) :
    (system J).Throughout (fun _ w => w.Answers) (.init allowed) es ↔
      (system J).Along (fun w e => shallow w e) (.init allowed) es := by
  have hinit : World.Shallow (.init allowed) := fun _ hr => nomatch hr
  have hg := ground_init allowed
  have hbl := blanks_init allowed
  generalize World.init allowed = w₀ at h hinit hg hbl ⊢
  induction h with
  | nil w =>
      rw [Machine.throughout_nil]
      exact iff_of_true hinit.answers trivial
  | @cons w w₁ w' e es _ hs _ ih =>
      have he := step_cases hs
      rw [Machine.throughout_cons hs, Machine.along_cons hs]
      constructor
      · rintro ⟨-, hrest⟩
        have hP : shallow w e := by
          by_contra hdeep
          exact not_answers_of_deep hg hbl hdeep hs (hrest [] w₁ (List.nil_prefix ..) rfl)
        exact ⟨hP, (ih (hinit.step hg hP hs) (hg.step he) (hbl.step he)).mp hrest⟩
      · rintro ⟨hP, hrest⟩
        exact ⟨hinit.answers,
          (ih (hinit.step hg hP hs) (hg.step he) (hbl.step he)).mpr hrest⟩

/-! ## Concrete runs -/

/-- A job in DLQ is retried once. -/
theorem answers_iff_shallow_ping : (system nullCodec).Throughout (fun _ w => w.Answers) pingWorld
    (buriedEvents ++ retryEvents 1 0) := by
  have hsome : ((system nullCodec).exec pingWorld (buriedEvents ++ retryEvents 1 0)).isSome := by
    decide
  obtain ⟨w, hw⟩ := Option.isSome_iff_exists.mp hsome
  exact (answers_iff_shallow (Machine.run_of_computed hw)).mpr (by decide)

/-- A job, and `n` retries one of another, each once the one before it is in DLQ. -/
def chainEvents (n : Nat) : List Event :=
  createEvents 0 "k" ++ (List.range n).flatMap fun k =>
    startEvents k "v" ++ buryEvents k ++ retryEvents (k + 1) (5 * k)

/-- 1 January 2026. -/
def newYear2026 : Time := 739616 * 86400

/-- The last of 35 retries is PENDING. -/
theorem get_job_overflows : ∃ w r,
    (system nullCodec).Run (fun _ e => smooth e) pingWorld (chainEvents 35) w ∧
    r ∈ w.db.rows ∧ getJob w.db newYear2026 r.id = .error .overflow ∧ ¬ w.Answers := by
  have hsmooth : ∀ e ∈ chainEvents 35, smooth e := by decide +kernel
  obtain ⟨w, -, hrun, hobs⟩ := Machine.exists_run_obs (system nullCodec) (fun _ e => smooth e)
    pingWorld (chainEvents 35)
    (fun w => (w.db.find 175).map fun r => (r.retryCount, r.status)) (some (35, .pending))
    (by decide +kernel) (Machine.along_of_mem _ _ fun e he _ => hsmooth e he)
  obtain ⟨r, hr, hrow⟩ := Option.map_eq_some_iff.mp hobs
  obtain ⟨hmem, hid⟩ := Store.find_eq_some.mp hr
  obtain ⟨hcount, hst⟩ := Prod.mk.inj hrow
  have hest : estimatedNextRun newYear2026 r = .error .overflow := by
    simp only [estimatedNextRun, hcount, hst]
    rfl
  have hget : getJob w.db newYear2026 r.id = .error .overflow := by
    simp only [getJob, hid, hr, hest]
    rfl
  refine ⟨w, r, hrun, hmem, hget, ?_⟩
  intro hans
  obtain ⟨resp, hok⟩ := hans r hmem newYear2026 (by decide) (by decide)
  rw [hget] at hok
  cases hok

end Aegis
