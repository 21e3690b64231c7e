/-
# `AegisWorkers.Agreement` — one job for a key

Any number of calls, any of them failing anywhere, and still the callers of
`create_job` with one key agree: the unique index leaves one row for the key, a
call that finds it answers with its id, and the one call that inserted it is the
only one to answer `was_created = True`.  A first submitter that publishes and
then rolls back has no part in this: its row was never committed, so nobody has
answered with its id.

`Answered` is the invariant; the rest is the unique index (`rows_eq_of_uk`) and
`Footprints`.
-/
import AegisWorkers.Footprint

namespace Aegis

open BaseTask JobService ReadCommitted

/-- Every answer of `create_job` names the row of its key. -/
def Answered (w : World) : Prop :=
  ∀ c req resp b, w.calls c = .returned (.createJob req) (.created resp b) →
    ∃ r ∈ w.db.rows, r.idempotencyKey = req.idempotencyKey ∧ r.id = resp.id

theorem answered_init (allowed : List String) : Answered (.init allowed) :=
  fun _ _ _ _ h => nomatch h

/-- How a call comes to answer `create_job`: by a hit, or by the refresh of its own row. -/
theorem ApiStep.answers {w w' : World} {c : CallId} (h : ApiStep w c w') {req : JobCreateRequest}
    {resp : JobCreateResponse} {b : Bool}
    (hc : w'.calls c = .returned (.createJob req) (.created resp b)) :
    (∃ r, w.db.findKey req.idempotencyKey = some r ∧ resp = existingResponse r ∧ b = false) ∨
      ∃ sub r, w.calls c = .submitting sub .committed ∧ sub.op = .createJob req ∧
        w.db.find sub.job.id = some r ∧ resp = newResponse r none ∧ b = true := by
  cases h with
  | enter op _ =>
      rw [calls_setCall_self] at hc
      have hx := enter_cases w.allowedTaskNames op
      rw [hc] at hx
      cases hx
  | @move y hl =>
      rw [calls_setCall_self] at hc
      generalize hx : w.calls c = x at hl
      cases hl with
      | @hit req' existing hf =>
          simp only [Call.returned.injEq, Op.createJob.injEq, Response.created.injEq] at hc
          obtain ⟨rfl, rfl, rfl⟩ := hc
          exact .inl ⟨existing, hf, rfl, rfl⟩
      | @refresh sub row hf =>
          rw [Call.returned.injEq] at hc
          obtain ⟨hop, hresp⟩ := hc
          rw [hop] at hresp
          obtain ⟨rfl, rfl⟩ : newResponse row none = resp ∧ true = b := Response.created.inj hresp
          exact .inr ⟨sub, row, rfl, hop, hf, rfl, rfl⟩
      | _ => cases hc
  | _ => simp at hc

theorem ApiStep.answered {w w' : World} {c : CallId} (ha : ApiStep w c w') (hg : Ground w)
    (hf : Footprints w) {req : JobCreateRequest} {resp : JobCreateResponse} {b : Bool}
    (hc : w'.calls c = .returned (.createJob req) (.created resp b)) :
    ∃ r ∈ w.db.rows, r.idempotencyKey = req.idempotencyKey ∧ r.id = resp.id := by
  rcases ha.answers hc with ⟨r, hr, rfl, -⟩ | ⟨sub, r, hs, hop, hr, rfl, -⟩
  · obtain ⟨hmem, hkey⟩ := Store.findKey_eq_some.mp hr
    exact ⟨r, hmem, hkey, rfl⟩
  · have hl := hf c
    rw [hs] at hl
    obtain ⟨-, r', hr', hid, hkey⟩ := hl
    have hfind := Store.find_eq_some.mpr ⟨hr', hid⟩
    obtain rfl : r' = r := Option.some.inj (hfind.symm.trans hr)
    exact ⟨r', hr', hkey.trans ((hg.submissions.coherent c sub _ hs).key req hop), rfl⟩

theorem Answered.step {J : JsonCodec} {w w' : World} {e : Event} (h : Answered w)
    (hg : Ground w) (hf : Footprints w) (he : SysStep J w e w') : Answered w' := by
  intro c' req resp b hc'
  have hrow : ∃ r ∈ w.db.rows, r.idempotencyKey = req.idempotencyKey ∧ r.id = resp.id := by
    rcases he.api_or_offstage with ⟨c, -, ha⟩ | ⟨-, ho⟩
    · by_cases hne : c' = c
      · subst hne
        exact ha.answered hg hf hc'
      · rw [ha.calls_ne hne] at hc'
        exact h c' req resp b hc'
    · rw [ho.calls] at hc'
      exact h c' req resp b hc'
  obtain ⟨r, hr, hkey, hid⟩ := hrow
  obtain ⟨r', hr', ho⟩ := he.origin hg.sessions hr
  exact ⟨r', hr', ho.idempotencyKey.trans hkey, ho.id.trans hid⟩

theorem run_answered {J : JsonCodec} {P : World → Event → Prop} {allowed : List String}
    {es : List Event} {w : World} (h : (system J).Run P (.init allowed) es w) :
    Ground w ∧ Enqueued w ∧ Footprints w ∧ Answered w :=
  run_invariant (I := fun w => Enqueued w ∧ Footprints w ∧ Answered w) h (ground_init allowed)
    ⟨enqueued_init allowed, footprints_init allowed, answered_init allowed⟩
    fun hg hi _ hs => ⟨hi.1.step hg (step_cases hs), hi.2.1.step hg hi.1 (step_cases hs),
      hi.2.2.step hg hi.2.1 (step_cases hs)⟩

/-- A table holds at most one row of a key. -/
theorem rows_of_key_le_one (db : Db) (k : String) :
    (db.rows.filter fun r => r.idempotencyKey = k).length ≤ 1 := by
  have hnd : (db.rows.map Job.idempotencyKey).Nodup :=
    db.uk_nodup.sublist ((List.sublist_append_left _ _).map _)
  have hfil := hnd.sublist ((List.filter_sublist (l := db.rows)
    (p := fun r => r.idempotencyKey = k)).map Job.idempotencyKey)
  have hall : ((db.rows.filter fun r => r.idempotencyKey = k).map Job.idempotencyKey) =
      List.replicate (db.rows.filter fun r => r.idempotencyKey = k).length k := by
    refine List.eq_replicate_iff.mpr ⟨List.length_map _, ?_⟩
    intro x hx
    obtain ⟨r, hr, rfl⟩ := List.mem_map.mp hx
    simpa using (List.mem_filter.mp hr).2
  rw [hall] at hfil
  exact List.nodup_replicate.mp hfil

/-- Two answers for one key name one row. -/
theorem Answered.same_id {w : World} (h : Answered w) {c c' : CallId} {req req' : JobCreateRequest}
    {resp resp' : JobCreateResponse} {b b' : Bool}
    (hc : w.calls c = .returned (.createJob req) (.created resp b))
    (hc' : w.calls c' = .returned (.createJob req') (.created resp' b'))
    (hk : req.idempotencyKey = req'.idempotencyKey) : resp.id = resp'.id := by
  obtain ⟨r, hr, hkey, hid⟩ := h c req resp b hc
  obtain ⟨r', hr', hkey', hid'⟩ := h c' req' resp' b' hc'
  obtain rfl : r = r' := Store.rows_eq_of_uk hr hr' (by rw [hkey, hkey', hk])
  exact hid.symm.trans hid'

/-- One call at most has created the job of a key. -/
theorem Answered.created_unique {w : World} (h : Answered w) (hsub : Submissions w)
    {c c' : CallId} {req req' : JobCreateRequest} {resp resp' : JobCreateResponse}
    (hc : w.calls c = .returned (.createJob req) (.created resp true))
    (hc' : w.calls c' = .returned (.createJob req') (.created resp' true))
    (hk : req.idempotencyKey = req'.idempotencyKey) : c = c' := by
  have hid := h.same_id hc hc' hk
  refine hsub.unique c c' resp.id ?_ ?_
  · rw [hc]; rfl
  · rw [hc', hid]; rfl

/-- Agreement on the job of a key.  In every state of every run at most one committed
row has the key; every answer of `create_job` for the key, whenever it was given,
names that row; one call at most has answered `True`; and a call that found its key
taken, by its SELECT or by a unique violation, has been silent from its first move
to its last. -/
theorem agreement {J : JsonCodec} {allowed : List String} {es : List Event} {w : World}
    (h : (system J).Run (fun _ _ => True) (.init allowed) es w) (k : String) :
    (w.db.rows.filter fun r => r.idempotencyKey = k).length ≤ 1 ∧
    (∀ c req resp b, w.calls c = .returned (.createJob req) (.created resp b) →
      req.idempotencyKey = k → ∃ r ∈ w.db.rows, r.idempotencyKey = k ∧ resp.id = r.id) ∧
    (∀ c c' req req' resp resp',
      w.calls c = .returned (.createJob req) (.created resp true) → req.idempotencyKey = k →
      w.calls c' = .returned (.createJob req') (.created resp' true) → req'.idempotencyKey = k →
      c = c') ∧
    ∀ c, (w.calls c).refused → (system J).Along (Silent J c) (.init allowed) es := by
  obtain ⟨hg, -, hf, ha⟩ := run_answered h
  refine ⟨rows_of_key_le_one w.db k, ?_, ?_, ?_⟩
  · rintro c req resp b hc rfl
    obtain ⟨r, hr, hkey, hid⟩ := ha c req resp b hc
    exact ⟨r, hr, hkey, hid.symm⟩
  · intro c c' req req' resp resp' hc hk hc' hk'
    exact ha.created_unique hg.submissions hc hc' (hk.trans hk'.symm)
  · intro c hr
    have hl := hf c
    refine along_silent h ?_
    cases hc : w.calls c with
    | returned op r =>
        rw [hc] at hl hr
        exact hl hr
    | raised op e =>
        rw [hc] at hl hr
        exact hl hr
    | _ => rw [hc] at hr; exact absurd hr Bool.false_ne_true

/-- Two submissions of one key: the second finds the key taken at its INSERT. -/
theorem agreement_ping : ∃ w, (system nullCodec).exec pingWorld
      ([.call 0 (.createJob (pingRequest "k")), .api 0] ++ createEvents 1 "k" ++ [.api 0]) = some w ∧
    (w.db.rows.filter fun r => r.idempotencyKey = "k").length ≤ 1 ∧
    (system nullCodec).Along (Silent nullCodec 0) pingWorld
      ([.call 0 (.createJob (pingRequest "k")), .api 0] ++ createEvents 1 "k" ++ [.api 0]) := by
  obtain ⟨w, hw, hrun, hrefused⟩ := Machine.exists_run_obs (system nullCodec) (fun _ _ => True)
    pingWorld ([.call 0 (.createJob (pingRequest "k")), .api 0] ++ createEvents 1 "k" ++ [.api 0])
    (fun w => (w.calls 0).refused) true (by decide) (by decide)
  have hall := agreement hrun "k"
  exact ⟨w, hw, hall.1, hall.2.2.2 0 hrefused⟩

end Aegis
