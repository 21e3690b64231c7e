/-
# `AegisWorkers.Footprint` — what a call leaves behind

The session of a call is rolled back when the call raises, but a published
message, a broadcast revocation and a committed row stay.  The *footprint* of a
call is the list of these, as observed, and how far the call has come determines
it (`Leaves`):

    SELECT, flush, send_task failing     nothing
    commit failing                       the message, without its row
    refresh failing                      the message and its row
    cancel's UPDATE or commit failing    the revocation

The footprint misses nothing: a call without one has been silent (`Silent`), and one
that has committed nothing has kept the table (`KeepsTable`) at its every move.
-/
import AegisWorkers.Enqueue

namespace Aegis

open BaseTask JobService ReadCommitted

/-- The call an observation is about. -/
def Obs.call? : Obs → Option CallId
  | .published c _ | .revoked c _ | .committed c _ => some c
  | _ => none

/-- What call `c` has published, revoked and committed, the latest first. -/
def World.footprint (w : World) (c : CallId) : List Obs :=
  w.trace.filter fun o => o.call? = some c

/-- A call that has found its key taken, by its SELECT or at its INSERT. -/
def Call.refused : Call → Bool
  | .returned (.createJob _) (.created _ false) => true
  | .raised _ .integrityError => true
  | _ => false

/-- The footprint of call `c`, given how far it has come. -/
def Call.Leaves (w : World) (c : CallId) : Call → List Obs → Prop
  | .submitting sub (.sent t), obs => obs = [.published c (message sub t)]
  | .submitting sub .committed, obs =>
      (∃ t, obs = [.committed c sub.job.id, .published c (message sub t)]) ∧
        ∃ r ∈ w.db.rows, r.id = sub.job.id ∧ r.idempotencyKey = sub.idempotencyKey
  | .cancelJob jobId (.revoked _), obs => ∃ m ∈ w.publishedFor jobId, obs = [.revoked c m.id]
  | .cancelJob jobId .updated, obs => ∃ m ∈ w.publishedFor jobId, obs = [.revoked c m.id]
  | .returned op r, obs => (Call.returned op r).refused → obs = []
  | .raised op e, obs => (Call.raised op e).refused → obs = []
  | _, obs => obs = []

/-- Every call has left behind what its progress says. -/
def Footprints (w : World) : Prop := ∀ c, (w.calls c).Leaves w c (w.footprint c)

/-! ## Moves -/

theorem footprint_cons {w w' : World} {o : Obs} (h : w'.trace = o :: w.trace) (c : CallId) :
    w'.footprint c = if o.call? = some c then o :: w.footprint c else w.footprint c := by
  simp only [World.footprint, h, List.filter_cons, decide_eq_true_eq]

theorem footprint_own {w w' : World} {o : Obs} {c : CallId} (h : w'.trace = o :: w.trace)
    (ho : o.call? = some c) : w'.footprint c = o :: w.footprint c :=
  (footprint_cons h c).trans (if_pos ho)

theorem Offstage.footprint {w w' : World} (h : Offstage w w') (c : CallId) :
    w'.footprint c = w.footprint c := by
  obtain ⟨new, ht, hn⟩ := h.trace
  have hnone : new.filter (fun o => decide (o.call? = some c)) = [] := by
    refine List.filter_eq_nil_iff.mpr ?_
    intro o ho
    cases o with
    | published c m => exact absurd trivial (hn _ ho)
    | revoked c t => exact absurd trivial (hn _ ho)
    | committed c j => exact absurd trivial (hn _ ho)
    | _ => simp [Obs.call?]
  rw [World.footprint, ht, List.filter_append, hnone]
  rfl

/-- One move of call `c`, by what it shows: nothing, and then it changes nothing
outside the call's transaction, or one observation. -/
inductive ShowStep (w : World) (c : CallId) (w' : World) : Prop
  | silent : w'.trace = w.trace → w'.db.rows = w.db.rows → w'.slots = w.slots →
      w'.heard = w.heard → ShowStep w c w'
  | shown (o : Obs) : w'.trace = o :: w.trace → o.call? = some c →
      (w'.db.rows = w.db.rows ∨ ∃ jobId, o = .committed c jobId) → ShowStep w c w'

theorem ApiStep.shows {w w' : World} {c : CallId} (h : ApiStep w c w') : ShowStep w c w' := by
  cases h with
  | enter op _ => exact .silent rfl rfl rfl rfl
  | move _ => exact .silent rfl rfl rfl rfl
  | raise _ _ => exact .silent rfl rfl rfl rfl
  | violate _ _ => exact .silent rfl rfl rfl rfl
  | flush _ hi => exact .silent rfl (Store.insert_eq_inserted hi).1 rfl rfl
  | send _ => exact .shown _ rfl rfl (.inl rfl)
  | @land sub t _ =>
      refine .shown (.committed c sub.job.id) ?_ rfl (.inr ⟨_, rfl⟩)
      simp only [trace_setCall, trace_countSubmission, trace_observe]
  | lock _ hl =>
      obtain ⟨rfl, -⟩ := Store.lock_eq_some hl
      exact .silent rfl rfl rfl rfl
  | cancel _ => exact .shown _ rfl rfl (.inr ⟨_, rfl⟩)
  | revoke _ _ _ => exact .shown _ rfl rfl (.inl rfl)

theorem ApiStep.footprint_ne {w w' : World} {c c' : CallId} (h : ApiStep w c w') (hne : c' ≠ c) :
    w'.footprint c' = w.footprint c' := by
  cases h.shows with
  | silent ht _ _ _ => simp only [World.footprint, ht]
  | shown o ht ho _ =>
      rw [footprint_cons ht, ho]
      exact if_neg fun he => hne (Option.some.inj he).symm

/-! ## The invariant -/

/-- The footprint of a call survives the moves of the others. -/
theorem Call.Leaves.mono {w w' : World} {c : CallId} {x : Call} {obs : List Obs}
    (h : x.Leaves w c obs) (hp : w.published ⊆ w'.published)
    (hr : ∀ r ∈ w.db.rows, ∃ r' ∈ w'.db.rows, r.Origin r') : x.Leaves w' c obs := by
  have hpf : ∀ j, w.publishedFor j ⊆ w'.publishedFor j := fun j m hm =>
    have hm := mem_publishedFor.mp hm
    mem_publishedFor.mpr ⟨hp hm.1, hm.2⟩
  cases x with
  | submitting sub stage =>
      cases stage with
      | committed =>
          obtain ⟨ht, r, hr₀, hid, hkey⟩ := h
          obtain ⟨r', hr', ho⟩ := hr r hr₀
          exact ⟨ht, r', hr', ho.id.trans hid, ho.idempotencyKey.trans hkey⟩
      | flushed => exact h
      | sent t => exact h
  | cancelJob j pc =>
      cases pc with
      | revoked began =>
          obtain ⟨m, hm, ho⟩ := h
          exact ⟨m, hpf j hm, ho⟩
      | updated =>
          obtain ⟨m, hm, ho⟩ := h
          exact ⟨m, hpf j hm, ho⟩
      | called => exact h
      | checked began job => exact h
  | _ => exact h

theorem Entered.leaves {op : Op} {x : Call} (h : Entered op x) (w : World) (c : CallId) :
    x.Leaves w c [] := by
  cases h with
  | refused => exact fun _ => rfl
  | _ => exact rfl

theorem Local.leaves {w w' : World} {c : CallId} {x y : Call} {obs : List Obs} (h : Local w x y)
    (hx : x.Leaves w c obs)
    (htask : ∀ j began job, x = .cancelJob j (.checked began job) → job.celeryTaskId ≠ none)
    (hop : ∀ sub stage, x = .submitting sub stage → ∀ jobId, sub.op ≠ .cancelJob jobId) :
    y.Leaves w' c obs := by
  cases h with
  | hit _ => exact fun _ => hx
  | miss _ => exact hx
  | checkCancel _ _ => exact hx
  | noTask ht => exact absurd ht (htask _ _ _ rfl)
  | checkRetry _ _ => exact hx
  | @refresh sub row _ =>
      intro hr
      cases hs : sub.op with
      | createJob req => rw [hs] at hr; exact absurd hr Bool.false_ne_true
      | retryDlqJob jobId => rw [hs] at hr; exact absurd hr Bool.false_ne_true
      | cancelJob jobId => exact absurd hs (hop _ _ rfl jobId)

theorem Builds.leaves {w : World} {c : CallId} {x : Call} {n : Nat} {sub : Submission}
    {obs : List Obs} (h : Builds w x n sub) (hx : x.Leaves w c obs) : obs = [] := by
  cases h <;> exact hx

section Step
variable {w w' : World} {c : CallId}

theorem Call.Leaves.of_eq {x : Call} {obs : List Obs} (hc : w'.calls c = x)
    (hf : w'.footprint c = obs) (h : x.Leaves w' c obs) :
    (w'.calls c).Leaves w' c (w'.footprint c) := by
  rw [hc, hf]
  exact h

theorem ApiStep.leaves (ha : ApiStep w c w') (hg : Ground w) (he : Enqueued w)
    (h : (w.calls c).Leaves w c (w.footprint c)) :
    (w'.calls c).Leaves w' c (w'.footprint c) := by
  cases ha with
  | enter op hi =>
      rw [hi] at h
      have hnil : w.footprint c = [] := h
      exact .of_eq (Function.update_self ..) hnil ((enter_cases _ op).leaves _ c)
  | move hl =>
      refine .of_eq (Function.update_self ..) rfl (hl.leaves h ?_ ?_)
      · intro j began job hc hn
        obtain ⟨m, -, ht⟩ := he.checked c j began job hc
        rw [hn] at ht
        cases ht
      · intro sub stage hc
        exact (hg.submissions.coherent c sub stage hc).op
  | @raise op e hop hne =>
      refine .of_eq (Function.update_self ..) rfl ?_
      intro hr
      cases e with
      | integrityError => exact absurd rfl hne
      | _ => exact absurd hr Bool.false_ne_true
  | violate hb _ => exact .of_eq (Function.update_self ..) rfl fun _ => hb.leaves h
  | flush hb _ => exact .of_eq (Function.update_self ..) rfl (hb.leaves h)
  | @send sub hc =>
      rw [hc] at h
      have hnil : w.footprint c = [] := h
      refine .of_eq (Function.update_self ..) ((footprint_own (w := w) rfl rfl).trans ?_) rfl
      rw [hnil]
  | @land sub t hc =>
      have hs := hg.sessions c
      rw [hc] at h hs
      have hone : w.footprint c = [.published c (message sub t)] := h
      refine .of_eq (Function.update_self ..)
        ((footprint_own (w := w) (o := .committed c sub.job.id) ?_ rfl).trans ?_)
        ⟨⟨t, rfl⟩, sub.row t, ?_, rfl, ?_⟩
      · simp only [trace_setCall, trace_countSubmission, trace_observe]
      · rw [hone]
      · simp only [db_setCall, db_countSubmission, db_observe]
        rw [rows_land t hs.1 hs.2]
        exact List.mem_append_right _ (List.mem_singleton_self _)
      · exact (hg.submissions.coherent c sub _ hc).idempotencyKey
  | lock hc hl =>
      rw [hc] at h
      exact .of_eq (Function.update_self ..) rfl h
  | cancel hc =>
      exact .of_eq (Function.update_self ..) rfl fun hr => absurd hr Bool.false_ne_true
  | @revoke jobId began job taskId receivers hc ht =>
      obtain ⟨m, hm, hid⟩ := he.checked c jobId began job hc
      rw [ht, Option.some.injEq] at hid
      rw [hc] at h
      have hnil : w.footprint c = [] := h
      refine .of_eq (Function.update_self ..) ((footprint_own (w := w) rfl rfl).trans ?_)
        ⟨m, hm, rfl⟩
      rw [hnil, hid]

theorem Footprints.step {J : JsonCodec} {e : Event} (h : Footprints w) (hg : Ground w)
    (hen : Enqueued w) (he : SysStep J w e w') : Footprints w' := by
  intro c'
  have hrows : ∀ r ∈ w.db.rows, ∃ r' ∈ w'.db.rows, r.Origin r' :=
    fun _ hr => he.origin hg.sessions hr
  rcases he.api_or_offstage with ⟨c, -, ha⟩ | ⟨-, ho⟩
  · by_cases hne : c' = c
    · subst hne
      exact ha.leaves hg hen (h c')
    · rw [ha.calls_ne hne, ha.footprint_ne hne]
      exact (h c').mono ha.published_subset hrows
  · rw [ho.calls, ho.footprint]
    exact (h c').mono (ho.published ▸ List.Subset.refl _) hrows

end Step

theorem footprints_init (allowed : List String) : Footprints (.init allowed) := fun _ => rfl

theorem run_footprints {J : JsonCodec} {P : World → Event → Prop} {allowed : List String}
    {es : List Event} {w : World} (h : (system J).Run P (.init allowed) es w) :
    Ground w ∧ Enqueued w ∧ Footprints w :=
  run_invariant (I := fun w => Enqueued w ∧ Footprints w) h (ground_init allowed)
    ⟨enqueued_init allowed, footprints_init allowed⟩
    fun hg hi _ hs => ⟨hi.1.step hg (step_cases hs), hi.2.step hg hi.1 (step_cases hs)⟩

/-! ## The footprint misses nothing -/

/-- The footprint only grows. -/
theorem SysStep.footprint_suffix {J : JsonCodec} {w w' : World} {e : Event}
    (h : SysStep J w e w') (c : CallId) : w.footprint c <:+ w'.footprint c := by
  rcases h.api_or_offstage with ⟨c', -, ha⟩ | ⟨-, ho⟩
  · cases ha.shows with
    | silent ht _ _ _ =>
        simp only [World.footprint, ht]
        exact List.suffix_refl _
    | shown o ht _ _ =>
        rw [footprint_cons ht]
        split
        · exact List.suffix_cons _ _
        · exact List.suffix_refl _
  · exact ho.footprint c ▸ List.suffix_refl _

/-- The event is no move of call `c`, or it changes no row, no queue and no worker. -/
def Silent (J : JsonCodec) (c : CallId) (w : World) (e : Event) : Prop :=
  e.call? = some c → ∀ w', (system J).step w e = some w' →
    w'.db.rows = w.db.rows ∧ w'.slots = w.slots ∧ w'.heard = w.heard

/-- The event is no move of call `c`, or it changes no row. -/
def KeepsTable (J : JsonCodec) (c : CallId) (w : World) (e : Event) : Prop :=
  e.call? = some c → ∀ w', (system J).step w e = some w' → w'.db.rows = w.db.rows

section Along
variable {J : JsonCodec} {P : World → Event → Prop} {c : CallId} {w w' : World}

theorem run_footprint_suffix {es : List Event} (h : (system J).Run P w es w') :
    w.footprint c <:+ w'.footprint c := by
  induction h with
  | nil w => exact List.suffix_refl _
  | cons _ hs _ ih => exact ((step_cases hs).footprint_suffix c).trans ih

/-- A call without a footprint has been silent all along. -/
theorem along_silent {es : List Event} (h : (system J).Run P w es w')
    (hf : w'.footprint c = []) : (system J).Along (Silent J c) w es := by
  induction h with
  | nil w => exact trivial
  | @cons w w₁ _ e _ _ hs hrun ih =>
      refine (Machine.along_cons hs).mpr ⟨?_, ih hf⟩
      intro hc w₂ hs₂
      obtain rfl : w₁ = w₂ := Option.some.inj (hs.symm.trans hs₂)
      cases (step_api hc hs).shows with
      | silent _ hrows hslots hheard => exact ⟨hrows, hslots, hheard⟩
      | shown o ht ho _ =>
          have hsuf := run_footprint_suffix (c := c) hrun
          rw [hf, List.suffix_nil, footprint_own ht ho] at hsuf
          cases hsuf

/-- A call that was not seen to commit has kept the table all along. -/
theorem along_keepsTable {es : List Event} (h : (system J).Run P w es w')
    (hf : ∀ jobId, .committed c jobId ∉ w'.footprint c) :
    (system J).Along (KeepsTable J c) w es := by
  induction h with
  | nil w => exact trivial
  | @cons w w₁ _ e _ _ hs hrun ih =>
      refine (Machine.along_cons hs).mpr ⟨?_, ih hf⟩
      intro hc w₂ hs₂
      obtain rfl : w₁ = w₂ := Option.some.inj (hs.symm.trans hs₂)
      cases (step_api hc hs).shows with
      | silent _ hrows _ _ => exact hrows
      | shown o ht ho hor =>
          rcases hor with hrows | ⟨jobId, rfl⟩
          · exact hrows
          · have hmem : .committed c jobId ∈ w₁.footprint c := by
              rw [footprint_own ht ho]
              exact List.mem_cons_self
            exact absurd ((run_footprint_suffix hrun).subset hmem) (hf jobId)

end Along

/-! ## A call that fails -/

/-- The calls whose next external call can fail without a trace. -/
def Call.Traceless : Call → Prop
  | .createJob _ _ => True
  | .retryDlqJob _ _ => True
  | .submitting _ .flushed => True
  | .cancelJob _ .called => True
  | .cancelJob _ (.checked _ _) => True
  | _ => False

theorem Call.Leaves.eq_nil_iff {w : World} {c : CallId} {x : Call} {obs : List Obs}
    (h : x.Leaves w c obs) (hx : x.op? ≠ none) : obs = [] ↔ x.Traceless := by
  cases x with
  | idle => exact absurd rfl hx
  | returned op r => exact absurd rfl hx
  | raised op e => exact absurd rfl hx
  | createJob req pc => exact iff_of_true h trivial
  | retryDlqJob jobId pc => exact iff_of_true h trivial
  | cancelJob jobId pc =>
      cases pc with
      | called => exact iff_of_true h trivial
      | checked began job => exact iff_of_true h trivial
      | revoked began =>
          obtain ⟨m, -, rfl⟩ := h
          exact iff_of_false (List.cons_ne_nil _ _) id
      | updated =>
          obtain ⟨m, -, rfl⟩ := h
          exact iff_of_false (List.cons_ne_nil _ _) id
  | submitting sub stage =>
      cases stage with
      | flushed => exact iff_of_true h trivial
      | sent t =>
          obtain rfl := h
          exact iff_of_false (List.cons_ne_nil _ _) id
      | committed =>
          obtain ⟨⟨t, rfl⟩, -⟩ := h
          exact iff_of_false (List.cons_ne_nil _ _) id

/-- Only a submission past its commit has been seen to commit. -/
theorem Call.Leaves.not_committed {w : World} {c : CallId} {x : Call} {obs : List Obs}
    (h : x.Leaves w c obs) (hx : x.op? ≠ none) (hc : ∀ sub, x ≠ .submitting sub .committed)
    (jobId : Uuid) : .committed c jobId ∉ obs := by
  by_cases hn : x.Traceless
  · rw [(h.eq_nil_iff hx).mpr hn]
    exact List.not_mem_nil
  · cases x with
    | cancelJob j pc =>
        cases pc with
        | revoked began => obtain ⟨m, -, rfl⟩ := h; simp
        | updated => obtain ⟨m, -, rfl⟩ := h; simp
        | called => exact absurd trivial hn
        | checked began job => exact absurd trivial hn
    | submitting sub stage =>
        cases stage with
        | flushed => exact absurd trivial hn
        | sent t => obtain rfl := h; simp
        | committed => exact absurd rfl (hc sub)
    | idle => exact absurd rfl hx
    | returned op r => exact absurd rfl hx
    | raised op e => exact absurd rfl hx
    | createJob req pc => exact absurd trivial hn
    | retryDlqJob j pc => exact absurd trivial hn

/-- What a call leaves behind when a database or broker call inside it fails.  The
failure itself changes no row, no queue and no worker; what the call has shown is
what its progress says, and that is nothing exactly in the `Traceless` places; a
call without a footprint has been silent, and one that has not committed has kept
the table. -/
theorem failed_call_leaves {J : JsonCodec} {allowed : List String} {es : List Event}
    {w w' : World} {c : CallId}
    (h : (system J).Run (fun _ _ => True) (.init allowed) es w)
    (hf : (system J).step w (.apiFail c) = some w') :
    (∃ op, w'.calls c = .raised op .unavailable) ∧
    (w'.db.rows = w.db.rows ∧ w'.slots = w.slots ∧ w'.heard = w.heard ∧
      w'.footprint c = w.footprint c) ∧
    (w.calls c).Leaves w c (w.footprint c) ∧
    (w.footprint c = [] ↔ (w.calls c).Traceless) ∧
    ((w.calls c).Traceless → (system J).Along (Silent J c) (.init allowed) es) ∧
    ((∀ sub, w.calls c ≠ .submitting sub .committed) →
      (system J).Along (KeepsTable J c) (.init allowed) es) := by
  obtain ⟨op, hop, rfl⟩ := apiFail_cases hf
  have hl := (run_footprints h).2.2 c
  have hne : (w.calls c).op? ≠ none := by
    rw [hop]
    exact Option.some_ne_none op
  refine ⟨⟨op, Function.update_self ..⟩, ⟨rfl, rfl, rfl, rfl⟩, hl, hl.eq_nil_iff hne, ?_, ?_⟩
  · intro ht
    exact along_silent h ((hl.eq_nil_iff hne).mpr ht)
  · intro hc
    exact along_keepsTable h (hl.not_committed hne hc)

/-- The commit of a `create_job` fails. -/
theorem failed_call_leaves_ping : ∃ w w',
    (system nullCodec).exec pingWorld ((createEvents 0 "k").take 4) = some w ∧
    (system nullCodec).step w (.apiFail 0) = some w' ∧
    w'.db.rows = w.db.rows ∧ (w.calls 0).Leaves w 0 (w.footprint 0) := by
  obtain ⟨w, hw, hrun⟩ := Machine.exists_run (system nullCodec) (fun _ _ => True) pingWorld
    ((createEvents 0 "k").take 4) (by decide) (by decide)
  have hsome : (((system nullCodec).exec pingWorld ((createEvents 0 "k").take 4)).bind
      fun w => (system nullCodec).step w (.apiFail 0)).isSome := by decide
  rw [hw] at hsome
  obtain ⟨w', hw'⟩ := Option.isSome_iff_exists.mp hsome
  have hleft := failed_call_leaves hrun hw'
  exact ⟨w, w', hw, hw', hleft.2.1.1, hleft.2.2.1⟩

/-- A call that raises can leave traces: after a failed commit its message stays
published, after a failed refresh its row stays as well, and after a failed UPDATE
of `cancel_job` the worker `v` keeps the revocation. -/
theorem failed_call_leaves_trace :
    ((system nullCodec).exec pingWorld ((createEvents 0 "k").take 4 ++ [.apiFail 0])).map
        (fun w => (w.db.rows.map Job.id, (w.publishedFor 0).map Message.id)) = some ([], [1]) ∧
    ((system nullCodec).exec pingWorld ((createEvents 0 "k").take 5 ++ [.apiFail 0])).map
        (fun w => (w.db.rows.map Job.id, (w.publishedFor 0).map Message.id)) = some ([0], [1]) ∧
    ((system nullCodec).exec pingWorld (createEvents 0 "k" ++
        [.call 1 (.cancelJob 0), .api 1, .revoke 1 ["v"], .apiFail 1])).map
        (fun w => (w.db.rows.map Job.status, w.heard "v")) = some ([.pending], [1]) := by
  decide

end Aegis
