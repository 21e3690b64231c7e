/-
# `AegisWorkers.Cancel` — a cancelled job does not run, if nobody holds its message

`cancel_job` checks the status, revokes the message and writes CANCELLED, and the
hooks of a worker write without looking.  What is needed for a successful cancel to
mean that the job does not run is a condition on the workers (`cancelSafe`):

  * at the SELECT of the call no worker holds a message of the job;
  * from then on only a worker that has received the revocation takes one;
  * a `before_start` of the job is recorded: the row is committed when it runs, and
    its UPDATE does not fail.

`Cancelled` is the invariant.  Before the SELECT it says that a PENDING row means an
untouched job; from the SELECT on it says that nobody holds a message of the job.
-/
import AegisWorkers.Deliveries

namespace Aegis

open BaseTask JobService ReadCommitted

/-- A worker holds a message of job `j`. -/
def Slot.heldFor (j : Uuid) : Slot → Bool
  | .delivered m _ _ => m.jobId = j
  | _ => false

/-- The call has read job `j` as PENDING on its way to cancel it, and has not failed. -/
def Call.cancels (j : Uuid) : Call → Bool
  | .cancelJob _ .called => false
  | .cancelJob jobId _ => jobId = j
  | .returned (.cancelJob jobId) (.cancelled _) => jobId = j
  | _ => false

/-- When the call `c` may cancel job `j`. -/
def cancelSafe (c : CallId) (j : Uuid) (w : World) : Event → Bool
  | .api c' =>
      match w.calls c' with
      | .cancelJob jobId .called =>
          decide (c' = c → jobId = j → (w.db.find j).map Job.status = some .pending →
            ∀ s < w.nextSlot, ¬ (w.slots s).heldFor j)
      | _ => true
  | .take s worker =>
      match w.slots s with
      | .queued m => decide ((w.calls c).cancels j → m.jobId = j → m.id ∈ w.heard worker)
      | _ => true
  | .work s i =>
      match w.slots s with
      | .delivered m _ .received => decide (m.jobId = j → (w.db.find j).isSome ∧ Input.ok i)
      | _ => true
  | _ => true

/-! ## The invariant -/

/-- No worker holds a message of job `j`. -/
def Unheld (j : Uuid) (w : World) : Prop := ∀ s, ¬ (w.slots s).heldFor j

/-- `before_start` has not run for a message of job `j` that a worker holds, and
`execute()` has never been called for the job. -/
structure Untouched (j : Uuid) (w : World) : Prop where
  received : ∀ s m worker phase, w.slots s = .delivered m worker phase → m.jobId = j →
    phase = .received
  executions : w.executions j = 0

/-- The row of job `j`, if committed, is PENDING. -/
def Pending (j : Uuid) (w : World) : Prop := ∀ r, w.db.find j = some r → r.status = .pending

structure Cancelled (c : CallId) (j : Uuid) (w : World) : Prop where
  pending : Pending j w → Untouched j w
  unheld : (w.calls c).cancels j → Unheld j w
  executions : (w.calls c).cancels j → w.executions j = 0
  row : (w.calls c).cancels j →
    ∃ r, w.db.find j = some r ∧ (r.status = .pending ∨ r.status = .cancelled)
  returned : ∀ resp, w.calls c = .returned (.cancelJob j) (.cancelled resp) →
    ∃ r, w.db.find j = some r ∧ r.status = .cancelled

theorem cancelled_init (c : CallId) (j : Uuid) (allowed : List String) :
    Cancelled c j (.init allowed) where
  pending _ := ⟨fun _ _ _ _ h => (nomatch h), rfl⟩
  unheld h := absurd h Bool.false_ne_true
  executions h := absurd h Bool.false_ne_true
  row h := absurd h Bool.false_ne_true
  returned _ h := nomatch h

section Call
variable {J : JsonCodec} {w w' : World} {e : Event} {c : CallId} {j : Uuid}

/-- A call that is over stays as it is. -/
theorem returned_stays {op : Op} {r : Response} (hc : w.calls c = .returned op r)
    (hs : (system J).step w e = some w') : w'.calls c = .returned op r := by
  by_cases he : e.call? = some c
  · cases step_api he hs with
    | enter op' hx => rw [hc] at hx; cases hx
    | move hl => rw [hc] at hl; cases hl
    | raise hop _ => rw [hc] at hop; cases hop
    | violate hb _ => rw [hc] at hb; cases hb
    | flush hb _ => rw [hc] at hb; cases hb
    | send hx => rw [hc] at hx; cases hx
    | land hx => rw [hc] at hx; cases hx
    | lock hx _ => rw [hc] at hx; cases hx
    | cancel hx => rw [hc] at hx; cases hx
    | revoke _ hx _ => rw [hc] at hx; cases hx
  · rw [step_calls_ne he hs]
    exact hc

/-- A call has come to cancel `j` just now, by its SELECT, or was doing so before. -/
theorem ApiStep.cancels (h : ApiStep w c w') (hc : (w'.calls c).cancels j) :
    (w.calls c).cancels j ∨ w.calls c = .cancelJob j .called ∧
      (∃ r, w.db.find j = some r ∧ r.status = .pending) ∧ w'.slots = w.slots ∧
        w'.trace = w.trace ∧ w'.db = w.db := by
  cases h with
  | enter op _ =>
      rw [calls_setCall_self] at hc
      have hx := enter_cases w.allowedTaskNames op
      generalize JobService.enter w.allowedTaskNames op = x at hx hc
      cases hx <;> exact absurd hc Bool.false_ne_true
  | @move y hl =>
      rw [calls_setCall_self] at hc
      generalize w.calls c = x at hl ⊢
      cases hl with
      | hit _ => exact absurd hc Bool.false_ne_true
      | miss _ => exact absurd hc Bool.false_ne_true
      | checkCancel hf hp =>
          obtain rfl := of_decide_eq_true hc
          exact .inr ⟨rfl, ⟨_, hf, hp⟩, rfl, rfl, rfl⟩
      | noTask _ => exact .inl hc
      | checkRetry _ _ => exact absurd hc Bool.false_ne_true
      | @refresh sub row _ =>
          cases hop : sub.op <;> rw [hop] at hc <;> exact absurd hc Bool.false_ne_true
  | lock hx _ =>
      rw [calls_setCall_self] at hc
      rw [hx]
      exact .inl hc
  | cancel hx =>
      rw [calls_return_self] at hc
      rw [hx]
      exact .inl hc
  | revoke _ hx _ =>
      rw [calls_setCall_self] at hc
      rw [hx]
      exact .inl hc
  | _ =>
      simp only [calls_setCall_self, calls_raise_self] at hc
      exact absurd hc Bool.false_ne_true

/-- A call comes to return from `cancel_job` by its commit. -/
theorem ApiStep.returns_cancelled (h : ApiStep w c w') (hs : Sessions w)
    {resp : JobCancelResponse}
    (hc : w'.calls c = .returned (.cancelJob j) (.cancelled resp)) :
    w.calls c = .cancelJob j .updated ∧
      ∃ began, w'.db.find j = (w.db.find j).map (cancelPatch began).apply := by
  cases h with
  | enter op _ =>
      rw [calls_setCall_self] at hc
      have hx := enter_cases w.allowedTaskNames op
      rw [hc] at hx
      cases hx
  | @move y hl =>
      rw [calls_setCall_self] at hc
      generalize w.calls c = x at hl
      cases hl with
      | @refresh sub row _ =>
          rw [Call.returned.injEq] at hc
          obtain ⟨hop, hresp⟩ := hc
          rw [hop] at hresp
          cases hresp
      | hit _ => cases hc
      | _ => cases hc
  | @cancel jobId hx =>
      have ha : ApiStep w c _ := .cancel hx
      simp only [calls_return_self, Call.returned.injEq,
        Op.cancelJob.injEq] at hc
      obtain ⟨rfl, -⟩ := hc
      refine ⟨hx, ?_⟩
      have hses := hs c
      rw [hx] at hses
      obtain ⟨hins, began, hupd⟩ := hses
      refine ⟨began, find_cancelled ?_⟩
      simp only [db_return, db_observe, Store.rows_commit, hins, hupd,
        List.append_nil]
      rfl
  | _ => simp at hc

end Call

/-! ## Preservation -/

section Step
variable {J : JsonCodec} {w w' : World} {e : Event} {c : CallId} {j : Uuid}

theorem unheld_delivered (h : Unheld j w) {s : SlotId} {m : Message} {worker : Worker}
    {phase : Phase} (hs : w.slots s = .delivered m worker phase) : m.jobId ≠ j := by
  intro hj
  refine h s ?_
  rw [hs]
  exact decide_eq_true hj

/-- A PENDING row has never been anything else: no UPDATE of the code writes PENDING. -/
theorem pending_before (hg : Ground w) (he : SysStep J w e w') (h : Pending j w') :
    Pending j w := by
  intro r hr
  cases he.row hg j with
  | stays hf => exact h r (hf ▸ hr)
  | landed _ _ _ hnone _ => rw [hnone] at hr; cases hr
  | cancelled _ _ hf =>
      rw [hr] at hf
      have hpend := h _ hf
      cases hpend
  | written _ _ hp hw _ _ _ hf =>
      rw [hr] at hf
      exact absurd (h _ hf) (hp.write hw).status.1

theorem Untouched.step (h : Untouched j w) (hg : Ground w) (hP : cancelSafe c j w e)
    (he : SysStep J w e w') (hpend' : Pending j w') : Untouched j w' := by
  -- a delivery of `j` that makes a move is a start, and a start is recorded in the row
  have hno : ∀ s i m worker phase, e = .work s i → w.slots s = .delivered m worker phase →
      m.jobId ≠ j := by
    rintro s i m worker phase rfl hs hj
    obtain rfl := h.received s m worker phase hs hj
    simp only [cancelSafe, hs] at hP
    obtain ⟨hsome, hok⟩ := of_decide_eq_true hP hj
    obtain ⟨r, hr⟩ := Option.isSome_iff_exists.mp hsome
    rcases he.worked with ⟨hev, hs', hp, hdb, rfl⟩ | hne
    · obtain ⟨rfl, rfl⟩ := Event.work.inj hev
      rw [hs, Slot.delivered.injEq] at hs'
      obtain ⟨rfl, rfl, rfl⟩ := hs'
      cases hp with
      | start =>
          rcases find_write hdb j with ⟨-, hn⟩ | ⟨wr, hw, -, -, -, hf⟩
          · have hfail := hn _ rfl hj
            cases hfail
          · obtain rfl := Option.some.inj hw
            rw [hr] at hf
            have hrunning := hpend' _ hf
            cases hrunning
      | startFails exc => cases hok
    · exact absurd rfl (hne s i)
  constructor
  · intro s m worker phase hs hj
    cases he.delivered hg.bounded hs with
    | stays _ hs₀ => exact h.received s m worker phase hs₀ hj
    | taken _ _ hr => exact hr
    | advanced hev hs₀ _ _ _ => exact absurd hj (hno s _ _ _ _ hev hs₀)
  · rcases he.worked with ⟨hev, hs, hp, -, rfl⟩ | hne
    · rw [executions_apply hp, if_neg (hno _ _ _ _ _ hev hs), h.executions]
    · rw [he.executions hne]
      exact h.executions

/-- While the call cancels `j`, nobody comes to hold a message of `j`, and nobody runs it. -/
theorem Unheld.step (h : Unheld j w) (hc : (w.calls c).cancels j) (hg : Ground w)
    (hP : cancelSafe c j w e) (he : SysStep J w e w') : Unheld j w' := by
  intro s hs
  cases he.slot hg.bounded s with
  | stays hs₀ => exact h s (hs₀ ▸ hs)
  | taken hev hs₀ hheard hs' =>
      rw [hs'] at hs
      subst hev
      simp only [cancelSafe, hs₀] at hP
      exact hheard (of_decide_eq_true hP hc (of_decide_eq_true hs))
  | advanced _ hs₀ _ _ hs' =>
      rw [hs'] at hs
      exact unheld_delivered h hs₀ (of_decide_eq_true hs)
  | published _ _ _ hs' _ => rw [hs'] at hs; exact absurd hs Bool.false_ne_true
  | retried _ _ _ _ _ hs' => rw [hs'] at hs; exact absurd hs Bool.false_ne_true
  | redelivered _ _ _ hs' => rw [hs'] at hs; exact absurd hs Bool.false_ne_true
  | dropped _ _ _ hs' => rw [hs'] at hs; exact absurd hs Bool.false_ne_true
  | acknowledged _ _ _ _ hs' => rw [hs'] at hs; exact absurd hs Bool.false_ne_true
  | crashed _ _ hs' => rw [hs'] at hs; exact absurd hs Bool.false_ne_true

theorem Unheld.executions (h : Unheld j w) (he : SysStep J w e w') :
    w'.executions j = w.executions j := by
  rcases he.worked with ⟨-, hs, hp, -, rfl⟩ | hne
  · rw [executions_apply hp, if_neg (unheld_delivered h hs), Nat.zero_add]
  · exact he.executions hne

/-- While nobody holds a message of `j`, its row changes to CANCELLED only. -/
theorem Unheld.row (h : Unheld j w) (hg : Ground w) (he : SysStep J w e w') {r : Job}
    (hr : w.db.find j = some r) :
    ∃ r', w'.db.find j = some r' ∧ (r'.status = r.status ∨ r'.status = .cancelled) := by
  cases he.row hg j with
  | stays hf => exact ⟨r, hf.trans hr, .inl rfl⟩
  | landed _ _ _ hnone _ => rw [hr] at hnone; cases hnone
  | cancelled _ _ hf =>
      rw [hr] at hf
      exact ⟨_, hf, .inr rfl⟩
  | written _ hs _ _ _ hj _ _ => exact absurd hj (unheld_delivered h hs)

/-- The call was cancelling `j` before the step, or has just read it PENDING while nobody
held a message of it. -/
theorem Cancelled.cancels_step (h : Cancelled c j w) (hg : Ground w) (hP : cancelSafe c j w e)
    (hs : (system J).step w e = some w') (hc : (w'.calls c).cancels j) :
    (w.calls c).cancels j ∨ Unheld j w' ∧ w'.executions j = 0 ∧
      ∃ r, w'.db.find j = some r ∧ r.status = .pending := by
  by_cases he : e.call? = some c
  · rcases (step_api he hs).cancels hc with hold | ⟨hx, ⟨r, hr, hp⟩, hslots, htrace, hdb⟩
    · exact .inl hold
    · have hpend : Pending j w := by
        intro r' hr'
        rw [hr, Option.some.injEq] at hr'
        exact hr' ▸ hp
      have hexec := (h.pending hpend).executions
      cases e with
      | api c' =>
          obtain rfl := Option.some.inj he
          have hfree : ∀ s < w.nextSlot, ¬ (w.slots s).heldFor j := by
            simpa [cancelSafe, hx, hr, hp] using hP
          refine .inr ⟨?_, ?_, r, hdb ▸ hr, hp⟩
          · intro s hheld
            rw [hslots] at hheld
            refine hfree s (hg.bounded.lt ?_) hheld
            intro hempty
            rw [hempty] at hheld
            exact absurd hheld Bool.false_ne_true
          · rw [World.executions, htrace]
            exact hexec
      | call c' op =>
          obtain rfl := Option.some.inj he
          obtain ⟨hidle, -⟩ := call_eq_some hs
          rw [hx] at hidle
          cases hidle
      | revoke c' receivers =>
          obtain rfl := Option.some.inj he
          obtain ⟨_, _, _, _, hchecked, -, -⟩ := revoke_eq_some hs
          rw [hx] at hchecked
          cases hchecked
      | apiFail c' =>
          obtain rfl := Option.some.inj he
          obtain ⟨op, -, rfl⟩ := apiFail_cases hs
          rw [calls_raise_self] at hc
          exact absurd hc Bool.false_ne_true
      | _ => cases he
  · rw [step_calls_ne he hs] at hc
    exact .inl hc

theorem Cancelled.step (h : Cancelled c j w) (hg : Ground w) (hP : cancelSafe c j w e)
    (hs : (system J).step w e = some w') : Cancelled c j w' := by
  have he := step_cases hs
  constructor
  · intro hpend'
    exact (h.pending (pending_before hg he hpend')).step hg hP he hpend'
  · intro hc
    rcases h.cancels_step hg hP hs hc with hold | ⟨hun, -, -⟩
    · exact (h.unheld hold).step hold hg hP he
    · exact hun
  · intro hc
    rcases h.cancels_step hg hP hs hc with hold | ⟨-, hex, -⟩
    · rw [(h.unheld hold).executions he]
      exact h.executions hold
    · exact hex
  · intro hc
    rcases h.cancels_step hg hP hs hc with hold | ⟨-, -, r, hr, hp⟩
    · obtain ⟨r, hr, hst⟩ := h.row hold
      obtain ⟨r', hr', hst'⟩ := (h.unheld hold).row hg he hr
      refine ⟨r', hr', ?_⟩
      rcases hst' with hst' | hst'
      · rw [hst']; exact hst
      · exact .inr hst'
    · exact ⟨r, hr, .inl hp⟩
  · intro resp hc
    by_cases hret : w.calls c = .returned (.cancelJob j) (.cancelled resp)
    · obtain ⟨r, hr, hst⟩ := h.returned resp hret
      have hcan : (w.calls c).cancels j := by rw [hret]; exact decide_eq_true rfl
      obtain ⟨r', hr', hst'⟩ := (h.unheld hcan).row hg he hr
      refine ⟨r', hr', ?_⟩
      rcases hst' with hst' | hst'
      · exact hst'.trans hst
      · exact hst'
    · by_cases hev : e.call? = some c
      · obtain ⟨hx, began, hf⟩ := (step_api hev hs).returns_cancelled hg.sessions hc
        obtain ⟨r, hr, -⟩ := h.row (by rw [hx]; exact decide_eq_true rfl)
        rw [hr] at hf
        exact ⟨_, hf, rfl⟩
      · rw [step_calls_ne hev hs] at hc
        exact absurd hc hret

end Step

/-! ## Whole runs -/

/-- A successful cancel means that the job does not run: in every run that keeps
`cancelSafe`, once `cancel_job` has returned, `execute()` has not been called for the job
and never is, and its row is CANCELLED for ever. -/
theorem cancelled_never_runs {J : JsonCodec} {allowed : List String} {es es' : List Event}
    {w w' : World} {c : CallId} {j : Uuid} {resp : JobCancelResponse}
    (h : (system J).Run (fun w e => cancelSafe c j w e) (.init allowed) es w)
    (hc : w.calls c = .returned (.cancelJob j) (.cancelled resp))
    (h' : (system J).Run (fun w e => cancelSafe c j w e) w es' w') :
    w'.executions j = 0 ∧ ∃ r, w'.db.find j = some r ∧ r.status = .cancelled := by
  have hall := run_invariant (I := Cancelled c j) (h.append h') (ground_init allowed)
    (cancelled_init c j allowed) fun hg hi hP hs => hi.step hg hP hs
  have hret : w'.calls c = .returned (.cancelJob j) (.cancelled resp) :=
    h'.invariant (I := fun w => w.calls c = .returned (.cancelJob j) (.cancelled resp))
      (fun hx _ hs => returned_stays hx hs) hc
  exact ⟨hall.2.executions (by rw [hret]; exact decide_eq_true rfl), hall.2.returned resp hret⟩

/-- `cancel_job` of job 0 in call 1, its revocation received by `v`. -/
def cancelEvents : List Event := [.call 1 (.cancelJob 0), .api 1, .revoke 1 ["v"], .api 1, .api 1]

/-- The message is still queued when the call returns, and `v` drops it. -/
theorem cancelled_never_runs_ping : ∃ w w',
    (system nullCodec).exec pingWorld (createEvents 0 "k" ++ cancelEvents) = some w ∧
    (system nullCodec).exec w [.take 0 "v"] = some w' ∧
    w'.executions 0 = 0 ∧ ∃ r, w'.db.find 0 = some r ∧ r.status = .cancelled := by
  obtain ⟨w, hw, hrun, hcall⟩ := Machine.exists_run_obs (system nullCodec)
    (fun w e => cancelSafe 1 0 w e) pingWorld (createEvents 0 "k" ++ cancelEvents)
    (fun w => w.calls 1) (.returned (.cancelJob 0) (.cancelled (cancelResponse 0))) rfl
    (by decide)
  have hlater : ((system nullCodec).exec pingWorld (createEvents 0 "k" ++ cancelEvents)).map
      (fun w => (((system nullCodec).exec w [.take 0 "v"]).isSome,
        decide ((system nullCodec).Along (fun w e => cancelSafe 1 0 w e = true) w
          [.take 0 "v"]))) = some (true, true) := by decide
  rw [hw, Option.map_some, Option.some.injEq] at hlater
  rw [Prod.mk.injEq, decide_eq_true_eq] at hlater
  obtain ⟨w', hw', hrun'⟩ := Machine.exists_run (system nullCodec)
    (fun w e => cancelSafe 1 0 w e) w [.take 0 "v"] hlater.1 hlater.2
  exact ⟨w, w', hw, hw', cancelled_never_runs hrun hcall hrun'⟩

/-- A worker takes the message between the SELECT and the revocation: `cancel_job` returns
success while `execute()` is running, and the job ends COMPLETED. -/
theorem cancelled_runs : ∃ w w',
    (system nullCodec).exec pingWorld (createEvents 0 "k" ++ cancelEvents.take 2 ++
      startEvents 0 "v" ++ cancelEvents.drop 2) = some w ∧
    w.calls 1 = .returned (.cancelJob 0) (.cancelled (cancelResponse 0)) ∧
    w.executions 0 = 1 ∧
    (system nullCodec).exec w (finishEvents 0) = some w' ∧
    (w'.db.find 0).map Job.status = some .completed := by
  have hrun : ((system nullCodec).exec pingWorld (createEvents 0 "k" ++ cancelEvents.take 2 ++
      startEvents 0 "v" ++ cancelEvents.drop 2)).map (fun w => (w.executions 0,
        ((system nullCodec).exec w (finishEvents 0)).map fun w' =>
          (w'.db.find 0).map Job.status)) = some (1, some (some .completed)) := by decide
  have hcall : ((system nullCodec).exec pingWorld (createEvents 0 "k" ++ cancelEvents.take 2 ++
      startEvents 0 "v" ++ cancelEvents.drop 2)).map (fun w => w.calls 1) =
        some (.returned (.cancelJob 0) (.cancelled (cancelResponse 0))) := rfl
  obtain ⟨w, hw, hobs⟩ := Option.map_eq_some_iff.mp hrun
  rw [hw, Option.map_some, Option.some.injEq] at hcall
  rw [Prod.mk.injEq] at hobs
  obtain ⟨w', hw', hst⟩ := Option.map_eq_some_iff.mp hobs.2
  exact ⟨w, w', hw, hcall, hobs.1, hw', hst⟩

end Aegis
