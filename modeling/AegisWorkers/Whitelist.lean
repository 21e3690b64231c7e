/-
# `AegisWorkers.Whitelist` — what may be enqueued

`create_job` checks the whitelist before its first external call; `retry_dlq_job` does not
check it at all, and takes the task name from a row that may be older than the whitelist in
force.  As long as the whitelist is changed between calls only (`betweenCalls`), what is
published is allowed in every run in which each retried row finds its task name still on
the whitelist (`retriesAllowed`).

`Vetted` is the invariant: the task a call is going to publish is allowed.
-/
import AegisWorkers.Enqueue

namespace Aegis

open BaseTask JobService ReadCommitted

/-! ## The property and the condition -/

/-- What the event publishes, if anything, names a task of the whitelist in force. -/
def PublishesAllowed (J : JsonCodec) (w : World) (e : Event) : Prop :=
  ∀ w' c m, (system J).step w e = some w' → w'.trace = .published c m :: w.trace →
    m.taskName ∈ w.allowedTaskNames

/-- The whitelist is changed only while no call is in flight. -/
def betweenCalls (w : World) : Event → Prop
  | .deploy _ => ∀ c, (w.calls c).op? = none
  | _ => True

/-- A `retry_dlq_job` that finds a DLQ row finds its task name on the whitelist. -/
def retriesAllowed (w : World) : Event → Bool
  | .api c =>
      match w.calls c with
      | .retryDlqJob j .called =>
          match w.db.find j with
          | some r => decide (r.status = .dlq → r.taskName ∈ w.allowedTaskNames)
          | none => true
      | _ => true
  | _ => true

/-! ## The invariant -/

/-- The task a call is going to publish. -/
def Call.task? : Call → Option String
  | .createJob req _ => some req.taskName
  | .retryDlqJob _ (.checked _ original) => some original.taskName
  | .submitting sub .flushed => some sub.taskName
  | _ => none

/-- The task a call is going to publish is allowed. -/
def Vetted (w : World) : Prop :=
  ∀ c t, (w.calls c).task? = some t → t ∈ w.allowedTaskNames

theorem vetted_init (allowed : List String) : Vetted (.init allowed) := fun _ _ h => nomatch h

section Step
variable {J : JsonCodec} {w w' : World} {e : Event} {c : CallId}

theorem ApiStep.allowed (h : ApiStep w c w') : w'.allowedTaskNames = w.allowedTaskNames := by
  cases h with
  | land _ => exact allowed_countSubmission _ _
  | _ => rfl

/-- Only a deployment changes the whitelist. -/
theorem step_allowed (hs : (system J).step w e = some w') (he : ∀ allowed, e ≠ .deploy allowed) :
    w'.allowedTaskNames = w.allowedTaskNames := by
  cases step_cases hs with
  | api _ ha => exact ha.allowed
  | env hn _ =>
      cases e with
      | boot worker => exact Option.some.inj hs ▸ rfl
      | tick n => exact Option.some.inj hs ▸ rfl
      | expire key => exact Option.some.inj hs ▸ rfl
      | deploy allowed => exact absurd rfl (he allowed)
      | dlqReceive =>
          change w.dlqReceive = some w' at hs
          unfold World.dlqReceive at hs
          split at hs
          · exact Option.some.inj hs ▸ rfl
          · cases hs
      | updateDlqMetrics ok => exact Option.some.inj hs ▸ rfl
      | _ => cases hn
  | _ => rfl

theorem Call.op?_of_task? {x : Call} {t : String} (h : x.task? = some t) : x.op? ≠ none := by
  cases x with
  | createJob req pc => exact Option.some_ne_none _
  | retryDlqJob j pc => exact Option.some_ne_none _
  | submitting sub stage => exact Option.some_ne_none _
  | _ => cases h

/-- A call is going to publish what it was, or has just checked its request or its row. -/
theorem ApiStep.task? (h : ApiStep w c w') {t : String} (ht : (w'.calls c).task? = some t) :
    (w.calls c).task? = some t ∨ t ∈ w.allowedTaskNames ∨
      ∃ j r, w.calls c = .retryDlqJob j .called ∧ w.db.find j = some r ∧ r.status = .dlq ∧
        t = r.taskName := by
  cases h with
  | enter op _ =>
      rw [calls_setCall_self] at ht
      cases op with
      | createJob req =>
          simp only [JobService.enter] at ht
          split at ht
          · rename_i hmem
            exact .inr (.inl (Option.some.inj ht ▸ hmem))
          · cases ht
      | _ => cases ht
  | @move y hl =>
      rw [calls_setCall_self] at ht
      generalize w.calls c = x at hl ⊢
      cases hl with
      | miss _ => exact .inl ht
      | checkRetry hf hd => exact .inr (.inr ⟨_, _, rfl, hf, hd, (Option.some.inj ht).symm⟩)
      | _ => cases ht
  | flush hb _ =>
      rw [calls_setCall_self] at ht
      refine .inl ?_
      generalize w.calls c = x at hb ⊢
      cases hb <;> exact ht
  | send _ => rw [calls_setCall_self] at ht; cases ht
  | land _ => rw [calls_setCall_self] at ht; cases ht
  | lock _ _ => rw [calls_setCall_self] at ht; cases ht
  | revoke _ _ _ => rw [calls_setCall_self] at ht; cases ht
  | raise _ _ => rw [calls_raise_self] at ht; cases ht
  | violate _ _ => rw [calls_raise_self] at ht; cases ht
  | cancel _ => rw [calls_return_self] at ht; cases ht

/-- The SELECT of `retry_dlq_job` is an event `retriesAllowed` looks at. -/
theorem retriesAllowed_select (hP : retriesAllowed w e) (he : e.call? = some c)
    (hs : (system J).step w e = some w') {j : Uuid} (hc : w.calls c = .retryDlqJob j .called)
    {r : Job} (hf : w.db.find j = some r) (hd : r.status = .dlq)
    (ht : (w'.calls c).task? ≠ none) : r.taskName ∈ w.allowedTaskNames := by
  rcases select_cases he hs hc with rfl | rfl
  · simp only [retriesAllowed, hc, hf] at hP
    exact of_decide_eq_true hP hd
  · rw [calls_raise_self] at ht
    exact absurd rfl ht

theorem Vetted.step (h : Vetted w) (hP : betweenCalls w e) (hP' : retriesAllowed w e)
    (hs : (system J).step w e = some w') : Vetted w' := by
  intro c t ht
  by_cases hd : ∃ allowed, e = .deploy allowed
  · obtain ⟨allowed, rfl⟩ := hd
    obtain rfl := Option.some.inj hs
    exact absurd (hP c) (Call.op?_of_task? ht)
  · rw [step_allowed hs fun allowed he => hd ⟨allowed, he⟩]
    by_cases hc : e.call? = some c
    · rcases (step_api hc hs).task? ht with ht₀ | hmem | ⟨j, r, hx, hf, hst, rfl⟩
      · exact h c t ht₀
      · exact hmem
      · exact retriesAllowed_select hP' hc hs hx hf hst (ht ▸ Option.some_ne_none _)
    · rw [step_calls_ne hc hs] at ht
      exact h c t ht

/-- What is published is the task of a submission that has flushed. -/
theorem Vetted.publishes (h : Vetted w) : PublishesAllowed J w e := by
  intro w' c m hs htrace
  have hnew : w'.published = m :: w.published := by rw [World.published, htrace]; rfl
  have hne : m :: w.published ≠ w.published := List.cons_ne_self _ _
  rcases (step_cases hs).api_or_offstage with ⟨c', -, ha⟩ | ⟨-, ho⟩
  · cases ha.published with
    | same hp _ => exact absurd (hnew.symm.trans hp) hne
    | sent sub hc _ hp _ _ =>
        obtain ⟨rfl, -⟩ := List.cons.inj (hnew.symm.trans hp)
        exact h c' sub.taskName (by rw [hc]; rfl)
  · exact absurd (hnew.symm.trans ho.published) hne

end Step

/-! ## Whole runs -/

/-- In every run in which the whitelist changes between calls only and each retried row finds
its task name on the whitelist, every message names a task of the whitelist in force. -/
theorem published_allowed {J : JsonCodec} {allowed : List String} {es : List Event} {w : World}
    (h : (system J).Run (fun w e => betweenCalls w e ∧ retriesAllowed w e) (.init allowed) es w) :
    (system J).Along (PublishesAllowed J) (.init allowed) es :=
  h.along (I := Vetted) (fun hi hP hs => hi.step hP.1 hP.2 hs) (fun hi _ => hi.publishes)
    (vetted_init allowed)

/-- What `betweenCalls` asks of the first `n` calls. -/
def betweenCallsBelow (n : Nat) (w : World) : Event → Bool
  | .deploy _ => decide (∀ c < n, (w.calls c).op? = none)
  | _ => true

/-- A schedule of the first `n` calls keeps to the policy, if it does so among these. -/
theorem run_betweenCalls {J : JsonCodec} {n : Nat} {allowed : List String} {es : List Event}
    {w : World} {P : World → Event → Prop}
    (h : (system J).Run (fun w e => (betweenCallsBelow n w e ∧ e.within n) ∧ P w e)
      (.init allowed) es w) :
    (system J).Run (fun w e => betweenCalls w e ∧ P w e) (.init allowed) es w := by
  refine h.imp (I := IdleFrom n) (fun hi hP hs => hi.step hP.1.2 hs) ?_ fun _ _ => rfl
  rintro w e hi ⟨⟨hP, -⟩, hP'⟩
  refine ⟨?_, hP'⟩
  cases e with
  | deploy a => exact hi.forall (Q := fun x => x.op? = none) rfl (of_decide_eq_true hP)
  | _ => trivial

/-- A job is retried from DLQ after a deployment that keeps its task. -/
theorem published_allowed_ping : (system nullCodec).Along (PublishesAllowed nullCodec) pingWorld
    (createEvents 0 "k" ++ startEvents 0 "v" ++ buryEvents 0 ++ [.deploy ["pong", "ping"]] ++
      retryEvents 1 0) := by
  obtain ⟨w, -, hrun⟩ := Machine.exists_run (system nullCodec)
    (fun w e => (betweenCallsBelow 2 w e ∧ e.within 2) ∧ retriesAllowed w e) pingWorld
    (createEvents 0 "k" ++ startEvents 0 "v" ++ buryEvents 0 ++ [.deploy ["pong", "ping"]] ++
      retryEvents 1 0) (by decide) (by decide)
  exact published_allowed (run_betweenCalls hrun)

/-- `send_task` is the next external call. -/
def Call.flushed : Call → Bool
  | .submitting _ .flushed => true
  | _ => false

theorem Call.eq_of_flushed {x : Call} (h : x.flushed) : ∃ sub, x = .submitting sub .flushed := by
  cases x with
  | submitting sub stage =>
      cases stage with
      | flushed => exact ⟨sub, rfl⟩
      | _ => cases h
  | _ => cases h

/-- The task of a job in DLQ is taken off the whitelist, and then the job is retried. -/
def withdrawnEvents : List Event :=
  createEvents 0 "k" ++ startEvents 0 "v" ++ buryEvents 0 ++ [.deploy []] ++
    (retryEvents 1 0).take 3

theorem published_withdrawn : ∃ w, (system nullCodec).Run betweenCalls pingWorld
      withdrawnEvents w ∧ ¬ PublishesAllowed nullCodec w (.api 1) := by
  obtain ⟨w, -, hrun, hobs⟩ := Machine.exists_run_obs (system nullCodec)
    (fun w e => (betweenCallsBelow 2 w e ∧ e.within 2) ∧ True) pingWorld withdrawnEvents
    (fun w => (w.allowedTaskNames, (w.calls 1).flushed)) ([], true) (by decide) (by decide)
  obtain ⟨hnone, hflushed⟩ := Prod.mk.inj hobs
  refine ⟨w, (run_betweenCalls hrun).imp (I := fun _ => True) (fun _ _ _ => trivial)
    (fun _ hP => hP.1) trivial, ?_⟩
  intro hallowed
  obtain ⟨sub, hc⟩ := Call.eq_of_flushed hflushed
  have hs : (system nullCodec).step w (.api 1) = some
      ((w.sendTask 1 (message sub w.uuid)).setCall 1 (.submitting sub (.sent w.uuid))) := by
    show JobService.api w 1 = _
    simp only [JobService.api, hc, submit]
  have hmem := hallowed _ 1 (message sub w.uuid) hs rfl
  rw [hnone] at hmem
  cases hmem

end Aegis
