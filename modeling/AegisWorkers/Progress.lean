/-
# `AegisWorkers.Progress` — nobody waits for somebody who waits

The database makes a party wait in three places: an INSERT, for the open transaction that
holds its key; the UPDATE of `cancel_job`, for another cancellation of the row; an UPDATE of
a worker, for a cancellation of its row.  `Waits w d x` says that party `x` is in one of
them because of call `d`.

What `d` holds it has from its flush, or from its UPDATE, and from there on no external call
of it can wait: two of them, at most, and the transaction is committed.  So the graph of
`Waits` has no path of two edges, and no deadlock is reachable.  A worker's UPDATE and its
commit are one step (`World.write`): deliveries wait here, and nobody waits for one.
-/
import AegisWorkers.Attempts

namespace Aegis

open BaseTask JobService ReadCommitted

/-- Whoever makes external calls: an API call, or the delivery in a slot. -/
inductive Party where
  | call (c : CallId)
  | slot (s : SlotId)

/-- Party `x` waits for the transaction of call `d`. -/
inductive Waits (w : World) (d : CallId) : Party → Prop
  | insert {c : CallId} {n : Nat} {sub : Submission} {r : Job} : Builds w (w.calls c) n sub →
      (d, r) ∈ w.db.pending → d ≠ c →
      (r.id = sub.job.id ∨ r.idempotencyKey = sub.job.idempotencyKey) → Waits w d (.call c)
  | lock {c : CallId} {jobId : Uuid} {began : Time} :
      w.calls c = .cancelJob jobId (.revoked began) → w.calls d = .cancelJob jobId .updated →
      Waits w d (.call c)
  | update {s : SlotId} {m : Message} {worker : Worker} {phase : Phase} :
      w.slots s = .delivered m worker phase → w.calls d = .cancelJob m.jobId .updated →
      Waits w d (.slot s)

/-- The next external call of the party returns, if made now. -/
def Party.Ready (J : JsonCodec) (w : World) : Party → Prop
  | .call c => ∃ e w', (e = .api c ∨ ∃ receivers, e = .revoke c receivers) ∧
      (system J).step w e = some w'
  | .slot s => ∀ m worker phase, w.slots s = .delivered m worker phase →
      ∀ x, (∀ delay, x ≠ .retry delay) →
        ∃ w', (system J).step w (.work s (phase.input x)) = some w'

/-- The call is in flight, or the slot holds a delivery. -/
def Party.InFlight (w : World) : Party → Prop
  | .call c => (w.calls c).op?.isSome
  | .slot s => ∃ m worker phase, w.slots s = .delivered m worker phase

/-- The call has written and not yet committed. -/
inductive Call.Holds : Call → Prop
  | flushed {sub : Submission} : Holds (.submitting sub .flushed)
  | sent {sub : Submission} {t : Uuid} : Holds (.submitting sub (.sent t))
  | updated {jobId : Uuid} : Holds (.cancelJob jobId .updated)

section Holders
variable {J : JsonCodec} {w w' : World} {c d : CallId} {x : Party}

theorem Sessions.pending_by (h : Sessions w) {r : Job} (hr : (d, r) ∈ w.db.pending) :
    (w.calls d).Holds := by
  have hmem : r ∈ w.db.inserts d :=
    List.mem_map.mpr ⟨(d, r), List.mem_filter.mpr ⟨hr, by simp⟩, rfl⟩
  have hs := h d
  cases hc : w.calls d with
  | submitting sub stage =>
      rw [hc] at hs
      cases stage with
      | flushed => exact .flushed
      | sent t => exact .sent
      | committed => rw [hs.1] at hmem; cases hmem
  | cancelJob jobId pc =>
      rw [hc] at hs
      cases pc with
      | updated => exact .updated
      | _ => rw [hs.1] at hmem; cases hmem
  | _ => rw [hc] at hs; rw [hs.1] at hmem; cases hmem

theorem Waits.holds (h : Waits w d x) (hg : Ground w) : (w.calls d).Holds := by
  cases h with
  | insert _ hp _ _ => exact hg.sessions.pending_by hp
  | lock _ hd => exact hd ▸ .updated
  | update _ hd => exact hd ▸ .updated

/-- Who holds something does not wait. -/
theorem Call.Holds.not_waits (h : (w.calls c).Holds) : ¬ Waits w d (.call c) := by
  intro hw
  cases hw with
  | insert hb _ _ _ =>
      generalize w.calls c = y at h hb
      cases hb <;> cases h
  | lock hc _ => rw [hc] at h; cases h

/-- A holder that is past its commit keeps nobody waiting. -/
theorem not_waits_of_committed (hp : ∀ r, (d, r) ∉ w.db.pending)
    (hc : ¬ (w.calls d).Holds) : ¬ Waits w d x := by
  intro h
  cases h with
  | insert _ hr _ _ => exact hp _ hr
  | lock _ hd => exact hc (hd ▸ .updated)
  | update _ hd => exact hc (hd ▸ .updated)

theorem not_pending_commit {db : Db} (r : Job) : (d, r) ∉ (db.commit d).pending := by
  rw [Store.pending_commit]
  intro h
  have hne := of_decide_eq_true (List.mem_filter.mp h).2
  exact hne rfl

/-- The commit of a submission that has sent its message. -/
theorem lands {sub : Submission} {t : Uuid} (hd : w.calls d = .submitting sub (.sent t)) :
    ∃ w', (system J).step w (.api d) = some w' ∧ ∀ x, ¬ Waits w' d x := by
  refine ⟨_, by simp only [system, api, hd, submit]; rfl, ?_⟩
  intro x
  refine not_waits_of_committed ?_ ?_
  · intro r
    rw [db_setCall, db_countSubmission, db_observe]
    exact not_pending_commit r
  · rw [calls_setCall_self]
    intro h
    cases h

/-- A holder is at most two external calls from its commit, and none of them can wait. -/
theorem Call.Holds.releases (h : (w.calls d).Holds) :
    ∃ es w', (system J).Run (fun _ e => e = .api d) w es w' ∧ es.length ≤ 2 ∧
      ∀ x, ¬ Waits w' d x := by
  generalize hd : w.calls d = y at h
  cases h with
  | flushed =>
      obtain ⟨w₁, hs₁, hd₁⟩ : ∃ w₁, (system J).step w (.api d) = some w₁ ∧
          ∃ sub t, w₁.calls d = .submitting sub (.sent t) := by
        refine ⟨_, by simp only [system, api, hd, submit]; rfl, ?_⟩
        rw [calls_setCall_self]
        exact ⟨_, _, rfl⟩
      obtain ⟨sub, t, hd₁⟩ := hd₁
      obtain ⟨w₂, hs₂, hw⟩ := lands (J := J) hd₁
      exact ⟨_, w₂, .cons rfl hs₁ (.cons rfl hs₂ (.nil _)), Nat.le_refl _, hw⟩
  | sent =>
      obtain ⟨w₁, hs₁, hw⟩ := lands (J := J) hd
      exact ⟨_, w₁, .cons rfl hs₁ (.nil _), Nat.le_succ _, hw⟩
  | updated =>
      refine ⟨[.api d], _, .cons rfl (by simp only [system, api, hd]; rfl) (.nil _),
        Nat.le_succ _, ?_⟩
      intro x
      refine not_waits_of_committed ?_ ?_
      · intro r
        rw [db_return, db_observe]
        exact not_pending_commit r
      · rw [calls_return_self]
        intro h
        cases h

end Holders

section Waiters
variable {J : JsonCodec} {w : World} {c : CallId} {s : SlotId}

theorem ready_of_api {w' : World} (h : api w c = some w') : Party.Ready J w (.call c) :=
  ⟨.api c, w', .inl rfl, h⟩

/-- An INSERT goes through, fails, or waits for the transaction that holds a key. -/
theorem flush_ready {n : Nat} {sub : Submission} (hb : Builds w (w.calls c) n sub)
    (hapi : api w c = flush w c n sub) :
    Party.Ready J w (.call c) ∨ ∃ d, Waits w d (.call c) := by
  unfold flush at hapi
  cases hi : w.db.insert c sub.job with
  | waits =>
      refine .inr ?_
      unfold Store.insert at hi
      split at hi
      · rename_i hw
        obtain ⟨⟨d, r⟩, hq, hne, hk⟩ := hw
        exact ⟨d, .insert hb hq hne hk⟩
      · split at hi <;> cases hi
  | violates =>
      rw [hi] at hapi
      exact .inl (ready_of_api hapi)
  | inserted db =>
      rw [hi] at hapi
      exact .inl (ready_of_api hapi)

/-- A call in flight can go on, or waits. -/
theorem call_ready_or_waits (hg : Ground w) (hop : (w.calls c).op?.isSome) :
    Party.Ready J w (.call c) ∨ ∃ d, Waits w d (.call c) := by
  cases hc : w.calls c with
  | createJob req pc =>
      cases pc with
      | called =>
          refine .inl ?_
          cases hf : w.db.findKey req.idempotencyKey with
          | none => exact ready_of_api (by simp only [api, hc, createJob, hf]; rfl)
          | some r => exact ready_of_api (by simp only [api, hc, createJob, hf]; rfl)
      | missed began =>
          have hb : Builds w (w.calls c) 1 (createSubmission w.uuid req began) := hc ▸ .create
          exact flush_ready hb (by simp only [api, hc, createJob])
  | cancelJob jobId pc =>
      cases pc with
      | called =>
          refine .inl ?_
          cases hf : w.db.find jobId with
          | none => exact ready_of_api (by simp only [api, hc, cancelJob, hf]; rfl)
          | some job =>
              by_cases hst : job.status = .pending
              · exact ready_of_api
                  (by simp only [api, hc, cancelJob, hf, hst, ne_eq, not_true, if_false]; rfl)
              · exact ready_of_api
                  (by simp only [api, hc, cancelJob, hf, hst, ne_eq, not_false_iff, if_true]; rfl)
      | checked began job =>
          refine .inl ?_
          cases ht : job.celeryTaskId with
          | none => exact ready_of_api (by simp only [api, hc, cancelJob, ht]; rfl)
          | some taskId =>
              exact ⟨.revoke c [], _, .inr ⟨[], rfl⟩,
                by simp only [system, revoke, hc, ht, Option.map_some]; rfl⟩
      | revoked began =>
          cases hl : w.db.lock c jobId (cancelPatch began) with
          | none =>
              refine .inr ?_
              unfold Store.lock at hl
              split at hl
              · rename_i hw
                obtain ⟨l, hl, -, hj⟩ := hw
                exact ⟨l.1, .lock hc (hj ▸ hg.sessions.held_by hl)⟩
              · cases hl
          | some db =>
              exact .inl (ready_of_api (by simp only [api, hc, cancelJob, hl, Option.map_some]; rfl))
      | updated => exact .inl (ready_of_api (by simp only [api, hc, cancelJob]; rfl))
  | retryDlqJob jobId pc =>
      cases pc with
      | called =>
          refine .inl ?_
          cases hf : w.db.find jobId with
          | none => exact ready_of_api (by simp only [api, hc, retryDlqJob, hf]; rfl)
          | some original =>
              by_cases hst : original.status = .dlq
              · exact ready_of_api
                  (by simp only [api, hc, retryDlqJob, hf, hst, ne_eq, not_true, if_false]; rfl)
              · exact ready_of_api
                  (by simp only [api, hc, retryDlqJob, hf, hst, ne_eq, not_false_iff, if_true]; rfl)
      | checked began original =>
          have hb : Builds w (w.calls c) 2
              (retrySubmission w.uuid (w.uuid + 1) jobId original began) := hc ▸ .retry
          exact flush_ready hb (by simp only [api, hc, retryDlqJob])
  | submitting sub stage =>
      refine .inl ?_
      cases stage with
      | flushed => exact ready_of_api (by simp only [api, hc, submit]; rfl)
      | sent t => exact ready_of_api (by simp only [api, hc, submit]; rfl)
      | committed =>
          cases hf : w.db.find sub.job.id with
          | none => exact ready_of_api (by simp only [api, hc, submit, hf]; rfl)
          | some row => exact ready_of_api (by simp only [api, hc, submit, hf]; rfl)
  | idle => rw [hc] at hop; cases hop
  | returned op r => rw [hc] at hop; cases hop
  | raised op e => rw [hc] at hop; cases hop

/-- A delivery can go on, or waits. -/
theorem slot_ready_or_waits (hg : Ground w) {m : Message} {worker : Worker} {phase : Phase}
    (hs : w.slots s = .delivered m worker phase) :
    Party.Ready J w (.slot s) ∨ ∃ d, Waits w d (.slot s) := by
  by_cases hl : ∃ l ∈ w.db.locks, l.2.1 = m.jobId
  · obtain ⟨l, hl, hj⟩ := hl
    exact .inr ⟨l.1, .update hs (hj ▸ hg.sessions.held_by hl)⟩
  · refine .inl ?_
    intro m' worker' phase' hs' x hx
    rw [hs, Slot.delivered.injEq] at hs'
    obtain ⟨rfl, rfl, rfl⟩ := hs'
    exact work_enabled hs (fun l hl' hj => hl ⟨l, hl', hj⟩) hx

theorem ready_or_waits (hg : Ground w) {x : Party} (hx : x.InFlight w) :
    x.Ready J w ∨ ∃ d, Waits w d x := by
  cases x with
  | call c => exact call_ready_or_waits hg hx
  | slot s =>
      obtain ⟨m, worker, phase, hs⟩ := hx
      exact slot_ready_or_waits hg hs

end Waiters

/-- No deadlock is reachable: in every state whoever is in flight can go on or waits for the
transaction of a call, and that call waits for nobody and is at most two external calls, none
of which can wait, from ending the wait.  That a worker's UPDATE and its commit are one step
leaves out the waits for a worker between the two. -/
theorem deadlock_free {J : JsonCodec} {allowed : List String} {es : List Event} {w : World}
    (h : (system J).Run (fun _ _ => True) (.init allowed) es w) :
    (∀ x : Party, x.InFlight w → x.Ready J w ∨ ∃ d, Waits w d x) ∧
    ∀ d x, Waits w d x → (∀ d', ¬ Waits w d' (.call d)) ∧
      ∃ fs w', (system J).Run (fun _ e => e = .api d) w fs w' ∧ fs.length ≤ 2 ∧
        ∀ y, ¬ Waits w' d y := by
  have hg := run_ground h (ground_init allowed)
  refine ⟨fun x hx => ready_or_waits hg hx, ?_⟩
  intro d x hw
  have hd := hw.holds hg
  exact ⟨fun d' => hd.not_waits, hd.releases⟩

/-- Two cancellations of one job; the second waits for the first. -/
def rivalEvents : List Event :=
  createEvents 0 "k" ++ [.call 1 (.cancelJob 0), .api 1, .revoke 1 [], .api 1,
    .call 2 (.cancelJob 0), .api 2, .revoke 2 []]

theorem deadlock_free_ping : ∃ w, (system nullCodec).exec pingWorld rivalEvents = some w ∧
    Waits w 1 (.call 2) ∧ (∀ d', ¬ Waits w d' (.call 1)) ∧
    ∃ fs w', (system nullCodec).Run (fun _ e => e = .api 1) w fs w' ∧ fs.length ≤ 2 ∧
      ∀ y, ¬ Waits w' 1 y := by
  obtain ⟨w, hw, hrun, hcalls⟩ := Machine.exists_run_obs (system nullCodec) (fun _ _ => True)
    pingWorld rivalEvents (fun w => (w.calls 1, w.calls 2))
    (.cancelJob 0 .updated, .cancelJob 0 (.revoked _)) rfl (by decide)
  obtain ⟨hd, hc⟩ := Prod.mk.inj hcalls
  have hwaits : Waits w 1 (.call 2) := .lock hc hd
  exact ⟨w, hw, hwaits, (deadlock_free hrun).2 1 _ hwaits⟩

end Aegis
