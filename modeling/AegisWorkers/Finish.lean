/-
# `AegisWorkers.Finish` — an accepted job is finished

What is left of a job that has been committed is the work of the schedule: with a database
and a broker that answer, and nobody to cancel it, no order of the remaining steps avoids
its end.  Each schedule without new requests is bounded (`settling_bounded`), one that
leaves something in flight can go on (`exists_productive`), and where nothing is in flight
the job is COMPLETED or in DLQ, since its last status update was final and none has failed.

A finished job is finished for good: its one message has been used up, `create_job` never
publishes a second one for it, and its row is not written again (`World.Finished.step`).
-/
import AegisWorkers.Drain

namespace Aegis

open BaseTask JobService ReadCommitted

/-- Nothing is left to do for the job `j`, whose row `r` is COMPLETED or DLQ. -/
structure World.Finished (w : World) (j : Uuid) (r : Job) : Prop where
  done : ¬ w.Outstanding j
  row : w.db.find j = some r
  outcome : r.status = .completed ∨ r.status = .dlq

section Step
variable {J : JsonCodec} {w w' : World} {e : Event} {j : Uuid} {r : Job}

/-- A committed job with no message left gets none. -/
theorem not_outstanding_step (hdone : ¬ w.Outstanding j) (hr : w.db.find j = some r)
    (hen : Enqueued w) (hb : Bounded w) (he : SysStep J w e w') : ¬ w'.Outstanding j := by
  have hfree : ∀ {s : SlotId} {m : Message}, (w.slots s).message? = some m → m.jobId ≠ j := by
    intro s m hs hj
    exact hdone ⟨s, by rw [Slot.jobId?, hs, Option.map_some, hj]⟩
  rintro ⟨s, hs⟩
  cases he.slot hb s with
  | stays hs₀ => exact hdone ⟨s, hs₀ ▸ hs⟩
  | @published c sub _ _ hc hs' _ =>
      rw [hs'] at hs
      have hj : sub.job.id = j := Option.some.inj hs
      have hnone := hen.flushed c sub hc
      obtain ⟨m, hm, -⟩ := hen.task hr
      rw [hj] at hnone
      rw [hnone] at hm
      cases hm
  | retried _ _ hs₀ hp hq hs' =>
      rw [hs'] at hs
      exact hfree (by rw [hs₀]; rfl) ((hp.queue_copy hq).jobId.symm.trans (Option.some.inj hs))
  | redelivered _ _ hs₀ hs' =>
      rw [hs'] at hs
      exact hfree (by rw [hs₀]; rfl) (Option.some.inj hs)
  | taken _ hs₀ _ hs' =>
      rw [hs'] at hs
      exact hfree (by rw [hs₀]; rfl) (Option.some.inj hs)
  | advanced _ hs₀ _ _ hs' =>
      rw [hs'] at hs
      exact hfree (by rw [hs₀]; rfl) (Option.some.inj hs)
  | crashed _ hs₀ hs' =>
      rw [hs'] at hs
      exact hfree (by rw [hs₀]; rfl) (Option.some.inj hs)
  | dropped _ _ _ hs' =>
      rw [hs'] at hs
      cases hs
  | acknowledged _ _ _ _ hs' =>
      rw [hs'] at hs
      cases hs

/-- The row of a finished job is not written again, unless somebody cancels it. -/
theorem World.Finished.step (h : w.Finished j r) (hg : Ground w) (hen : Enqueued w)
    (hcalls : ∀ c pc, w.calls c ≠ .cancelJob j pc) (he : SysStep J w e w') :
    w'.Finished j r := by
  refine ⟨not_outstanding_step h.done h.row hen hg.bounded he, ?_, h.outcome⟩
  cases he.row hg j with
  | stays hsame => exact hsame.trans h.row
  | landed _ _ _ hnone _ =>
      rw [h.row] at hnone
      cases hnone
  | cancelled _ hc _ => exact absurd hc (hcalls _ _)
  | @written s _ m _ _ _ _ _ hs _ _ _ hj _ _ =>
      exact absurd ⟨s, by rw [hs]; exact congrArg some hj⟩ h.done

end Step

section Run
variable {J : JsonCodec} {allowed : List String} {es fs : List Event} {w w' : World} {j : Uuid}
  {r : Job}

/-- Where no call fails, a committed job whose messages are all handled is finished. -/
theorem finished_of_done (hheld : Held j w) (hcu : Custody j w) (htr : Tracked j w)
    (hok : Succeeded j w) (hr : w.db.find j = some r) (hdone : ¬ w.Outstanding j) :
    w.Finished j r := by
  obtain ⟨st, hst, hfinal⟩ := hcu.issued_final hheld.enqueued hr hdone
  have hstatus := htr.status r hr
  rw [hok.issued, hst] at hstatus
  refine ⟨hdone, hr, ?_⟩
  cases st with
  | completed => exact .inl hstatus
  | dlq => exact .inr hstatus
  | _ => cases hfinal

/-- A schedule that makes no new request starts a committed job after its commit, and
cancels nothing. -/
theorem settling_policy (hg : Ground w) (hr : (w.db.find j).isSome)
    (h : (system J).Run (fun _ e => e.settling ∧ responsive e) w fs w') :
    (system J).Run (fun w e => startsCommitted j w e ∧ uncancelled j e ∧ responsive e)
      w fs w' := by
  refine h.imp (I := fun v => Ground v ∧ (v.db.find j).isSome) ?_ ?_ ⟨hg, hr⟩
  · intro v v' e hi _ hs
    have he := step_cases hs
    exact ⟨hi.1.step he, he.find_isSome hi.1.sessions hi.2⟩
  · rintro v e ⟨-, hrow⟩ ⟨hset, hresp⟩
    refine ⟨?_, ?_, hresp⟩
    · unfold startsCommitted
      split
      · split
        · exact decide_eq_true fun _ => hrow
        · rfl
      · rfl
    · cases e with
      | call c op => cases hset
      | _ => rfl

theorem responsive_of_smooth {e : Event} (h : smooth e) : responsive e := by
  cases e with
  | work s i =>
      cases i with
      | raises exc => cases h
      | _ => rfl
  | _ => rfl

theorem World.Finished.run (h : w.Finished j r) (hg : Ground w) (hheld : Held j w)
    (hrun : (system J).Run (fun _ e => uncancelled j e) w fs w') : w'.Finished j r := by
  refine (hrun.invariant (I := fun v => (Ground v ∧ Held j v) ∧ v.Finished j r) ?_
    ⟨⟨hg, hheld⟩, h⟩).2
  rintro v v' e ⟨⟨hv, hh⟩, hf⟩ hP hs
  have he := step_cases hs
  exact ⟨⟨hv.step he, hh.step hv hP hs⟩, hf.step hv hh.enqueued hh.spared.uncalled he⟩

end Run

/-- Every accepted job is finished.  Take any state in which the job `j` is committed, and in
which so far its deliveries have started after the commit, nobody has cancelled it and no call
of a worker has failed.  Then a schedule without new requests, crashes and second deliveries, in
which the workers' calls return, makes a bounded number of moves; whatever the order of its
steps, it has finished the job or can go on; some such schedule does finish it; and finished it
stays in every run in which nobody cancels it. -/
theorem finishes {J : JsonCodec} {allowed : List String} {es : List Event} {w : World}
    {j : Uuid} {r : Job}
    (h : (system J).Run (fun w e => startsCommitted j w e ∧ uncancelled j e ∧ responsive e)
      (.init allowed) es w) (hr : w.db.find j = some r) :
    (∃ n, IdleFrom n w ∧
      ∀ fs w', (system J).Run (fun _ e => e.settling ∧ responsive e) w fs w' →
        fs.countP Event.productive ≤ 732 * n + 727 * w.nextSlot ∧
        ((∃ r', w'.Finished j r') ∨ ∃ k e w'', e.productive ∧
          (system J).Run (fun _ e => e.settling ∧ responsive e) w' [.tick k, e] w'')) ∧
    (∃ fs w' r', (system J).Run (fun _ e => e.settling ∧ responsive e) w fs w' ∧
      w'.Finished j r') ∧
    ∀ fs w' r', (system J).Run (fun _ e => e.settling ∧ responsive e) w fs w' →
      w'.Finished j r' →
      ∀ gs w'', (system J).Run (fun _ e => uncancelled j e) w' gs w'' → w''.Finished j r' := by
  have hg := run_ground h (ground_init allowed)
  have hsome : (w.db.find j).isSome := hr ▸ rfl
  obtain ⟨n, hn⟩ := exists_idleFrom h
  have hcalm : ∀ {v v' : World} {fs : List Event},
      (system J).Run (fun _ e => e.settling ∧ smooth e) v fs v' →
      (system J).Run (fun _ e => e.settling ∧ responsive e) v fs v' := by
    intro v v' fs hrun
    exact hrun.imp (I := fun _ => True) (fun _ _ _ => trivial)
      (fun _ hP => ⟨hP.1, responsive_of_smooth hP.2⟩) trivial
  have hheld : ∀ {fs : List Event} {w' : World},
      (system J).Run (fun _ e => e.settling ∧ responsive e) w fs w' →
      Ground w' ∧ Held j w' ∧ (w'.Quiet → ∃ r', w'.Finished j r') := by
    intro fs w' hrun
    have hpolicy := settling_policy hg hsome hrun
    have hwhole := h.append hpolicy
    obtain ⟨hh, hcu, ht⟩ := run_tracked
      (fun _ _ hp => ⟨hp.1, hp.2.1, unrejected_of_responsive hp.2.2⟩) hwhole
    refine ⟨run_ground hrun hg, hh, ?_⟩
    intro hquiet
    have hsome' : (w'.db.find j).isSome :=
      (hpolicy.invariant (I := fun v => Ground v ∧ (v.db.find j).isSome)
        (fun hi _ hs => ⟨hi.1.step (step_cases hs), (step_cases hs).find_isSome hi.1.sessions hi.2⟩)
        ⟨hg, hsome⟩).2
    obtain ⟨r', hr'⟩ := Option.isSome_iff_exists.mp hsome'
    refine ⟨r', finished_of_done hh hcu ht (run_succeeded (fun _ _ hp => hp.2.2) hwhole) hr' ?_⟩
    rintro ⟨s, hs⟩
    rw [hquiet.slots s] at hs
    cases hs
  refine ⟨⟨n, hn, ?_⟩, ?_, ?_⟩
  · intro fs w' hrun
    refine ⟨settling_bounded hg hn (Machine.run_and.mp hrun).1, ?_⟩
    obtain ⟨hg', -, hfinished⟩ := hheld hrun
    by_cases hquiet : w'.Quiet
    · exact .inl (hfinished hquiet)
    · obtain ⟨k, e, w'', hprod, hgo⟩ := exists_productive (J := J) hg' hquiet
      exact .inr ⟨k, e, w'', hprod, hcalm hgo⟩
  · obtain ⟨fs, w', hrun, hquiet⟩ := exists_quiet (J := J) hg hn
    obtain ⟨r', hr'⟩ := (hheld (hcalm hrun)).2.2 hquiet
    exact ⟨fs, w', r', hcalm hrun, hr'⟩
  · intro fs w' r' hrun hfinished gs w'' hmore
    obtain ⟨hg', hh, -⟩ := hheld hrun
    exact hfinished.run hg' hh hmore

/-- A job that waits for its first retry, after its worker was killed once. -/
theorem finishes_ping : ∃ w r, (system nullCodec).exec pingWorld
      (createEvents 0 "k" ++ startEvents 0 "v" ++ [.crash 0] ++ startEvents 0 "v" ++
        [.work 0 (.ends (.exception ⟨"down", "Traceback"⟩))] ++ List.replicate 3 (.work 0 .returns))
      = some w ∧ w.db.find 0 = some r ∧ w.Outstanding 0 ∧
    ∃ fs w' r', (system nullCodec).Run (fun _ e => e.settling ∧ responsive e) w fs w' ∧
      w'.Finished 0 r' := by
  obtain ⟨w, hw, hrun, hobs⟩ := Machine.exists_run_obs (system nullCodec)
    (fun w e => startsCommitted 0 w e ∧ uncancelled 0 e ∧ responsive e) pingWorld
    (createEvents 0 "k" ++ startEvents 0 "v" ++ [.crash 0] ++ startEvents 0 "v" ++
      [.work 0 (.ends (.exception ⟨"down", "Traceback"⟩))] ++ List.replicate 3 (.work 0 .returns))
    (fun w => ((w.db.find 0).isSome, (w.slots 1).jobId?)) (true, some 0) (by decide) (by decide)
  obtain ⟨hsome, hslot⟩ := Prod.mk.inj hobs
  obtain ⟨r, hr⟩ := Option.isSome_iff_exists.mp hsome
  exact ⟨w, r, hw, hr, ⟨1, hslot⟩, (finishes hrun hr).2.1⟩

end Aegis
