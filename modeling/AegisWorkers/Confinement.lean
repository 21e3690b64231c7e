/-
# `AegisWorkers.Confinement` — the workers do nothing that nobody has asked for

Task names and payloads go a long way: from the request to the message, also where the row is
rolled back, from there to retries, to dead letters, to the labels of `jobs_total` and to the
keys of the cache, and from rows of any age to new messages.  Wherever one of them turns up,
it is that of a published message, and behind the message there is a `create_job` request with
the same task name and payload that the whitelist of its time has let in.

    w.Concerns Q         whatever is held, seen, dead, counted or cached concerns messages in `Q`
    m.Requested p w      `m` is a copy of a published message, and has been asked for
-/
import AegisWorkers.Counters
import AegisWorkers.DeadLetters
import AegisWorkers.Provenance

namespace Aegis

open BaseTask JobService ReadCommitted

/-- The message an observation is about. -/
def Obs.about? : Obs → Option Message
  | .published _ m => some m
  | .executeCalled m => some m
  | .executeReturned m _ => some m
  | .retryPublished m => some m
  | _ => none

/-- The dead letter of a message. -/
structure DlqMessage.Of (d : DlqMessage) (m : Message) : Prop where
  originalJobId : d.originalJobId = m.jobId
  originalTaskName : d.originalTaskName = m.taskName
  payload : d.payload = m.payload.dictOrEmpty

/-- Whatever the workers hold, have done, have given up, have counted and have cached concerns
messages in `Q`. -/
structure World.Concerns (Q : Message → Prop) (w : World) : Prop where
  held : ∀ s m, (w.slots s).message? = some m → Q m
  seen : ∀ o ∈ w.trace, ∀ m, o.about? = some m → Q m
  deadLetters : ∀ d ∈ w.dlq, ∃ m, Q m ∧ d.Of m
  counted : ∀ taskName status, 0 < w.jobsTotal taskName status → ∃ m, Q m ∧ m.taskName = taskName
  cached : ∀ k text, w.cache (cacheKey k) = some text → ∃ m, Q m ∧ m.idempotencyKey = k

/-- The message copies a published one, and an accepted `create_job` request has its task name
and payload. -/
def Message.Requested (p : Past) (w : World) (m : Message) : Prop :=
  (∃ m₀ ∈ w.published, m₀.Copy m) ∧ ∃ c req, (Op.createJob req).Accepted p c ∧
    m.taskName = req.taskName ∧ m.payload = req.payload

theorem World.Concerns.mono {Q Q' : Message → Prop} {w : World} (h : w.Concerns Q)
    (hQ : ∀ m, Q m → Q' m) : w.Concerns Q' where
  held s m hm := hQ m (h.held s m hm)
  seen o ho m hm := hQ m (h.seen o ho m hm)
  deadLetters d hd := (h.deadLetters d hd).imp fun m hm => ⟨hQ m hm.1, hm.2⟩
  counted t st hpos := (h.counted t st hpos).imp fun m hm => ⟨hQ m hm.1, hm.2⟩
  cached k text hk := (h.cached k text hk).imp fun m hm => ⟨hQ m hm.1, hm.2⟩

/-! ## One step -/

section Steps
variable {J : JsonCodec} {w w' : World} {e : Event} {p : Past}

theorem Piece.about {m m' : Message} {worker : Worker} {cached : Option String} {now : Time}
    {phase : Phase} {i : Input} {eff : Effects} (h : Piece J m worker cached now phase i eff)
    {o : Obs} (ho : o ∈ eff.seen) (hm : o.about? = some m') : m.Copy m' := by
  cases h with
  | start => obtain rfl := List.mem_singleton.mp ho; cases hm
  | startFails exc => obtain rfl := List.mem_singleton.mp ho; cases hm
  | execute => obtain rfl := List.mem_singleton.mp ho; cases hm; exact .refl m
  | returns v => obtain rfl := List.mem_singleton.mp ho; cases hm; exact .refl m
  | ownRetry delay _ =>
      obtain rfl := List.mem_singleton.mp ho
      cases hm
      exact ⟨rfl, rfl, rfl, rfl, rfl⟩
  | retry delay =>
      obtain rfl := List.mem_singleton.mp ho
      cases hm
      exact ⟨rfl, rfl, rfl, rfl, rfl⟩
  | failure exc again stage => cases stage <;> cases ho
  | failureFails exc exc' again stage => cases stage <;> cases ho
  | _ => cases ho

theorem mem_trace_apply {s : SlotId} {m : Message} {worker : Worker} {eff : Effects} {db : Db}
    {o : Obs} (ho : o ∈ (w.apply J s m worker eff db).trace) :
    o ∈ eff.seen ∨ o.about? = none ∨ o ∈ w.trace := by
  simp only [World.apply] at ho
  split at ho
  · rcases List.mem_append.mp ho with ho | ho
    · exact .inl ho
    · rcases List.mem_cons.mp ho with rfl | ho
      · exact .inr (.inl rfl)
      · exact .inr (.inr ho)
  · rcases List.mem_append.mp ho with ho | ho
    · exact .inl ho
    · exact .inr (.inr ho)

/-- A call shows nothing of a message but its publication. -/
theorem ApiStep.about {c : CallId} (h : ApiStep w c w') {o : Obs} {m : Message}
    (ho : o ∈ w'.trace) (hm : o.about? = some m) : o ∈ w.trace ∨ ∃ d, o = .published d m := by
  have hcons : ∀ {o' : Obs}, o ∈ o' :: w.trace → (o'.about? = none ∨ ∃ d m', o' = .published d m') →
      o ∈ w.trace ∨ ∃ d, o = .published d m := by
    intro o' ho ho'
    rcases List.mem_cons.mp ho with rfl | ho
    · rcases ho' with hnone | ⟨d, m', rfl⟩
      · rw [hnone] at hm
        cases hm
      · obtain rfl := Option.some.inj hm
        exact .inr ⟨d, rfl⟩
    · exact .inl ho
  cases h with
  | send _ => exact hcons ho (.inr ⟨_, _, rfl⟩)
  | land _ =>
      rw [trace_setCall, trace_countSubmission] at ho
      exact hcons ho (.inl rfl)
  | cancel _ => exact hcons ho (.inl rfl)
  | revoke _ _ _ => exact hcons ho (.inl rfl)
  | _ => exact .inl ho

/-- What is seen of a message was seen before, or is its publication, or a piece of the
delivery of its original. -/
theorem SysStep.about (h : SysStep J w e w') {o : Obs} {m : Message} (ho : o ∈ w'.trace)
    (hm : o.about? = some m) : o ∈ w.trace ∨ (∃ d, o = .published d m) ∨
      ∃ s m₀, (w.slots s).message? = some m₀ ∧ m₀.Copy m := by
  cases h with
  | api _ ha =>
      rcases ha.about ho hm with hold | hpub
      · exact .inl hold
      · exact .inr (.inl hpub)
  | @work s i m₀ worker phase eff db hslot hp _ =>
      rcases mem_trace_apply ho with hseen | hnone | hold
      · exact .inr (.inr ⟨s, m₀, by rw [hslot]; rfl, hp.about hseen hm⟩)
      · rw [hnone] at hm
        cases hm
      · exact .inl hold
  | env _ henv => exact .inl (henv.trace ▸ ho)
  | _ => exact .inl ho

/-- A dead letter is an old one, or that of a message in hand. -/
theorem step_dlq (hs : (system J).step w e = some w') {d : DlqMessage} (hd : d ∈ w'.dlq) :
    d ∈ w.dlq ∨ ∃ s m, (w.slots s).message? = some m ∧ d.Of m := by
  cases step_cases hs with
  | api _ ha => exact .inl (ha.dlq ▸ hd)
  | @work s i m worker phase eff db hslot _ _ =>
      simp only [World.apply] at hd
      split at hd
      · rcases List.mem_append.mp hd with hd | hd
        · exact .inl hd
        · obtain rfl := List.mem_singleton.mp hd
          exact .inr ⟨s, m, by rw [hslot]; rfl, ⟨rfl, rfl, rfl⟩⟩
      · exact .inl hd
  | env hn _ =>
      refine .inl ?_
      cases e with
      | boot worker => cases hs; exact hd
      | tick n => cases hs; exact hd
      | expire key => cases hs; exact hd
      | deploy allowed => cases hs; exact hd
      | updateDlqMetrics ok => cases hs; exact hd
      | dlqReceive =>
          change w.dlqReceive = some w' at hs
          unfold World.dlqReceive at hs
          split at hs
          · rename_i d' rest hdlq
            obtain rfl := Option.some.inj hs
            rw [hdlq]
            exact List.mem_cons_of_mem _ hd
          · cases hs
      | _ => cases hn
  | _ => exact .inl hd

theorem countSubmission_pos {sub : Submission} {taskName : String} {status : JobMetric}
    (h : 0 < (countSubmission w sub).jobsTotal taskName status) :
    0 < w.jobsTotal taskName status ∨ sub.taskName = taskName := by
  by_cases ht : sub.taskName = taskName
  · exact .inr ht
  · refine .inl ?_
    have hne : taskName ≠ sub.taskName := fun h => ht h.symm
    unfold countSubmission at h
    split at h
    · simpa only [World.count, Function.update_of_ne hne] using h
    · exact h

/-- A label is an old one, or that of a message in hand, or that of a submission that has sent
its message. -/
theorem step_labels (hg : Ground w) (hs : (system J).step w e = some w') {taskName : String}
    {status : JobMetric} (h : 0 < w'.jobsTotal taskName status) :
    0 < w.jobsTotal taskName status ∨
      (∃ s m, (w.slots s).message? = some m ∧ m.taskName = taskName) ∨
      ∃ c sub t, w.calls c = .submitting sub (.sent t) ∧ sub.taskName = taskName := by
  cases ledger hg hs with
  | same _ hj _ => exact .inl (hj ▸ h)
  | @landed c sub t _ hc hj _ =>
      rw [hj] at h
      rcases countSubmission_pos h with hold | hname
      · exact .inl hold
      · exact .inr (.inr ⟨c, sub, t, hc, hname⟩)
  | cancelled _ hj _ => exact .inl (hj ▸ h)
  | @worked s i m worker phase eff db _ hslot _ _ hw =>
      rw [hw, counter_apply] at h
      by_cases ht : m.taskName = taskName
      · exact .inr (.inl ⟨s, m, by rw [hslot]; rfl, ht⟩)
      · simp only [ht, decide_false, Bool.false_and, Bool.toNat_false, Nat.add_zero] at h
        exact .inl h

/-- Everything new concerns a message in hand, or one that has been published. -/
theorem World.Concerns.step {Q : Message → Prop} (h : w.Concerns Q) (hg : Ground w)
    (hen : Enqueued w) (hcopies : Copies w') (hcopy : ∀ {m m'}, m.Copy m' → Q m → Q m')
    (hpublished : ∀ m ∈ w'.published, Q m) (hs : (system J).step w e = some w') :
    w'.Concerns Q := by
  have he := step_cases hs
  refine ⟨?_, ?_, ?_, ?_, ?_⟩
  · intro s m hm
    obtain ⟨m₀, hm₀, hc⟩ := hcopies s m hm
    exact hcopy hc (hpublished m₀ hm₀)
  · intro o ho m hm
    rcases he.about ho hm with hold | ⟨d, rfl⟩ | ⟨s, m₀, hslot, hc⟩
    · exact h.seen o hold m hm
    · exact hpublished m (List.mem_filterMap.mpr ⟨_, ho, rfl⟩)
    · exact hcopy hc (h.held s m₀ hslot)
  · intro d hd
    rcases step_dlq hs hd with hold | ⟨s, m, hslot, hof⟩
    · exact h.deadLetters d hold
    · exact ⟨m, h.held s m hslot, hof⟩
  · intro taskName status hpos
    rcases step_labels hg hs hpos with hold | ⟨s, m, hslot, hname⟩ | ⟨c, sub, t, hc, hname⟩
    · exact h.counted taskName status hold
    · exact ⟨m, h.held s m hslot, hname⟩
    · have hmem : message sub t ∈ w.published :=
        (mem_publishedFor.mp (hen.sent c sub t hc ▸ List.mem_singleton_self _)).1
      exact ⟨message sub t, hpublished _ (he.published_subset hmem), hname⟩
  · intro k text hk
    rcases step_cached hs hk with hold | ⟨s, m, worker, v, hslot, hkey, -⟩
    · exact h.cached k text hold
    · exact ⟨m, h.held s m (by rw [hslot]; rfl), hkey⟩

/-! ## Requests -/

theorem Message.Requested.copy {m m' : Message} (hc : m.Copy m') (h : m.Requested p w) :
    m'.Requested p w := by
  obtain ⟨⟨m₀, hm₀, hcopy⟩, c, req, hacc, hname, hpay⟩ := h
  exact ⟨⟨m₀, hm₀, hcopy.trans hc⟩, c, req, hacc, hc.taskName.trans hname, hc.payload.trans hpay⟩

theorem Message.Requested.mono {m : Message} (h : m.Requested p w) (hp : w.published ⊆ w'.published)
    (x : World × Event) : m.Requested (x :: p) w' := by
  obtain ⟨⟨m₀, hm₀, hcopy⟩, c, req, hacc, hrest⟩ := h
  exact ⟨⟨m₀, hp hm₀, hcopy⟩, c, req, hacc.mono x, hrest⟩

theorem Lineages.requested (h : Lineages p w) {m : Message} (hm : m ∈ w.published) :
    m.Requested p w := by
  obtain ⟨o, ho, hom⟩ := List.mem_filterMap.mp hm
  cases o with
  | published c m' =>
      obtain rfl := Option.some.inj hom
      obtain ⟨c₀, req, hacc, hname, hpay, -⟩ := h.message ho
      exact ⟨⟨_, hm, .refl _⟩, c₀, req, hacc, hname, hpay⟩
  | _ => cases hom

end Steps

theorem concerns_init (allowed : List String) (Q : Message → Prop) :
    (World.init allowed).Concerns Q where
  held _ _ h := by cases h
  seen _ h := by cases h
  deadLetters _ h := by cases h
  counted _ _ h := absurd h (Nat.lt_irrefl 0)
  cached _ _ h := by cases h

/-- In every run, with any failures, crashes, second deliveries and deployments, whatever the
workers hold, execute, retry, give up, count or cache concerns a published message whose task
name and payload are those of a `create_job` request that the whitelist in force has let in. -/
theorem only_requested {J : JsonCodec} {allowed : List String} {es : List Event} {w : World}
    (h : (system J).Run (fun _ _ => True) (.init allowed) es w) :
    w.Concerns fun m => m.Requested ((system J).past [] (.init allowed) es) w := by
  refine (h.invariant_past (I := fun p w => (Ground w ∧ Lineages p w) ∧ (Enqueued w ∧ Copies w) ∧
    w.Concerns fun m => m.Requested p w) ?_ ⟨⟨ground_init allowed, lineages_init allowed⟩,
      ⟨enqueued_init allowed, copies_init allowed⟩, concerns_init allowed _⟩).2.2
  rintro p w w' e ⟨⟨hg, hl⟩, ⟨hen, hcp⟩, hconcerns⟩ - hs
  have he := step_cases hs
  have hl' := hl.step hg hs
  have hcp' := hcp.step hg.bounded he
  refine ⟨⟨hg.step he, hl'⟩, ⟨hen.step hg he, hcp'⟩, ?_⟩
  exact (hconcerns.mono fun m hm => hm.mono he.published_subset (w, e)).step hg hen hcp'
    (fun hc hm => hm.copy hc) (fun m hm => hl'.requested hm) hs

/-- A submission is rolled back after its message has been published. -/
def orphanEvents : List Event :=
  (createEvents 0 "k").take 4 ++ [.apiFail 0] ++ startEvents 0 "v" ++ buryEvents 0

/-- No job is left, but what the worker has done was asked for. -/
theorem only_requested_ping : ∃ w, (system nullCodec).exec pingWorld orphanEvents = some w ∧
    w.db.rows.length = 0 ∧ w.jobsTotal "ping" .failed = 2 ∧ ∃ m : Message,
      m.Requested ((system nullCodec).past [] pingWorld orphanEvents) w ∧ m.taskName = "ping" := by
  obtain ⟨w, hw, hrun, hobs⟩ := Machine.exists_run_obs (system nullCodec) (fun _ _ => True)
    pingWorld orphanEvents (fun w => (w.db.rows.length, w.jobsTotal "ping" .failed)) (0, 2)
    (by decide +kernel) (Machine.along_of_mem _ _ fun _ _ _ => trivial)
  obtain ⟨hrows, hcount⟩ := Prod.mk.inj hobs
  refine ⟨w, hw, hrows, hcount, (only_requested hrun).counted "ping" .failed ?_⟩
  rw [hcount]
  decide

end Aegis
