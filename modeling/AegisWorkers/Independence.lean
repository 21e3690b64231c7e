/-
# `AegisWorkers.Independence` — operations on different jobs commute

Two operations that concern different jobs can be done in either order, from every state
that a run without failures of the API reaches and in which no call is in flight: the
table, the cache, the published messages, the counters and the gauge come out the same, and
each operation ends the same way (`operations_commute`).

An operation touches the rows and keys it concerns, and a delivery touches the cache entry
of its message's key.  Two deliveries of different jobs have different entries because every
message then has a row of its own (`Backed`), and no two rows share a key.

    a.concerns w    the jobs the operation `a` is about
    a.key?          the key of the row it may insert
    a.footprint w   the cells it can touch
-/
import AegisWorkers.Operations
import AegisWorkers.Provenance

namespace Aegis

open BaseTask JobService ReadCommitted Locality

/-! ## Messages and their rows -/

/-- No external call of the API fails. -/
def noApiFails : Event → Bool
  | .apiFail _ => false
  | _ => true

/-- The call that published a message is before its commit, or the row is there. -/
def Backed (w : World) : Prop :=
  ∀ c m, .published c m ∈ w.trace → (∃ r ∈ w.db.rows, r.id = m.jobId) ∨
    ∃ sub t, w.calls c = .submitting sub (.sent t) ∧ m = message sub t

theorem backed_init (allowed : List String) : Backed (.init allowed) := fun _ _ h => nomatch h

section Step
variable {J : JsonCodec} {w w' : World} {e : Event}

/-- A submission before its commit does not raise. -/
theorem not_raised {c : CallId} {sub : Submission} {stage : Stage} (hP : noApiFails e)
    (hs : (system J).step w e = some w') (hc : w.calls c = .submitting sub stage)
    (hstage : stage ≠ .committed) {op : Op} {err : ApiError} : w'.calls c ≠ .raised op err := by
  by_cases he : e.call? = some c
  · rcases api_or_raise he hs (by rw [hc]; rfl) (by simp [hc]) with rfl | ⟨rfl, -⟩
    · change api w c = some w' at hs
      cases stage with
      | flushed =>
          simp only [api, hc, submit, Option.some.injEq] at hs
          rw [← hs, calls_setCall_self]
          intro hr
          cases hr
      | sent t =>
          simp only [api, hc, submit, Option.some.injEq] at hs
          rw [← hs, calls_setCall_self]
          intro hr
          cases hr
      | committed => exact absurd rfl hstage
    · cases hP
  · rw [step_calls_ne he hs, hc]
    intro hr
    cases hr

theorem Backed.step (h : Backed w) (hg : Ground w) (hac : Accounted w') (hP : noApiFails e)
    (hs : (system J).step w e = some w') : Backed w' := by
  intro c m hm
  rcases hac c m hm with hrow | hsent | ⟨op, err, hraised⟩
  · exact .inl hrow
  · exact .inr hsent
  · rcases (step_cases hs).shows_published hm with hm₀ | ⟨sub, -, hc, -⟩
    · rcases h c m hm₀ with ⟨r, hr, hid⟩ | ⟨sub, t, hc, -⟩
      · obtain ⟨r', hr', ho⟩ := (step_cases hs).origin hg.sessions hr
        exact .inl ⟨r', hr', ho.id.trans hid⟩
      · exact absurd hraised (not_raised hP hs hc nofun)
    · exact absurd hraised (not_raised hP hs hc nofun)

end Step

/-- No API call is in flight. -/
def World.Idle (w : World) : Prop := ∀ c, (w.calls c).op? = none

theorem Call.session_over {x : Call} {ins : List Job} {upd : List (Uuid × JobPatch)}
    (h : x.Session ins upd) (hx : x.op? = none) : ins = [] ∧ upd = [] := by
  cases x with
  | createJob _ _ => cases hx
  | cancelJob _ _ => cases hx
  | retryDlqJob _ _ => cases hx
  | submitting _ _ => cases hx
  | _ => exact h

/-- With no call in flight no transaction is open. -/
theorem Ground.rest {w : World} (hg : Ground w) (hi : w.Idle) : w.Rest w.allowedTaskNames where
  pending := by
    refine List.eq_nil_iff_forall_not_mem.mpr ?_
    intro q hq
    have hmem : q.2 ∈ w.db.inserts q.1 :=
      List.mem_map_of_mem (List.mem_filter.mpr ⟨hq, decide_eq_true rfl⟩)
    rw [(Call.session_over (hg.sessions q.1) (hi q.1)).1] at hmem
    cases hmem
  locks := by
    refine List.eq_nil_iff_forall_not_mem.mpr ?_
    intro l hl
    have hmem : l.2 ∈ w.db.updates l.1 :=
      List.mem_map_of_mem (List.mem_filter.mpr ⟨hl, decide_eq_true rfl⟩)
    rw [(Call.session_over (hg.sessions l.1) (hi l.1)).2] at hmem
    cases hmem
  bounded := hg.bounded
  allowed := rfl

/-- Every message in the queue then has a row. -/
theorem Backed.enqueuedAs {w : World} (h : Backed w) (hen : Enqueued w) (hcp : Copies w)
    (hi : w.Idle) {s : SlotId} {m : Message} (hm : (w.slots s).message? = some m) :
    ∃ r ∈ w.db.rows, r.EnqueuedAs m := by
  obtain ⟨m₀, hm₀, hcopy⟩ := hcp s m hm
  obtain ⟨o, ho, hobs⟩ := List.mem_filterMap.mp hm₀
  cases o with
  | published c m₁ =>
      obtain rfl := Option.some.inj hobs
      rcases h c m₁ ho with ⟨r, hr, hid⟩ | ⟨sub, t, hc, -⟩
      · exact ⟨r, hr, hen.enqueuedAs hr hm₀ hcopy (hcopy.jobId.trans hid.symm)⟩
      · have hop := hi c
        rw [hc] at hop
        cases hop
  | _ => cases hobs

/-! ## What an operation is about -/

namespace Operation

/-- The jobs the operation concerns.  For `create_job` it is the job that has the key, or else
the one it creates; `retry_dlq_job` concerns the job it is called for and the one it creates. -/
def concerns (w : World) : Operation → List Uuid
  | .call _ (.createJob req) g => [((w.db.findKey req.idempotencyKey).map Job.id).getD g.id]
  | .call _ (.cancelJob jobId) _ => [jobId]
  | .call _ (.retryDlqJob jobId) g => [jobId, g.id]
  | .hook s _ _ => (w.slots s).jobId?.toList

/-- The key of the row the operation may insert. -/
def key? : Operation → Option String
  | .call _ (.createJob req) _ => some req.idempotencyKey
  | .call _ (.retryDlqJob _) g => some (dlqRetryKey g.keyUuid)
  | _ => none

def session? : Operation → Option CallId
  | .call c _ _ => some c
  | .hook _ _ _ => none

def slot? : Operation → Option SlotId
  | .call _ _ _ => none
  | .hook s _ _ => some s

/-- The operation can be called: the session is new, or the delivery is where the hook
begins; and it is given a time for each of its pieces. -/
inductive Ready (w : World) : Operation → Prop
  | call {c : CallId} {op : Op} {g : Given} : w.calls c = .idle → 5 ≤ g.times.length →
      Ready w (.call c op g)
  | hook {s : SlotId} {h : Hook} {g : Given} {m : Message} {worker : Worker} {phase : Phase} :
      w.slots s = .delivered m worker phase → h.begins phase → h.Possible m →
      7 ≤ g.times.length → Ready w (.hook s h g)

/-- How the operation has ended: with its answer or exception, or with the phase of the
delivery, which says what the hook or `run` returned or raised. -/
def outcome (w : World) : Operation → Call ⊕ Option (Message × Worker × Phase)
  | .call c _ _ => .inl (w.calls c)
  | .hook s _ _ => .inr (w.slots s).delivery?

/-- The cells the operation can touch. -/
def footprint (w : World) (a : Operation) : Set Cell
  | .call c => a.session? = some c
  | .delivery s => a.slot? = some s
  | .row j => j ∈ a.concerns w
  | .key k => a.key? = some k
  | .cached k => ∃ s m, a.slot? = some s ∧ (w.slots s).message? = some m ∧
      k = cacheKey m.idempotencyKey

end Operation

/-- Two operations concern different jobs, the ids they generate included; two that insert
a row do so under different keys; and they run in different sessions. -/
structure Unrelated (w : World) (a b : Operation) : Prop where
  jobs : ∀ j ∈ a.concerns w, j ∉ b.concerns w
  keys : ∀ k, a.key? = some k → b.key? ≠ some k
  sessions : ∀ c, a.session? = some c → b.session? ≠ some c

/-- The two worlds agree on the table, the cache, the published messages of both queues, the
counters and the gauge. -/
structure World.Agrees (w w' : World) : Prop where
  jobs : w.db.rows.Perm w'.db.rows
  cache : w.cache = w'.cache
  messages : w.messages = w'.messages
  queue : w.queue = w'.queue
  dlq : w.dlq.Perm w'.dlq
  jobsTotal : w.jobsTotal = w'.jobsTotal
  dlqSize : w.dlqSize = w'.dlqSize

section Operations
variable {J : JsonCodec} {w : World} {a b : Operation}

theorem World.Agrees.of_cells {w w' : World} (hc : w.cells = w'.cells)
    (ht : w.totals = w'.totals) : w.Agrees w' where
  jobs := by
    have hnodup : ∀ db : Db, db.rows.Nodup := fun db =>
      (db.pk_nodup.sublist ((List.sublist_append_left _ _).map _)).of_map
    refine (List.perm_ext_iff_of_nodup (hnodup _) (hnodup _)).mpr ?_
    intro r
    have hfind : w.db.find r.id = w'.db.find r.id := congrFun hc (.row r.id)
    have hmem : ∀ db : Db, r ∈ db.rows ↔ db.find r.id = some r :=
      fun db => ⟨fun hr => Store.find_eq_some.mpr ⟨hr, rfl⟩, fun hf => (Store.find_eq_some.mp hf).1⟩
    rw [hmem, hmem, hfind]
  cache := funext fun k => congrFun hc (.cached k)
  messages := congrArg Prod.fst ht
  queue := congrArg (fun x => x.2.1) ht
  dlq := Multiset.coe_eq_coe.mp (congrArg (fun x => x.2.2.1) ht)
  jobsTotal := congrArg (fun x => x.2.2.2.1) ht
  dlqSize := congrArg (fun x => x.2.2.2.2) ht

/-- An operation is local to its footprint. -/
theorem Operation.Ready.moves (ha : a.Ready w) (hw : w.Rest w.allowedTaskNames) {t : World}
    (ht : t.Rest w.allowedTaskNames) (hagree : ∀ i ∈ a.footprint w, t.cells i = w.cells i) :
    Moves World.cells World.totals (fun _ t' => t'.Rest w.allowedTaskNames) (a.footprint w)
      (execute J a) w t := by
  cases ha with
  | @call c op g hidle htimes =>
      refine moves_call J hw ht rfl hagree hidle ?_ htimes
      cases op with
      | createJob req =>
          simp only [enter]
          split
          · exact ⟨rfl, List.mem_singleton_self _⟩
          · trivial
      | cancelJob jobId => exact List.mem_singleton_self _
      | retryDlqJob jobId =>
          exact ⟨List.mem_cons_self, rfl, List.mem_cons_of_mem _ (List.mem_singleton_self _)⟩
  | @hook s h g m worker phase hs hbegins hp htimes =>
      have hd : (w.slots s).delivery? = some (m, worker, phase) := by rw [hs]; rfl
      refine moves_hook ⟨rfl, ?_, ?_, hagree, ⟨hw, ht⟩, ⟨phase, hd⟩, hp⟩ hd hbegins htimes
      · show m.jobId ∈ (w.slots s).jobId?.toList
        rw [hs]
        exact List.mem_singleton_self _
      · exact ⟨s, m, rfl, by rw [hs]; rfl, rfl⟩

/-- How an operation has ended can be read off its footprint. -/
theorem Operation.outcome_eq (a : Operation) {u v : World}
    (h : ∀ i ∈ a.footprint w, u.cells i = v.cells i) : a.outcome u = a.outcome v := by
  cases a with
  | call c op g => exact congrArg Sum.inl (h (.call c) rfl)
  | hook s hook g => exact congrArg Sum.inr (h (.delivery s) rfl)

theorem Operation.Ready.message (ha : a.Ready w) {s : SlotId} (hs : a.slot? = some s) :
    ∃ m, (w.slots s).message? = some m := by
  cases ha with
  | call _ _ => cases hs
  | hook hslot _ _ _ =>
      obtain rfl := Option.some.inj hs
      exact ⟨_, by rw [hslot]; rfl⟩

/-- Different jobs, different cells. -/
theorem Unrelated.disjoint (hab : Unrelated w a b) (ha : a.Ready w)
    (hrow : ∀ {s m}, (w.slots s).message? = some m → ∃ r ∈ w.db.rows, r.EnqueuedAs m) :
    Disjoint (a.footprint w) (b.footprint w) := by
  -- the deliveries of two unrelated hooks are of different jobs
  have hslots : ∀ {s s' m m'}, a.slot? = some s → b.slot? = some s' →
      (w.slots s).message? = some m → (w.slots s').message? = some m' → m.jobId ≠ m'.jobId := by
    intro s s' m m' ha hb hm hm' hj
    cases a with
    | call c op g => cases ha
    | hook s₁ h₁ g₁ =>
        cases b with
        | call c op g => cases hb
        | hook s₂ h₂ g₂ =>
            obtain rfl := Option.some.inj ha
            obtain rfl := Option.some.inj hb
            refine hab.jobs m.jobId ?_ ?_
            · simp [Operation.concerns, Slot.jobId?, hm]
            · simp [Operation.concerns, Slot.jobId?, hm', hj]
  refine Set.disjoint_left.mpr ?_
  intro i hi hi'
  cases i with
  | call c => exact hab.sessions c hi hi'
  | delivery s =>
      obtain ⟨m, hm⟩ := ha.message hi
      exact hslots hi hi' hm hm rfl
  | row j => exact hab.jobs j hi hi'
  | key k => exact hab.keys k hi hi'
  | cached k =>
      obtain ⟨s, m, hs, hm, rfl⟩ := hi
      obtain ⟨s', m', hs', hm', hk⟩ := hi'
      obtain ⟨r, hr, he⟩ := hrow hm
      obtain ⟨r', hr', he'⟩ := hrow hm'
      have hkey : r.idempotencyKey = r'.idempotencyKey :=
        he.idempotencyKey.symm.trans ((cacheKey_injective hk).trans he'.idempotencyKey)
      obtain rfl := Store.rows_eq_of_uk hr hr' hkey
      exact hslots hs hs' hm hm' (he.jobId.trans he'.jobId.symm)

end Operations

/-! ## Whole runs -/

theorem run_backed {J : JsonCodec} {allowed : List String} {es : List Event} {w : World}
    (h : (system J).Run (fun _ e => noApiFails e) (.init allowed) es w) :
    Ground w ∧ (Enqueued w ∧ Copies w) ∧ Accounted w ∧ Backed w := by
  refine run_invariant (I := fun w => (Enqueued w ∧ Copies w) ∧ Accounted w ∧ Backed w) h
    (ground_init allowed) ⟨⟨enqueued_init allowed, copies_init allowed⟩, accounted_init allowed,
      backed_init allowed⟩ ?_
  rintro w w' e hg ⟨⟨hen, hcp⟩, hac, hb⟩ hP hs
  have he := step_cases hs
  have hac' := hac.step hg.sessions he
  exact ⟨⟨hen.step hg he, hcp.step hg.bounded he⟩, hac', hb.step hg hac' hP hs⟩

/-- Operations on different jobs commute: either can be done first, the worlds they lead to
agree, and each ends as it does in the other order. -/
theorem operations_commute {J : JsonCodec} {allowed : List String} {es : List Event} {w : World}
    {a b : Operation} (h : (system J).Run (fun _ e => noApiFails e) (.init allowed) es w)
    (hi : w.Idle) (ha : a.Ready w) (hb : b.Ready w) (hab : Unrelated w a b) :
    ∃ wa wb wab wba, execute J a w = some wa ∧ execute J b wa = some wab ∧
      execute J b w = some wb ∧ execute J a wb = some wba ∧ wab.Agrees wba ∧
      a.outcome wba = a.outcome wa ∧ b.outcome wab = b.outcome wb := by
  obtain ⟨hg, ⟨hen, hcp⟩, -, hback⟩ := run_backed h
  have hrest := hg.rest hi
  have hdisj := hab.disjoint ha fun hm => hback.enqueuedAs hen hcp hi hm
  obtain ⟨wa, wb, wab, wba, hwa, hwb, hwab, hwba, hcells, htotals, hS, hT⟩ :=
    commute hdisj hrest (fun t ht hagree => ha.moves (J := J) hrest ht hagree)
      fun t ht hagree => hb.moves (J := J) hrest ht hagree
  exact ⟨wa, wb, wab, wba, hwa, hwab, hwb, hwba, .of_cells hcells htotals,
    a.outcome_eq hS, b.outcome_eq hT⟩

/-- Two jobs, the first one taken by a worker. -/
def unrelatedEvents : List Event := createEvents 0 "k" ++ createEvents 1 "l" ++ [.take 0 "v"]

/-- Seven pieces, a second apart. -/
def pingGiven : Given where
  keyUuid := 4
  id := 5
  taskId := 6
  dlqId := 7
  receivers := ["v"]
  times := [1, 2, 3, 4, 5, 6, 7]

/-- The first job starts, and the second is cancelled. -/
theorem operations_commute_ping : ∃ w wa wb wab wba,
    (system nullCodec).exec pingWorld unrelatedEvents = some w ∧
    execute nullCodec (.hook 0 .beforeStart pingGiven) w = some wa ∧
    execute nullCodec (.call 2 (.cancelJob 2) pingGiven) wa = some wab ∧
    execute nullCodec (.call 2 (.cancelJob 2) pingGiven) w = some wb ∧
    execute nullCodec (.hook 0 .beforeStart pingGiven) wb = some wba ∧ wab.Agrees wba := by
  obtain ⟨w, hw, hrun, hobs⟩ := Machine.exists_run_obs (system nullCodec)
    (fun _ e => noApiFails e ∧ e.within 2) pingWorld unrelatedEvents
    (fun w => ((w.slots 0).inPhase Hook.beforeStart.begins Message.jobId 0,
      (List.range 2).all fun c => (w.calls c).op?.isNone)) (true, true) (by decide) (by decide)
  have hfrom : IdleFrom 2 w :=
    hrun.invariant (fun hi hP hs => hi.step hP.2 hs) fun _ _ => rfl
  have hrun' := (Machine.run_and.mp hrun).1
  obtain ⟨hphase, hover⟩ := Prod.mk.inj hobs
  obtain ⟨m, worker, phase, hs, hj, hbegins⟩ := Slot.inPhase_iff.mp hphase
  have hidle : w.Idle := by
    refine hfrom.forall (Q := fun x => x.op? = none) rfl ?_
    intro c hc
    exact Option.isNone_iff_eq_none.mp (List.all_eq_true.mp hover c (List.mem_range.mpr hc))
  obtain ⟨wa, wb, wab, wba, hwa, hwab, hwb, hwba, hagrees, -⟩ := operations_commute hrun' hidle
    (a := .hook 0 .beforeStart pingGiven) (b := .call 2 (.cancelJob 2) pingGiven)
    (.hook hs hbegins nofun (by decide)) (.call (hfrom 2 (Nat.le_refl _)) (by decide))
    ⟨by simp [Operation.concerns, Slot.jobId?, Slot.message?, hs, hj], nofun, nofun⟩
  exact ⟨w, wa, wb, wab, wba, hw, hwa, hwab, hwb, hwba, hagrees⟩

end Aegis
