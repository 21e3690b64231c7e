/-
# `AegisWorkers.Guarantees` — what a client can rely on from one request to the next

Once a client has been shown a job, by `get_job` or in the answer to a request, the job
stays, whoever does what (`Sticks`): `get_job` keeps showing the same request, unless its
estimate overflows, with an execution count that does not fall and a result that is not taken
back, no later request on its id is told that there is none, and a later `create_job` with its
key is answered with this job.

Between two states of a run the board moves along the actions told there, so all of it
comes down to `Board.Later` and to the one entry a key can have.
-/
import AegisWorkers.Linearization

namespace Aegis

open JobService ReadCommitted

/-- The response of `get_job` shows the entry `x` of the job `i`. -/
structure JobResponse.Shows (r : JobResponse) (i : Uuid) (x : Entry) : Prop where
  id : r.id = i
  taskName : r.taskName = x.taskName
  idempotencyKey : r.idempotencyKey = x.idempotencyKey
  status : r.status = x.status
  payload : r.payload = x.payload.orEmpty
  executionCount : r.executionCount = x.executionCount
  parentJobId : r.parentJobId = x.parentJobId
  result : r.result = x.result
  errorMessage : r.errorMessage = x.errorDetail

/-- The job `i`, shown as `x` in the state `w`, is there for every client in the later
state `w'`. -/
structure Sticks (w w' : World) (i : Uuid) (x : Entry) : Prop where
  /-- `get_job` shows a later version, unless its estimate overflows -/
  get : ∀ now, (∃ r y, getJob w'.db now i = .ok r ∧ r.Shows i y ∧ x.Later y) ∨
    getJob w'.db now i = .error .overflow
  /-- requests made since have not been told that there is no such job -/
  cancel : ∀ d, w.calls d = .idle → w'.calls d ≠ .raised (.cancelJob i) (jobNotFound i)
  retry : ∀ d, w.calls d = .idle → w'.calls d ≠ .raised (.retryDlqJob i) (jobNotFound i)
  /-- `create_job` requests with its key made since have been answered with it -/
  create : ∀ d req resp b, w.calls d = .idle →
    w'.calls d = .returned (.createJob req) (.created resp b) →
    req.idempotencyKey = x.idempotencyKey →
    b = false ∧ ∃ y, resp.Shows i y ∧ x.Later y

section Board
variable {w : World} {i : Uuid} {x : Entry} {now : Time}

theorem estimatedNextRun_cases (now : Time) (r : Job) :
    (∃ estimate, estimatedNextRun now r = .ok estimate) ∨
      estimatedNextRun now r = .error .overflow := by
  unfold estimatedNextRun
  split
  · simp only
    split
    · exact .inl ⟨_, rfl⟩
    · exact .inr rfl
  · exact .inl ⟨_, rfl⟩

/-- `get_job` reads the board. -/
theorem getJob_of_entry (h : w.board.entry i = some x) (now : Time) :
    (∃ r, getJob w.db now i = .ok r ∧ r.Shows i x) ∨ getJob w.db now i = .error .overflow := by
  obtain ⟨row, hrow, rfl⟩ := Option.map_eq_some_iff.mp h
  rcases estimatedNextRun_cases now row with ⟨estimate, he⟩ | he
  · refine .inl ⟨_, by simp only [getJob, hrow, he]; rfl, ?_⟩
    exact ⟨(Store.find_eq_some.mp hrow).2, rfl, rfl, rfl, rfl, rfl, rfl, rfl, rfl⟩
  · refine .inr ?_
    simp only [getJob, hrow, he]
    rfl

theorem entry_of_getJob {r : JobResponse} (h : getJob w.db now i = .ok r) :
    ∃ x, w.board.entry i = some x ∧ r.Shows i x := by
  cases hf : w.db.find i with
  | none =>
      simp only [getJob, hf] at h
      cases h
  | some row =>
      have hx := entry_of_find hf
      refine ⟨row.entry, hx, ?_⟩
      rcases getJob_of_entry hx now with ⟨r', hr', hs⟩ | hover
      · rw [h] at hr'
        exact Except.ok.inj hr' ▸ hs
      · rw [h] at hover
        cases hover

end Board

section Runs
variable {J : JsonCodec} {allowed : List String} {es fs : List Event} {w w' : World}
  {P : World → Event → Prop} {i : Uuid} {x z : Entry}

theorem sticks_refl_of_shown (hz : w'.board.entry i = some z) (hl : x.Later z) (now : Time) :
    (∃ r y, getJob w'.db now i = .ok r ∧ r.Shows i y ∧ x.Later y) ∨
      getJob w'.db now i = .error .overflow := by
  rcases getJob_of_entry hz now with ⟨r, hr, hs⟩ | hover
  · exact .inl ⟨r, z, hr, hs, hl⟩
  · exact .inr hover

/-- An action told between two states is taken where the first state's jobs are, in later
versions. -/
theorem told_between {as told : List Action} {a : Action} {d : CallId}
    (htrail : Trail Board.Next w.board told w'.board)
    (hd : actionsOf d as = []) (ha : a ∈ actionsOf d (as ++ told))
    (hz : w.board.entry i = some z) :
    ∃ b b' : Board, b.Next a b' ∧ ∃ y, b.entry i = some y ∧ z.Later y := by
  have hmem : a ∈ told := by
    rw [actionsOf, List.filter_append, ← actionsOf, hd, List.nil_append] at ha
    exact (List.mem_filter.mp ha).1
  obtain ⟨_, _, b, b', -, hbefore, hn, -⟩ := htrail.at_mem hmem
  exact ⟨b, b', hn, Board.later_of_trail hbefore i z hz⟩

/-- Whatever is in the board stays there for the clients. -/
theorem sticks (h : (system J).Run P (.init allowed) es w) (h' : (system J).Run P w fs w')
    (hz : w.board.entry i = some z) (hl : x.Later z) : Sticks w w' i x := by
  obtain ⟨hg, hlin⟩ := run_linearized h
  have hlin' := (run_linearized (h.append h')).2
  rw [h.log_append] at hlin'
  have htrail := hlin.run hg h'
  have hidle : ∀ {d : CallId}, w.calls d = .idle →
      actionsOf d ((system J).log (World.tells J) (.init allowed) es) = [] := by
    intro d hd
    have htold := hlin.told d
    rw [hd] at htold
    exact htold
  have hbetween : ∀ {d : CallId} {a : Action}, w.calls d = .idle →
      a ∈ actionsOf d ((system J).log (World.tells J) (.init allowed) es ++
        (system J).log (World.tells J) w fs) →
      ∃ b b' : Board, b.Next a b' ∧ ∃ y, b.entry i = some y ∧ z.Later y :=
    fun hd ha => told_between htrail (hidle hd) ha hz
  refine ⟨?_, ?_, ?_, ?_⟩
  · intro now
    obtain ⟨y, hy, hzy⟩ := Board.later_of_trail htrail i z hz
    exact sticks_refl_of_shown hy (hl.trans hzy) now
  · intro d hd hc
    have htold := hlin'.told d
    rw [hc] at htold
    generalize hlog : actionsOf d _ = log at htold
    cases htold with
    | cancelNotFound =>
        obtain ⟨b, b', hn, y, hy, -⟩ := hbetween hd (hlog ▸ List.mem_singleton_self _)
        cases hn with
        | missing hnone => rw [hnone] at hy; cases hy
  · intro d hd hc
    have htold := hlin'.told d
    rw [hc] at htold
    generalize hlog : actionsOf d _ = log at htold
    cases htold with
    | retryNotFound =>
        obtain ⟨b, b', hn, y, hy, -⟩ := hbetween hd (hlog ▸ List.mem_singleton_self _)
        cases hn with
        | missing hnone => rw [hnone] at hy; cases hy
  · intro d req resp flag hd hc hkey
    have htold := hlin'.told d
    rw [hc] at htold
    generalize hlog : actionsOf d _ = log at htold
    cases htold with
    | @hit _ _ k y hk _ hs =>
        obtain ⟨b, b', hn, y', hy', hzy⟩ := hbetween hd (hlog ▸ List.mem_singleton_self _)
        cases hn with
        | read hy =>
            have hlater := hl.trans hzy
            have hki : k = i := b.distinct k i y y' hy hy'
              (hk.trans (hkey.trans hlater.idempotencyKey.symm))
            subst hki
            obtain rfl := Option.some.inj (hy.symm.trans hy')
            exact ⟨rfl, y, hs, hlater⟩
    | @created _ _ k y y₁ as hasked _ _ _ =>
        -- a new row with the key cannot have been put up beside the job
        obtain ⟨b, b', hn, y', hy', hzy⟩ := hbetween hd
          (hlog ▸ List.mem_append_right as List.mem_cons_self)
        cases hn with
        | submit hadm hnone _ _ =>
            have hlater := hl.trans hzy
            have hyk : y.idempotencyKey = req.idempotencyKey := by
              cases hasked with
              | create _ _ _ _ _ hk => exact hk
            have hik : i = k := hadm i y'
              hy' (hlater.idempotencyKey.trans (hkey.symm.trans hyk.symm))
            rw [← hik, hy'] at hnone
            cases hnone

/-- What a call that has answered with a job has shown is in the board. -/
theorem shown_by_call {as : List Action} {c : CallId} {op : Op} {r : Response}
    {resp : JobCreateResponse} (h : Linearized allowed as w) (hc : w.calls c = .returned op r)
    (hr : r = .retried resp ∨ ∃ b, r = .created resp b) :
    ∃ x z, resp.Shows resp.id x ∧ w.board.entry resp.id = some z ∧ x.Later z := by
  have htold := h.told c
  rw [hc] at htold
  have hmem : ∀ {i : Uuid} {x : Entry} {p : List Action},
      actionsOf c as = p ++ [.read c i x] → ∃ z, w.board.entry i = some z ∧ x.Later z := by
    intro i x p hlog
    have ha : .read c i x ∈ actionsOf c as := hlog ▸ by simp
    exact Board.at_later h.trail (List.mem_filter.mp ha).1 rfl
  generalize hlog : actionsOf c as = log at htold hmem
  cases htold with
  | @hit _ resp' i x _ _ hs =>
      obtain ⟨z, hz, hl⟩ := hmem (p := []) rfl
      obtain rfl : resp' = resp := by
        rcases hr with hr | ⟨b, hr⟩
        · cases hr
        · exact (Response.created.inj hr).1
      exact ⟨x, z, hs.id ▸ hs, hs.id ▸ hz, hl⟩
  | @created _ resp' i x y as' _ _ _ hs =>
      obtain ⟨z, hz, hl⟩ := hmem (List.append_assoc as' [.submit c i x] [_]).symm
      obtain rfl : resp' = resp := by
        rcases hr with hr | ⟨b, hr⟩
        · cases hr
        · exact (Response.created.inj hr).1
      exact ⟨y, z, hs.id ▸ hs, hs.id ▸ hz, hl⟩
  | cancelled _ =>
      rcases hr with hr | ⟨b, hr⟩
      · cases hr
      · cases hr
  | @retried _ resp' i x y as' _ _ _ hs =>
      obtain ⟨z, hz, hl⟩ := hmem (List.append_assoc as' [.submit c i x] [_]).symm
      obtain rfl : resp' = resp := by
        rcases hr with hr | ⟨b, hr⟩
        · exact Response.retried.inj hr
        · cases hr
      exact ⟨y, z, hs.id ▸ hs, hs.id ▸ hz, hl⟩

end Runs

/-- What a client has been shown of a job, by `get_job` or in the answer to `create_job` or
`retry_dlq_job`, sticks. -/
theorem answers_stick {J : JsonCodec} {allowed : List String} {es fs : List Event} {w w' : World}
    (h : (system J).Run (fun _ _ => True) (.init allowed) es w)
    (h' : (system J).Run (fun _ _ => True) w fs w') :
    (∀ i now r, getJob w.db now i = .ok r → ∃ x, r.Shows i x ∧ Sticks w w' i x) ∧
    ∀ c op r resp, w.calls c = .returned op r →
      (r = .retried resp ∨ ∃ b, r = .created resp b) →
      ∃ x, resp.Shows resp.id x ∧ Sticks w w' resp.id x := by
  refine ⟨?_, ?_⟩
  · intro i now r hr
    obtain ⟨x, hx, hs⟩ := entry_of_getJob hr
    exact ⟨x, hs, sticks h h' hx (.refl x)⟩
  · intro c op r resp hc hr
    obtain ⟨x, z, hs, hz, hl⟩ := shown_by_call (run_linearized h).2 hc hr
    exact ⟨x, hs, sticks h h' hz hl⟩

/-- A job is created; it runs to its end, and its key comes once more. -/
theorem answers_stick_ping : ∃ w w' op resp, (system nullCodec).exec pingWorld
      (createEvents 0 "k") = some w ∧
    (system nullCodec).exec w (startEvents 0 "v" ++ finishEvents 0 ++
      [.call 1 (.createJob (pingRequest "k")), .api 1]) = some w' ∧
    w.calls 0 = .returned op (.created resp true) ∧ (w'.calls 1).over ∧
    ∃ x, resp.Shows resp.id x ∧ Sticks w w' resp.id x := by
  obtain ⟨w, hw, hrun, hresp⟩ := Machine.exists_run_obs (system nullCodec) (fun _ _ => True)
    pingWorld (createEvents 0 "k") (fun w => w.calls 0) (.returned _ (.created _ true)) rfl
    (by decide)
  have hexec : ((system nullCodec).exec pingWorld (createEvents 0 "k" ++
      (startEvents 0 "v" ++ finishEvents 0 ++
        [.call 1 (.createJob (pingRequest "k")), .api 1]))).map
      (fun w => (w.calls 1).over) = some true := by decide
  obtain ⟨w', hw', hover⟩ := Option.map_eq_some_iff.mp hexec
  rw [Machine.exec_append, hw, Option.bind_some] at hw'
  exact ⟨w, w', _, _, hw, hw', hresp, hover,
    (answers_stick hrun (Machine.run_of_computed hw')).2 0 _ _ _ hresp (.inr ⟨_, rfl⟩)⟩

end Aegis
