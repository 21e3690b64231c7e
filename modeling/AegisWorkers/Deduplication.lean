/-
# `AegisWorkers.Deduplication` — concurrent submissions of one key

`create_job` looks the key up and inserts it in two steps, and the unique index
refuses the second of two inserts with an exception that nothing catches.  So `n`
concurrent calls with one key all succeed with one job exactly when no SELECT
misses while another call is between its own missed SELECT and its commit.

    onlyCreates cs k   the calls `cs`, and no others, submit the key `k`; none fails
    apart cs k         no SELECT of `k` misses while another call of `cs` holds `k`
    Deduplicated w cs  one of `cs` has created the job, the others have found it

`Solo` is what the condition keeps; `Doomed`, two calls past their missed SELECT, is
what a breach of it leaves for ever.
-/
import AegisWorkers.Agreement

namespace Aegis

open BaseTask JobService ReadCommitted

/-! ## How far a call has come with a key -/

/-- The call is about to make its SELECT of `k`. -/
def Call.selects (k : String) : Call → Bool
  | .createJob req .called => req.idempotencyKey = k
  | _ => false

/-- The call is between its missed SELECT of `k` and its commit. -/
def Call.holds (k : String) : Call → Bool
  | .createJob req (.missed _) => req.idempotencyKey = k
  | .submitting sub .flushed => sub.idempotencyKey = k
  | .submitting sub (.sent _) => sub.idempotencyKey = k
  | _ => false

/-- The call has committed a row of its own. -/
def Call.owns : Call → Bool
  | .submitting _ .committed => true
  | .returned _ (.created _ true) => true
  | _ => false

/-- The call is past a missed SELECT, or has raised. -/
def Call.past : Call → Bool
  | .createJob _ (.missed _) => true
  | .submitting _ _ => true
  | .returned _ (.created _ true) => true
  | .raised _ _ => true
  | _ => false

/-- The call is over. -/
def Call.over : Call → Bool
  | .returned _ _ => true
  | .raised _ _ => true
  | _ => false

/-- The key a call in flight submits. -/
def Call.key? : Call → Option String
  | .createJob req _ => some req.idempotencyKey
  | .submitting sub _ => some sub.idempotencyKey
  | _ => none

/-- A call of `create_job` for the key `k`, at any point of its life. -/
inductive Call.OnKey (k : String) : Call → Prop
  | idle : OnKey k .idle
  | createJob {req : JobCreateRequest} {pc : CreatePc} : req.idempotencyKey = k →
      OnKey k (.createJob req pc)
  | submitting {sub : Submission} {stage : Stage} {req : JobCreateRequest} :
      sub.op = .createJob req → sub.idempotencyKey = k → req.idempotencyKey = k →
      OnKey k (.submitting sub stage)
  | returned {req : JobCreateRequest} {resp : JobCreateResponse} {b : Bool} :
      req.idempotencyKey = k → OnKey k (.returned (.createJob req) (.created resp b))
  | raised {op : Op} {e : ApiError} : OnKey k (.raised op e)

theorem Call.OnKey.of_create {k : String} {req : JobCreateRequest} {pc : CreatePc}
    (h : (Call.createJob req pc).OnKey k) : req.idempotencyKey = k := by
  cases h with
  | createJob hk => exact hk

theorem Call.OnKey.of_submitting {k : String} {sub : Submission} {stage : Stage}
    (h : (Call.submitting sub stage).OnKey k) :
    ∃ req, sub.op = .createJob req ∧ sub.idempotencyKey = k ∧ req.idempotencyKey = k := by
  cases h with
  | submitting hop hsub hk => exact ⟨_, hop, hsub, hk⟩

theorem key?_of_selects {k : String} {x : Call} (h : x.selects k) :
    x.key? = some k ∧ x.holds k = false := by
  unfold Call.selects at h
  split at h
  · exact ⟨congrArg some (of_decide_eq_true h), rfl⟩
  · exact absurd h Bool.false_ne_true

theorem past_of_holds {k : String} {x : Call} (h : x.holds k) : x.past := by
  unfold Call.holds at h
  split at h
  · rfl
  · rfl
  · rfl
  · exact absurd h Bool.false_ne_true

/-! ## One move of `create_job` -/

/-- One move of a call of `create_job` in which nothing fails. -/
inductive CreateStep (w : World) (c : CallId) (w' : World) : Prop
  | hit {req : JobCreateRequest} {r : Job} : w.calls c = .createJob req .called →
      w.db.findKey req.idempotencyKey = some r →
      w'.calls c = .returned (.createJob req) (.created (existingResponse r) false) →
      w'.db.rows = w.db.rows → CreateStep w c w'
  | miss {req : JobCreateRequest} {began : Time} : w.calls c = .createJob req .called →
      w.db.findKey req.idempotencyKey = none → w'.calls c = .createJob req (.missed began) →
      w'.db.rows = w.db.rows → CreateStep w c w'
  | flush {req : JobCreateRequest} {began : Time} {sub : Submission} :
      w.calls c = .createJob req (.missed began) → sub.op = .createJob req →
      sub.idempotencyKey = req.idempotencyKey → w'.calls c = .submitting sub .flushed →
      w'.db.rows = w.db.rows → CreateStep w c w'
  | violate {req : JobCreateRequest} {began : Time} {r : Job} :
      w.calls c = .createJob req (.missed began) → r ∈ w.db.rows →
      r.idempotencyKey = req.idempotencyKey →
      w'.calls c = .raised (.createJob req) .integrityError → w'.db.rows = w.db.rows →
      CreateStep w c w'
  | send {sub : Submission} {t : Uuid} : w.calls c = .submitting sub .flushed →
      w'.calls c = .submitting sub (.sent t) → w'.db.rows = w.db.rows → CreateStep w c w'
  | land {sub : Submission} {t : Uuid} : w.calls c = .submitting sub (.sent t) →
      w'.calls c = .submitting sub .committed → w'.db.rows = w.db.rows ++ [sub.row t] →
      CreateStep w c w'
  | refresh {sub : Submission} {row : Job} : w.calls c = .submitting sub .committed →
      w'.calls c = .returned sub.op (response sub.op row) → w'.db.rows = w.db.rows →
      CreateStep w c w'

section Create
variable {w w' : World} {c : CallId}

theorem flush_create {req : JobCreateRequest} {began : Time} (hg : Ground w)
    (hc : w.calls c = .createJob req (.missed began))
    (h : flush w c 1 (createSubmission w.uuid req began) = some w') : CreateStep w c w' := by
  unfold flush at h
  cases hi : w.db.insert c (createSubmission w.uuid req began).job with
  | waits => rw [hi] at h; cases h
  | inserted db =>
      rw [hi] at h
      obtain rfl := Option.some.inj h
      exact .flush hc rfl rfl (Function.update_self ..) (Store.insert_eq_inserted hi).1
  | violates =>
      rw [hi] at h
      obtain rfl := Option.some.inj h
      have hins := (hg.sessions c)
      rw [hc] at hins
      obtain ⟨r, hr, hk⟩ := Store.insert_eq_violates hi
      rcases hr with hr | hr
      · rcases hk with hk | hk
        · exact absurd (hg.submissions.rows r hr) (hk ▸ Nat.lt_irrefl _)
        · exact .violate hc hr hk (Function.update_self ..) rfl
      · rw [hins.1] at hr
        cases hr

theorem api_create (hg : Ground w) (hf : Footprints w) {k : String} (hk : (w.calls c).OnKey k)
    (h : api w c = some w') : CreateStep w c w' := by
  cases hc : w.calls c with
  | createJob req pc =>
      simp only [api, hc] at h
      cases pc with
      | missed began => exact flush_create hg hc h
      | called =>
          cases hfk : w.db.findKey req.idempotencyKey with
          | none =>
              simp only [createJob, hfk, Option.some.injEq] at h
              subst h
              exact .miss hc hfk (Function.update_self ..) rfl
          | some r =>
              simp only [createJob, hfk, Option.some.injEq] at h
              subst h
              exact .hit hc hfk (Function.update_self ..) rfl
  | submitting sub stage =>
      simp only [api, hc] at h
      cases stage with
      | flushed =>
          obtain rfl := Option.some.inj h
          exact .send hc (Function.update_self ..) rfl
      | sent t =>
          have hs := hg.sessions c
          rw [hc] at hs
          obtain rfl := Option.some.inj h
          refine .land hc (Function.update_self ..) ?_
          simp only [db_setCall, db_countSubmission, db_observe]
          exact rows_land t hs.1 hs.2
      | committed =>
          have hl := hf c
          rw [hc] at hl
          obtain ⟨-, r, hr, hid, -⟩ := hl
          simp only [submit, Store.find_eq_some.mpr ⟨hr, hid⟩, Option.some.injEq] at h
          subst h
          exact .refresh hc (Function.update_self ..) rfl
  | idle => simp only [api, hc] at h; cases h
  | returned op r => simp only [api, hc] at h; cases h
  | raised op e => simp only [api, hc] at h; cases h
  | cancelJob jobId pc => rw [hc] at hk; cases hk
  | retryDlqJob jobId pc => rw [hc] at hk; cases hk

end Create

/-! ## The calls of one key -/

/-- The calls `cs` are the calls of `create_job` for the key `k`, each for a task of
the whitelist; none of them fails, and no generated key is `k`. -/
def onlyCreates (cs : List CallId) (k : String) (w : World) : Event → Bool
  | .call c (.createJob req) =>
      decide ((req.idempotencyKey = k ↔ c ∈ cs) ∧ (c ∈ cs → req.taskName ∈ w.allowedTaskNames))
  | .call c _ => decide (c ∉ cs)
  | .api c =>
      match w.calls c with
      | .retryDlqJob _ _ => decide (dlqRetryKey w.uuid ≠ k)
      | _ => true
  | .apiFail c => decide (c ∉ cs)
  | _ => true

/-- No SELECT of `k` misses while another call of `cs` is between its own missed
SELECT and its commit. -/
def apart (cs : List CallId) (k : String) (w : World) : Event → Bool
  | .api c =>
      decide ((w.calls c).selects k → (w.db.findKey k).isNone → ∀ c' ∈ cs, ¬ (w.calls c').holds k)
  | _ => true

/-- `cs` are the calls of the key `k`. -/
structure Members (cs : List CallId) (k : String) (w : World) : Prop where
  member : ∀ c ∈ cs, (w.calls c).OnKey k
  others : ∀ c, c ∉ cs → (w.calls c).key? ≠ some k

section Members
variable {J : JsonCodec} {cs : List CallId} {k : String} {w w' : World} {e : Event} {c : CallId}

/-- A call of the key arrives, or makes a move of `create_job`. -/
theorem member_step (hg : Ground w) (hf : Footprints w) (hm : Members cs k w)
    (hP : onlyCreates cs k w e) (hc : c ∈ cs) (he : e.call? = some c)
    (hs : (system J).step w e = some w') :
    (∃ req, req.idempotencyKey = k ∧ w.calls c = .idle ∧ w'.calls c = .createJob req .called ∧
      w'.db.rows = w.db.rows) ∨ e = .api c ∧ CreateStep w c w' := by
  have hk := hm.member c hc
  cases e with
  | call c' op =>
      obtain rfl := Option.some.inj he
      obtain ⟨hidle, rfl⟩ := call_eq_some hs
      cases op with
      | createJob req =>
          obtain ⟨hiff, hallowed⟩ := of_decide_eq_true hP
          refine .inl ⟨req, hiff.mpr hc, hidle, ?_, rfl⟩
          simp [enter, hallowed hc]
      | cancelJob jobId => exact absurd hc (of_decide_eq_true hP)
      | retryDlqJob jobId => exact absurd hc (of_decide_eq_true hP)
  | api c' =>
      obtain rfl := Option.some.inj he
      exact .inr ⟨rfl, api_create hg hf hk hs⟩
  | revoke c' receivers =>
      obtain rfl := Option.some.inj he
      obtain ⟨_, _, _, _, hx, -, -⟩ := revoke_eq_some hs
      rw [hx] at hk
      cases hk
  | apiFail c' =>
      obtain rfl := Option.some.inj he
      exact absurd hc (of_decide_eq_true hP)
  | _ => cases he

theorem CreateStep.onKey (h : CreateStep w c w') (hk : (w.calls c).OnKey k) :
    (w'.calls c).OnKey k := by
  cases h with
  | hit hx _ hx' _ =>
      rw [hx] at hk
      exact hx' ▸ .returned hk.of_create
  | miss hx _ hx' _ =>
      rw [hx] at hk
      exact hx' ▸ .createJob hk.of_create
  | flush hx hop hkey hx' _ =>
      rw [hx] at hk
      exact hx' ▸ .submitting hop (hkey.trans hk.of_create) hk.of_create
  | violate _ _ _ hx' _ => exact hx' ▸ .raised
  | send hx hx' _ =>
      rw [hx] at hk
      obtain ⟨req, hop, hsub, hreq⟩ := hk.of_submitting
      exact hx' ▸ .submitting hop hsub hreq
  | land hx hx' _ =>
      rw [hx] at hk
      obtain ⟨req, hop, hsub, hreq⟩ := hk.of_submitting
      exact hx' ▸ .submitting hop hsub hreq
  | refresh hx hx' _ =>
      rw [hx] at hk
      obtain ⟨req, hop, -, hreq⟩ := hk.of_submitting
      rw [hx', hop]
      exact .returned hreq

/-- A call comes to submit a key by arriving with it, or by generating it. -/
theorem api_key? (h : api w c = some w') : (w'.calls c).key? = none ∨
    (w'.calls c).key? = (w.calls c).key? ∨
      ∃ jobId began original, w.calls c = .retryDlqJob jobId (.checked began original) ∧
        (w'.calls c).key? = some (dlqRetryKey w.uuid) := by
  have ha := api_cases h
  cases ha with
  | enter op hi => simp only [api, hi] at h; cases h
  | @move y hl =>
      rw [calls_setCall_self]
      generalize w.calls c = x at hl ⊢
      cases hl with
      | miss _ => exact .inr (.inl rfl)
      | _ => exact .inl rfl
  | raise _ _ => exact .inl (by simp [Call.key?])
  | violate _ _ => exact .inl (by simp [Call.key?])
  | flush hb _ =>
      rw [calls_setCall_self]
      generalize w.calls c = x at hb ⊢
      cases hb with
      | create => exact .inr (.inl rfl)
      | retry => exact .inr (.inr ⟨_, _, _, rfl, rfl⟩)
  | send hc => exact .inr (.inl (by simp [hc, Call.key?]))
  | land hc => exact .inr (.inl (by simp [hc, Call.key?]))
  | lock _ _ => exact .inl (by simp [Call.key?])
  | cancel _ => exact .inl (by simp [Call.key?])
  | revoke _ _ _ => exact .inl (by simp [Call.key?])

/-- The other calls never submit the key. -/
theorem other_step (hm : Members cs k w) (hP : onlyCreates cs k w e) (hc : c ∉ cs)
    (he : e.call? = some c) (hs : (system J).step w e = some w') :
    (w'.calls c).key? ≠ some k := by
  have hk := hm.others c hc
  cases e with
  | call c' op =>
      obtain rfl := Option.some.inj he
      obtain ⟨-, rfl⟩ := call_eq_some hs
      rw [calls_setCall_self]
      cases op with
      | createJob req =>
          have hiff := (of_decide_eq_true hP).1
          simp only [enter]
          split
          · intro h
            exact hc (hiff.mp (Option.some.inj h))
          · intro h
            cases h
      | cancelJob jobId => intro h; cases h
      | retryDlqJob jobId => intro h; cases h
  | api c' =>
      obtain rfl := Option.some.inj he
      rcases api_key? hs with h | h | ⟨jobId, began, original, hx, h⟩
      · rw [h]
        intro hnone
        cases hnone
      · rw [h]; exact hk
      · rw [h]
        simp only [onlyCreates, hx] at hP
        intro h'
        exact of_decide_eq_true hP (Option.some.inj h')
  | revoke c' receivers =>
      obtain rfl := Option.some.inj he
      obtain ⟨_, _, _, _, -, -, rfl⟩ := revoke_eq_some hs
      simp [Call.key?]
  | apiFail c' =>
      obtain rfl := Option.some.inj he
      obtain ⟨op, -, rfl⟩ := apiFail_cases hs
      simp [Call.key?]
  | _ => cases he

theorem Members.step (hm : Members cs k w) (hg : Ground w) (hf : Footprints w)
    (hP : onlyCreates cs k w e) (hs : (system J).step w e = some w') : Members cs k w' := by
  constructor
  · intro c hc
    by_cases he : e.call? = some c
    · rcases member_step hg hf hm hP hc he hs with ⟨req, hk, -, hc', -⟩ | ⟨-, hstep⟩
      · rw [hc']; exact .createJob hk
      · exact hstep.onKey (hm.member c hc)
    · rw [step_calls_ne he hs]; exact hm.member c hc
  · intro c hc
    by_cases he : e.call? = some c
    · exact other_step hm hP hc he hs
    · rw [step_calls_ne he hs]; exact hm.others c hc

end Members

/-! ## While the condition holds -/

/-- A committed row has the key. -/
def Taken (k : String) (w : World) : Prop := ∃ r ∈ w.db.rows, r.idempotencyKey = k

/-- One call of `cs` at most holds the key, and none once a row has it; that row
belongs to one of them, and none has raised. -/
structure Solo (cs : List CallId) (k : String) (w : World) : Prop where
  fine : ∀ c ∈ cs, ∀ op e, w.calls c ≠ .raised op e
  alone : ∀ c ∈ cs, ∀ c' ∈ cs, (w.calls c).holds k → (w.calls c').holds k → c = c'
  free : Taken k w → ∀ c ∈ cs, ¬ (w.calls c).holds k
  owner : Taken k w → ∃ c ∈ cs, (w.calls c).owns

/-- The two calls play the same part in `Solo`. -/
structure Call.SameRole (k : String) (x y : Call) : Prop where
  holds : y.holds k → x.holds k
  owns : x.owns → y.owns
  fine : (∀ op e, x ≠ .raised op e) → ∀ op e, y ≠ .raised op e

theorem Call.SameRole.refl (k : String) (x : Call) : x.SameRole k x := ⟨id, id, id⟩

section Solo
variable {J : JsonCodec} {cs : List CallId} {k : String} {w w' : World} {e : Event} {c : CallId}

theorem Taken.of_rows (h : w'.db.rows = w.db.rows) (ht : Taken k w') : Taken k w := by
  obtain ⟨r, hr, hk⟩ := ht
  exact ⟨r, h ▸ hr, hk⟩

theorem Taken.of_map {i : Uuid} {p : JobPatch} (h : w'.db.rows = w.db.rows.map (p.applyAt i))
    (ht : Taken k w') : Taken k w := by
  obtain ⟨r, hr, hk⟩ := ht
  rw [h] at hr
  obtain ⟨r₀, hr₀, rfl⟩ := List.mem_map.mp hr
  exact ⟨r₀, hr₀, (p.uk_applyAt i r₀).symm.trans hk⟩

/-- Only a call of the key commits a row with it. -/
theorem Taken.of_other (hg : Ground w) (hm : Members cs k w) (hc : e.call? = some c)
    (hn : c ∉ cs) (hs : (system J).step w e = some w') (ht : Taken k w') : Taken k w := by
  cases (step_api hc hs).rows (hg.sessions c) with
  | same hrows => exact ht.of_rows hrows
  | landed sub t hx _ hrows =>
      obtain ⟨r, hr, hk⟩ := ht
      rw [hrows, List.mem_append, List.mem_singleton] at hr
      rcases hr with hr | rfl
      · exact ⟨r, hr, hk⟩
      · refine absurd (congrArg some ?_) (hx ▸ hm.others c hn)
        exact (hg.submissions.coherent c sub _ hx).idempotencyKey.symm.trans hk
  | cancelled jobId began _ _ hrows => exact ht.of_map hrows

theorem Solo.congr (h : Solo cs k w) (hr : ∀ c ∈ cs, (w.calls c).SameRole k (w'.calls c))
    (ht : Taken k w' → Taken k w) : Solo cs k w' := by
  constructor
  · intro c hc
    exact (hr c hc).fine (h.fine c hc)
  · intro c hc c' hc' hh hh'
    exact h.alone c hc c' hc' ((hr c hc).holds hh) ((hr c' hc').holds hh')
  · intro htaken c hc hh
    exact h.free (ht htaken) c hc ((hr c hc).holds hh)
  · intro htaken
    obtain ⟨c, hc, ho⟩ := h.owner (ht htaken)
    exact ⟨c, hc, (hr c hc).owns ho⟩

/-- The move of one call changes one call's part. -/
theorem Solo.congr_one (h : Solo cs k w) (hne : ∀ c', c' ≠ c → w'.calls c' = w.calls c')
    (hr : (w.calls c).SameRole k (w'.calls c)) (ht : Taken k w' → Taken k w) : Solo cs k w' := by
  refine h.congr ?_ ht
  intro c' _
  by_cases heq : c' = c
  · subst heq
    exact hr
  · rw [hne c' heq]
    exact .refl k _

theorem Solo.step_create (h : Solo cs k w) (hm : Members cs k w) (hc : c ∈ cs)
    (ha : apart cs k w (.api c)) (hne : ∀ c', c' ≠ c → w'.calls c' = w.calls c')
    (hs : CreateStep w c w') : Solo cs k w' := by
  have hk := hm.member c hc
  have hfine : (∀ op e, w'.calls c ≠ .raised op e) → ∀ c' ∈ cs, ∀ op e,
      w'.calls c' ≠ .raised op e := by
    intro hself c' hc'
    by_cases heq : c' = c
    · rw [heq]
      exact hself
    · rw [hne c' heq]
      exact h.fine c' hc'
  cases hs with
  | hit hx _ hx' hrows =>
      refine h.congr_one hne ?_ (Taken.of_rows hrows)
      rw [hx, hx']
      exact ⟨fun hh => absurd hh Bool.false_ne_true, fun ho => absurd ho Bool.false_ne_true,
        fun _ => nofun⟩
  | @miss req began hx hfind hx' hrows =>
      rw [hx] at hk
      obtain rfl := hk.of_create
      have hfree : ∀ c' ∈ cs, ¬ (w.calls c').holds req.idempotencyKey := of_decide_eq_true ha
        (by rw [hx]; simp [Call.selects]) (by rw [hfind]; rfl)
      have hnot : ¬ Taken req.idempotencyKey w' := by
        intro ht
        obtain ⟨r, hr, hkey⟩ := ht.of_rows hrows
        exact Store.findKey_eq_none.mp hfind r hr hkey
      constructor
      · refine hfine ?_
        rw [hx']
        exact nofun
      · -- nobody held the key, so whoever holds it now is `c`
        have honly : ∀ c' ∈ cs, (w'.calls c').holds req.idempotencyKey → c' = c := by
          intro c' hc' hh
          by_contra heq
          rw [hne c' heq] at hh
          exact hfree c' hc' hh
        intro c₁ hc₁ c₂ hc₂ hh₁ hh₂
        exact (honly c₁ hc₁ hh₁).trans (honly c₂ hc₂ hh₂).symm
      · intro ht
        exact absurd ht hnot
      · intro ht
        exact absurd ht hnot
  | flush hx _ hkey hx' hrows =>
      refine h.congr_one hne ?_ (Taken.of_rows hrows)
      rw [hx, hx']
      refine ⟨?_, fun ho => absurd ho Bool.false_ne_true, fun _ => nofun⟩
      simp only [Call.holds, hkey]
      exact id
  | violate hx hr hkey _ _ =>
      rw [hx] at hk
      obtain rfl := hk.of_create
      refine absurd ?_ (h.free ⟨_, hr, hkey⟩ c hc)
      rw [hx]
      simp [Call.holds]
  | send hx hx' hrows =>
      refine h.congr_one hne ?_ (Taken.of_rows hrows)
      rw [hx, hx']
      exact ⟨id, fun ho => absurd ho Bool.false_ne_true, fun _ => nofun⟩
  | @land sub t hx hx' hrows =>
      rw [hx] at hk
      obtain ⟨-, -, hkey, -⟩ := hk.of_submitting
      have hholds : (w.calls c).holds k := by rw [hx]; simp [Call.holds, hkey]
      have honly : ∀ c' ∈ cs, ¬ (w'.calls c').holds k := by
        intro c' hc' hh
        by_cases heq : c' = c
        · rw [heq, hx'] at hh
          exact absurd hh Bool.false_ne_true
        · rw [hne c' heq] at hh
          exact heq (h.alone c' hc' c hc hh hholds)
      constructor
      · refine hfine ?_
        rw [hx']
        exact nofun
      · intro c₁ hc₁ _ _ hh₁ _
        exact absurd hh₁ (honly c₁ hc₁)
      · intro _
        exact honly
      · intro _
        exact ⟨c, hc, by rw [hx']; rfl⟩
  | refresh hx hx' hrows =>
      rw [hx] at hk
      obtain ⟨_, hop, -⟩ := hk.of_submitting
      refine h.congr_one hne ?_ (Taken.of_rows hrows)
      rw [hx, hx', hop]
      exact ⟨fun hh => absurd hh Bool.false_ne_true, fun _ => rfl, fun _ => nofun⟩

theorem Solo.step (h : Solo cs k w) (hm : Members cs k w) (hg : Ground w) (hf : Footprints w)
    (hP : onlyCreates cs k w e) (ha : apart cs k w e) (hs : (system J).step w e = some w') :
    Solo cs k w' := by
  rcases (step_cases hs).api_or_offstage with ⟨c, hc, hapi⟩ | ⟨-, ho⟩
  · have hne : ∀ c', c' ≠ c → w'.calls c' = w.calls c' := fun _ => hapi.calls_ne
    by_cases hmem : c ∈ cs
    · rcases member_step hg hf hm hP hmem hc hs with ⟨req, -, hx, hx', hrows⟩ | ⟨rfl, hstep⟩
      · refine h.congr_one hne ?_ (Taken.of_rows hrows)
        rw [hx, hx']
        exact ⟨fun hh => absurd hh Bool.false_ne_true, fun ho => absurd ho Bool.false_ne_true,
          fun _ => nofun⟩
      · exact h.step_create hm hmem ha hne hstep
    · refine h.congr ?_ (Taken.of_other hg hm hc hmem hs)
      intro c' hc'
      rw [hne c' fun heq => hmem (heq ▸ hc')]
      exact .refl k _
  · refine h.congr ?_ ?_
    · intro c _
      rw [ho.calls]
      exact .refl k _
    · intro ht
      obtain ⟨i, p, -, hrows⟩ := ho.rows
      exact ht.of_map hrows

end Solo

/-! ## After a breach of the condition -/

/-- Two calls of the key are past a missed SELECT, or have raised. -/
def Doomed (cs : List CallId) (w : World) : Prop :=
  ∃ c ∈ cs, ∃ c' ∈ cs, c ≠ c' ∧ (w.calls c).past ∧ (w.calls c').past

section Doomed
variable {J : JsonCodec} {cs : List CallId} {k : String} {w w' : World} {e : Event} {c : CallId}

theorem CreateStep.past (h : CreateStep w c w') (hk : (w.calls c).OnKey k)
    (hp : (w.calls c).past) : (w'.calls c).past := by
  cases h with
  | hit hx _ _ _ => rw [hx] at hp; exact absurd hp Bool.false_ne_true
  | miss hx _ _ _ => rw [hx] at hp; exact absurd hp Bool.false_ne_true
  | flush _ _ _ hx' _ => rw [hx']; rfl
  | violate _ _ _ hx' _ => rw [hx']; rfl
  | send _ hx' _ => rw [hx']; rfl
  | land _ hx' _ => rw [hx']; rfl
  | refresh hx hx' _ =>
      rw [hx] at hk
      obtain ⟨_, hop, -⟩ := hk.of_submitting
      rw [hx', hop]
      rfl

theorem past_step (hg : Ground w) (hf : Footprints w) (hm : Members cs k w)
    (hP : onlyCreates cs k w e) (hs : (system J).step w e = some w') (hc : c ∈ cs)
    (hp : (w.calls c).past) : (w'.calls c).past := by
  by_cases he : e.call? = some c
  · rcases member_step hg hf hm hP hc he hs with ⟨req, -, hx, -, -⟩ | ⟨-, hstep⟩
    · rw [hx] at hp
      exact absurd hp Bool.false_ne_true
    · exact hstep.past (hm.member c hc) hp
  · rw [step_calls_ne he hs]
    exact hp

theorem Doomed.step (h : Doomed cs w) (hg : Ground w) (hf : Footprints w) (hm : Members cs k w)
    (hP : onlyCreates cs k w e) (hs : (system J).step w e = some w') : Doomed cs w' := by
  obtain ⟨c, hc, c', hc', hne, hp, hp'⟩ := h
  exact ⟨c, hc, c', hc', hne, past_step hg hf hm hP hs hc hp, past_step hg hf hm hP hs hc' hp'⟩

/-- A breach of the condition leaves two calls past their missed SELECT. -/
theorem doomed_of_breach (hg : Ground w) (hf : Footprints w) (hm : Members cs k w)
    (hP : onlyCreates cs k w e) (hb : ¬ apart cs k w e) (hs : (system J).step w e = some w') :
    Doomed cs w' := by
  cases e with
  | api c =>
      simp only [apart, decide_eq_true_eq, Classical.not_imp] at hb
      obtain ⟨hsel, hnone, hall⟩ := hb
      simp only [not_forall, not_not] at hall
      obtain ⟨c', hc', hh⟩ := hall
      obtain ⟨hkey, hnh⟩ := key?_of_selects hsel
      have hc : c ∈ cs := by
        by_contra hc
        exact hm.others c hc hkey
      have hne : c ≠ c' := by
        rintro rfl
        rw [hnh] at hh
        exact absurd hh Bool.false_ne_true
      refine ⟨c, hc, c', hc', hne, ?_, past_step hg hf hm hP hs hc' (past_of_holds hh)⟩
      rcases member_step hg hf hm hP hc rfl hs with ⟨req, -, hx, -, -⟩ | ⟨-, hstep⟩
      · rw [hx] at hsel
        exact absurd hsel Bool.false_ne_true
      · cases hstep with
        | hit hx hfind _ _ =>
            rw [hx] at hsel
            rw [of_decide_eq_true hsel] at hfind
            rw [hfind] at hnone
            exact absurd hnone Bool.false_ne_true
        | miss _ _ hx' _ => rw [hx']; rfl
        | flush hx _ _ _ _ => rw [hx] at hsel; exact absurd hsel Bool.false_ne_true
        | violate hx _ _ _ _ => rw [hx] at hsel; exact absurd hsel Bool.false_ne_true
        | send hx _ _ => rw [hx] at hsel; exact absurd hsel Bool.false_ne_true
        | land hx _ _ => rw [hx] at hsel; exact absurd hsel Bool.false_ne_true
        | refresh hx _ _ => rw [hx] at hsel; exact absurd hsel Bool.false_ne_true
  | _ => exact absurd rfl hb

end Doomed

/-! ## Whole runs -/

/-- What holds in a run of `onlyCreates`. -/
structure KeyInv (cs : List CallId) (k : String) (w : World) : Prop where
  ground : Ground w
  enqueued : Enqueued w
  footprints : Footprints w
  answered : Answered w
  members : Members cs k w

section Run
variable {J : JsonCodec} {cs : List CallId} {k : String} {w w' : World} {e : Event}
  {es : List Event} {allowed : List String}

theorem keyInv_init : KeyInv cs k (.init allowed) where
  ground := ground_init allowed
  enqueued := enqueued_init allowed
  footprints := footprints_init allowed
  answered := answered_init allowed
  members := ⟨fun _ _ => .idle, fun _ _ => nofun⟩

theorem KeyInv.step (h : KeyInv cs k w) (hP : onlyCreates cs k w e)
    (hs : (system J).step w e = some w') : KeyInv cs k w' where
  ground := h.ground.step (step_cases hs)
  enqueued := h.enqueued.step h.ground (step_cases hs)
  footprints := h.footprints.step h.ground h.enqueued (step_cases hs)
  answered := h.answered.step h.ground h.footprints (step_cases hs)
  members := h.members.step h.ground h.footprints hP hs

/-- A run keeps the condition, or ends with two calls past their missed SELECT. -/
theorem apart_or_doomed (h : (system J).Run (fun w e => onlyCreates cs k w e) w es w')
    (hi : KeyInv cs k w) : (system J).Along (fun w e => apart cs k w e) w es ∨ Doomed cs w' := by
  refine h.along_or (I := KeyInv cs k) (B := Doomed cs) ?_ ?_ ?_ hi
  · intro w w' e hi hP hs
    exact hi.step hP hs
  · intro w w' e hi hd hP hs
    exact hd.step hi.ground hi.footprints hi.members hP hs
  · intro w w' e hi hP hb hs
    exact doomed_of_breach hi.ground hi.footprints hi.members hP hb hs

/-- One of `cs` has created the job, and each of the others has answered with it. -/
def Deduplicated (w : World) (cs : List CallId) : Prop :=
  ∃ c₀ ∈ cs, ∃ op₀ resp₀, w.calls c₀ = .returned op₀ (.created resp₀ true) ∧
    ∀ c ∈ cs, c ≠ c₀ → ∃ op resp, w.calls c = .returned op (.created resp false) ∧
      resp.id = resp₀.id

theorem Deduplicated.not_doomed (h : Deduplicated w cs) : ¬ Doomed cs w := by
  obtain ⟨c₀, -, op₀, resp₀, -, hrest⟩ := h
  rintro ⟨c, hc, c', hc', hne, hp, hp'⟩
  have heq : ∀ c ∈ cs, (w.calls c).past → c = c₀ := by
    intro c hc hp
    by_contra hn
    obtain ⟨op, resp, hx, -⟩ := hrest c hc hn
    rw [hx] at hp
    exact absurd hp Bool.false_ne_true
  exact hne ((heq c hc hp).trans (heq c' hc' hp').symm)

/-- A call of the key that is over, and did not raise, has answered. -/
theorem Members.answer (hm : Members cs k w) (hs : Solo cs k w) {c : CallId} (hc : c ∈ cs)
    (ho : (w.calls c).over) : ∃ req resp b, req.idempotencyKey = k ∧
      w.calls c = .returned (.createJob req) (.created resp b) := by
  have hk := hm.member c hc
  have hf := hs.fine c hc
  cases hx : w.calls c with
  | returned op r =>
      rw [hx] at hk
      cases hk with
      | returned hreq => exact ⟨_, _, _, hreq, rfl⟩
  | raised op e => exact absurd hx (hf op e)
  | _ => rw [hx] at ho; exact absurd ho Bool.false_ne_true

theorem KeyInv.deduplicated (h : KeyInv cs k w) (hs : Solo cs k w) (hne : cs ≠ [])
    (hdone : ∀ c ∈ cs, (w.calls c).over) : Deduplicated w cs := by
  obtain ⟨c₁, hc₁⟩ := List.exists_mem_of_ne_nil cs hne
  obtain ⟨req₁, resp₁, b₁, hk₁, hx₁⟩ := h.members.answer hs hc₁ (hdone c₁ hc₁)
  -- an answer names a row of the key, and that row has an owner among the calls
  have htaken : Taken k w := by
    obtain ⟨r, hr, hkey, -⟩ := h.answered c₁ req₁ resp₁ b₁ hx₁
    exact ⟨r, hr, hkey.trans hk₁⟩
  obtain ⟨c₀, hc₀, howns⟩ := hs.owner htaken
  obtain ⟨req₀, resp₀, b₀, hk₀, hx₀⟩ := h.members.answer hs hc₀ (hdone c₀ hc₀)
  rw [hx₀] at howns
  cases b₀ with
  | false => exact absurd howns Bool.false_ne_true
  | true =>
      refine ⟨c₀, hc₀, _, resp₀, hx₀, ?_⟩
      intro c hc hcne
      obtain ⟨req, resp, b, hk, hx⟩ := h.members.answer hs hc (hdone c hc)
      cases b with
      | false => exact ⟨_, resp, hx, h.answered.same_id hx hx₀ (hk.trans hk₀.symm)⟩
      | true =>
          exact absurd (h.answered.created_unique h.ground.submissions hx hx₀ (hk.trans hk₀.symm))
            hcne

theorem solo_init : Solo cs k (.init allowed) where
  fine _ _ _ _ := nofun
  alone _ _ _ _ h := absurd h Bool.false_ne_true
  free h := absurd h (by rintro ⟨r, hr, -⟩; cases hr)
  owner h := absurd h (by rintro ⟨r, hr, -⟩; cases hr)

/-- Concurrent submissions with one key all succeed with one job if and only if, along
the run, no SELECT misses while another call is between its own missed SELECT and its
commit. -/
theorem concurrent_creates_iff
    (h : (system J).Run (fun w e => onlyCreates cs k w e) (.init allowed) es w)
    (hne : cs ≠ []) (hdone : ∀ c ∈ cs, (w.calls c).over) :
    Deduplicated w cs ↔
      (system J).Along (fun w e => apart cs k w e) (.init allowed) es := by
  constructor
  · intro hd
    rcases apart_or_doomed h keyInv_init with halong | hdoomed
    · exact halong
    · exact absurd hdoomed hd.not_doomed
  · intro ha
    have hrun := Machine.run_and.mpr ⟨h, ha⟩
    have hinv : KeyInv cs k w ∧ Solo cs k w := by
      refine hrun.invariant (I := fun w => KeyInv cs k w ∧ Solo cs k w) ?_
        ⟨keyInv_init, solo_init⟩
      rintro w w' e ⟨hi, hsolo⟩ ⟨hP, hapart⟩ hs
      exact ⟨hi.step hP hs, hsolo.step hi.members hi.ground hi.footprints hP hapart hs⟩
    exact hinv.1.deduplicated hinv.2 hne hdone

end Run

/-- Two calls, one after the other. -/
theorem concurrent_creates_iff_ping : ∃ w,
    (system nullCodec).exec pingWorld (createEvents 0 "k" ++ [.call 1 (.createJob (pingRequest "k")),
      .api 1]) = some w ∧ Deduplicated w [0, 1] := by
  obtain ⟨w, hw, hrun, hover⟩ := Machine.exists_run_obs (system nullCodec)
    (fun w e => onlyCreates [0, 1] "k" w e) pingWorld
    (createEvents 0 "k" ++ [.call 1 (.createJob (pingRequest "k")), .api 1])
    (fun w => [0, 1].all fun c => (w.calls c).over) true (by decide) (by decide)
  exact ⟨w, hw, (concurrent_creates_iff hrun (by decide) (List.all_eq_true.mp hover)).mpr
    (by decide)⟩

/-- Two calls look the key up before either has inserted it: the second INSERT raises. -/
theorem concurrent_creates_raise : ∃ w es,
    (system nullCodec).Run (fun w e => onlyCreates [0, 1] "k" w e) pingWorld es w ∧
    w.calls 1 = .raised (.createJob (pingRequest "k")) .integrityError ∧
    ¬ Deduplicated w [0, 1] := by
  obtain ⟨w, -, hrun, hcall⟩ := Machine.exists_run_obs (system nullCodec)
    (fun w e => onlyCreates [0, 1] "k" w e) pingWorld
    ([.call 1 (.createJob (pingRequest "k")), .api 1] ++ createEvents 0 "k" ++ [.api 1])
    (fun w => w.calls 1) (.raised (.createJob (pingRequest "k")) .integrityError) rfl (by decide)
  refine ⟨w, _, hrun, hcall, ?_⟩
  rintro ⟨c₀, -, op₀, resp₀, hx₀, hrest⟩
  by_cases hc : 1 = c₀
  · rw [← hc, hcall] at hx₀
    cases hx₀
  · obtain ⟨op, resp, hx, -⟩ := hrest 1 (by decide) hc
    rw [hcall] at hx
    cases hx

end Aegis
