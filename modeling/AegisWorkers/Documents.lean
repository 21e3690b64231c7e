/-
# `AegisWorkers.Documents` — a request that is read back is the same request

Validation brings a document into a normal form: the strings and the keys of the payload are
stripped, and of two keys that become one a single one is left.  A request in normal form
(`JobCreateRequest.Normal`), written as a document again, is validated to itself.

So what `GET /jobs/{id}` shows of a job can be posted again: its task name, payload and key
were validated when the job was created, no operation rewrites them, and `create_job` finds
the key and answers with this job.  The JSONB column is taken to give a payload back as it was
written; PostgreSQL orders the keys anew, and writes some numbers in another form.
-/
import AegisWorkers.Schema
import AegisWorkers.Guarantees

namespace Aegis

open JobService ReadCommitted

/-! ## Stripping -/

section Strip
variable {isSpace : Char → Bool}

theorem dropWhile_rdropWhile {l : List Char} (h : l.dropWhile isSpace = l) :
    (l.rdropWhile isSpace).dropWhile isSpace = l.rdropWhile isSpace := by
  obtain ⟨t, ht⟩ := List.rdropWhile_prefix (p := isSpace) (l := l)
  cases hl : l.rdropWhile isSpace with
  | nil => rfl
  | cons x xs =>
      have hx : isSpace x = false := by
        rw [hl] at ht
        rw [← ht, List.cons_append] at h
        cases hx : isSpace x with
        | false => rfl
        | true =>
            rw [List.dropWhile_cons_of_pos hx] at h
            have hlen := congrArg List.length h
            have hle := (List.dropWhile_sublist isSpace (l := xs ++ t)).length_le
            rw [List.length_cons] at hlen
            omega
      exact List.dropWhile_cons_of_neg (by rw [hx]; exact Bool.false_ne_true)

theorem JobCreateRequest.strip_strip (s : String) :
    strip isSpace (strip isSpace s) = strip isSpace s := by
  have hfront : ((s.toList.dropWhile isSpace).rdropWhile isSpace).dropWhile isSpace =
      (s.toList.dropWhile isSpace).rdropWhile isSpace :=
    dropWhile_rdropWhile (List.dropWhile_idempotent isSpace s.toList)
  simp only [strip, String.toList_ofList, hfront, List.rdropWhile_idempotent]

end Strip

namespace JobCreateRequest

section Keys
variable {isSpace : Char → Bool} {d kvs : List (String × Json)} {k : String} {v : Json}

/-- The keys are stripped, and no two are the same. -/
structure Keyed (isSpace : Char → Bool) (kvs : List (String × Json)) : Prop where
  nodup : (kvs.map Prod.fst).Nodup
  stripped : ∀ k ∈ kvs.map Prod.fst, strip isSpace k = k

theorem keys_setItem : (setItem d k v).map Prod.fst =
    if k ∈ d.map Prod.fst then d.map Prod.fst else d.map Prod.fst ++ [k] := by
  have hany : d.any (·.1 = k) ↔ k ∈ d.map Prod.fst := by
    simp only [List.any_eq_true, decide_eq_true_eq, List.mem_map]
  unfold setItem
  by_cases hk : k ∈ d.map Prod.fst
  · rw [if_pos (hany.mpr hk), if_pos hk, List.map_map]
    refine List.map_congr_left ?_
    intro e _
    by_cases he : e.1 = k
    · simp only [Function.comp_apply, he, if_true]
    · simp only [Function.comp_apply, he, if_false]
  · rw [if_neg (mt hany.mp hk), if_neg hk, List.map_append, List.map_singleton]

theorem Keyed.setItem (h : Keyed isSpace d) (hk : strip isSpace k = k) :
    Keyed isSpace (setItem d k v) := by
  constructor
  · rw [keys_setItem]
    split
    · exact h.nodup
    · rename_i hnew
      refine List.nodup_append.mpr ⟨h.nodup, List.nodup_singleton k, ?_⟩
      rintro a ha b hb rfl
      exact hnew (List.mem_singleton.mp hb ▸ ha)
  · rw [keys_setItem]
    split
    · exact h.stripped
    · intro k' hk'
      rcases List.mem_append.mp hk' with hold | hnew
      · exact h.stripped k' hold
      · rw [List.mem_singleton.mp hnew]
        exact hk

theorem keyed_stripKeys (kvs : List (String × Json)) : Keyed isSpace (stripKeys isSpace kvs) := by
  have hfold : ∀ d, Keyed isSpace d →
      Keyed isSpace
        (kvs.foldl (fun d e => JobCreateRequest.setItem d (strip isSpace e.1) e.2) d) := by
    induction kvs with
    | nil => exact fun d hd => hd
    | cons e kvs ih => exact fun d hd => ih _ (hd.setItem (strip_strip e.1))
  exact hfold [] ⟨List.nodup_nil, fun k hk => by cases hk⟩

/-- A dictionary with stripped keys is left alone. -/
theorem Keyed.stripKeys (h : Keyed isSpace kvs) : stripKeys isSpace kvs = kvs := by
  have hfold : ∀ d, Keyed isSpace (d ++ kvs) →
      kvs.foldl (fun d e => JobCreateRequest.setItem d (strip isSpace e.1) e.2) d = d ++ kvs := by
    clear h
    induction kvs with
    | nil => exact fun d _ => (List.append_nil d).symm
    | cons e kvs ih =>
        intro d hd
        have hmem : e.1 ∈ (d ++ e :: kvs).map Prod.fst :=
          List.mem_map_of_mem (List.mem_append_right d List.mem_cons_self)
        have hnew : ¬ d.any (·.1 = e.1) := by
          intro hany
          obtain ⟨e', he', hk⟩ := List.any_eq_true.mp hany
          have hnodup := hd.nodup
          rw [List.map_append, List.nodup_append] at hnodup
          exact hnodup.2.2 _ (List.mem_map_of_mem he') _ List.mem_cons_self (of_decide_eq_true hk)
        rw [List.foldl_cons, hd.stripped e.1 hmem, JobCreateRequest.setItem, if_neg hnew]
        rw [List.append_cons d e kvs] at hd ⊢
        exact ih _ hd
  exact hfold [] h

end Keys

/-! ## The normal form -/

/-- What validation makes of a document. -/
structure Normal (J : JsonCodec) (isSpace : Char → Bool) (req : JobCreateRequest) : Prop where
  taskName : strip isSpace req.taskName = req.taskName ∧
    1 ≤ req.taskName.length ∧ req.taskName.length ≤ 255
  payload : ∃ kvs, req.payload = .obj kvs ∧ Keyed isSpace kvs ∧
    (J.dumps req.payload).length ≤ 1000000
  idempotencyKey : strip isSpace req.idempotencyKey = req.idempotencyKey ∧
    1 ≤ req.idempotencyKey.length ∧ req.idempotencyKey.length ≤ 255
  printable : ∀ c ∈ req.idempotencyKey.toList, c ∉ forbiddenChars

/-- The request as a document. -/
def document (req : JobCreateRequest) : Json :=
  .obj [("task_name", .str req.taskName), ("payload", req.payload),
    ("idempotency_key", .str req.idempotencyKey)]

section Normal
variable {J : JsonCodec} {isSpace : Char → Bool} {doc x v : Json} {req : JobCreateRequest}
  {fields : List (String × Json)} {s : String}

theorem boundedStr_strip (h : boundedStr isSpace x = .ok s) : strip isSpace s = s := by
  cases x with
  | str t =>
      simp only [boundedStr] at h
      split at h
      · cases h
      · split at h
        · cases h
        · rw [← Except.ok.inj h]
          exact strip_strip t
  | _ => cases h

theorem boundedStr_of_normal (h : strip isSpace s = s ∧ 1 ≤ s.length ∧ s.length ≤ 255) :
    boundedStr isSpace (.str s) = .ok s := by
  obtain ⟨hstrip, hmin, hmax⟩ := h
  simp only [boundedStr, hstrip]
  rw [if_neg (Nat.not_lt.mpr hmin), if_neg (Nat.not_lt.mpr hmax)]

theorem validatePayloadSize_ok (h : validatePayloadSize J x = .ok v) :
    x = v ∧ (J.dumps v).length ≤ 1000000 := by
  unfold validatePayloadSize at h
  split at h
  · cases h
  · obtain rfl := Except.ok.inj h
    exact ⟨rfl, Nat.not_lt.mp ‹_›⟩

/-- The payload is a dictionary with stripped keys; the default is one, too. -/
theorem payloadField_ok (hempty : J.dumps (.obj []) = "{}")
    (h : payloadField J isSpace fields = .ok v) :
    ∃ kvs, v = .obj kvs ∧ Keyed isSpace kvs ∧ (J.dumps v).length ≤ 1000000 := by
  unfold payloadField field at h
  split at h
  · rename_i x _
    cases x with
    | obj kvs =>
        cases hv : validatePayloadSize J (.obj (stripKeys isSpace kvs)) with
        | error e => simp [strDict, Except.bind, Except.mapError, hv] at h
        | ok u =>
            obtain ⟨rfl, hsize⟩ := validatePayloadSize_ok hv
            simp only [strDict, Except.bind, Except.mapError, hv, Except.ok.injEq] at h
            exact ⟨_, h.symm, keyed_stripKeys kvs, h ▸ hsize⟩
    | _ => cases h
  · obtain rfl := Except.ok.inj h
    refine ⟨[], rfl, ⟨List.nodup_nil, fun k hk => by cases hk⟩, ?_⟩
    rw [hempty]
    decide

theorem normal_of_validated (hempty : J.dumps (.obj []) = "{}")
    (h : modelValidate J isSpace doc = .ok req) : Normal J isSpace req := by
  obtain ⟨fields, rfl, ht, hp, hk⟩ := modelValidate_ok h
  obtain ⟨x, -, hx⟩ := field_ok ht
  obtain ⟨y, -, hy⟩ := field_ok hk
  obtain ⟨hlength, hforbidden⟩ := idempotencyKeyField_ok hk
  refine ⟨⟨boundedStr_strip hx, boundedStr_ok hx⟩, payloadField_ok hempty hp, ⟨?_, hlength⟩,
    hforbidden⟩
  cases hb : boundedStr isSpace y with
  | error e =>
      rw [hb] at hy
      cases hy
  | ok u =>
      rw [hb] at hy
      obtain ⟨rfl, -⟩ := validateIdempotencyKey_ok hy
      exact boundedStr_strip hb

/-- A request in normal form is read back from its document. -/
theorem Normal.validated (h : Normal J isSpace req) :
    modelValidate J isSpace req.document = .ok req := by
  obtain ⟨kvs, hpay, hkeyed, hsize⟩ := h.payload
  have ht : taskNameField isSpace [("task_name", .str req.taskName), ("payload", req.payload),
      ("idempotency_key", .str req.idempotencyKey)] = .ok req.taskName := by
    have hlookup : List.lookup "task_name" [("task_name", Json.str req.taskName),
        ("payload", req.payload), ("idempotency_key", .str req.idempotencyKey)] =
          some (.str req.taskName) := rfl
    simp only [taskNameField, field, hlookup, boundedStr_of_normal h.taskName, Except.mapError]
  have hp : payloadField J isSpace [("task_name", .str req.taskName), ("payload", req.payload),
      ("idempotency_key", .str req.idempotencyKey)] = .ok req.payload := by
    have hlookup : List.lookup "payload" [("task_name", Json.str req.taskName),
        ("payload", req.payload), ("idempotency_key", .str req.idempotencyKey)] =
          some req.payload := rfl
    have hvalid : (strDict isSpace req.payload).bind (validatePayloadSize J) =
        .ok req.payload := by
      rw [hpay] at hsize ⊢
      simp only [strDict, Except.bind, hkeyed.stripKeys, validatePayloadSize,
        if_neg (Nat.not_lt.mpr hsize)]
    simp only [payloadField, field, hlookup, hvalid, Except.mapError]
  have hk : idempotencyKeyField isSpace [("task_name", .str req.taskName),
      ("payload", req.payload), ("idempotency_key", .str req.idempotencyKey)] =
        .ok req.idempotencyKey := by
    have hlookup : List.lookup "idempotency_key" [("task_name", Json.str req.taskName),
        ("payload", req.payload), ("idempotency_key", .str req.idempotencyKey)] =
          some (.str req.idempotencyKey) := rfl
    have hchars : ¬ req.idempotencyKey.toList.any (forbiddenChars.contains ·) := by
      intro hany
      obtain ⟨c, hc, hf⟩ := List.any_eq_true.mp hany
      exact h.printable c hc (List.contains_iff_mem.mp hf)
    have hvalid : (boundedStr isSpace (.str req.idempotencyKey)).bind validateIdempotencyKey =
        .ok req.idempotencyKey := by
      simp only [boundedStr_of_normal h.idempotencyKey, Except.bind, validateIdempotencyKey,
        if_neg hchars]
    simp only [idempotencyKeyField, field, hlookup, hvalid, Except.mapError]
  have hextra : extraFields [("task_name", .str req.taskName), ("payload", req.payload),
      ("idempotency_key", .str req.idempotencyKey)] = [] := rfl
  simp only [document, modelValidate, ht, hp, hk, hextra]

end Normal

end JobCreateRequest

/-! ## Documents and jobs -/

/-- What the response shows, as a request. -/
def JobResponse.request (r : JobResponse) : JobCreateRequest where
  taskName := r.taskName
  payload := r.payload
  idempotencyKey := r.idempotencyKey

/-- A `create_job` request comes from a document the schema has accepted. -/
def Documented (J : JsonCodec) (isSpace : Char → Bool) : Event → Prop
  | .call _ (.createJob req) => ∃ doc, JobCreateRequest.modelValidate J isSpace doc = .ok req
  | _ => True

section Run
variable {J : JsonCodec} {isSpace : Char → Bool} {allowed : List String} {es : List Event}
  {w : World} {r : Job}

/-- The `create_job` request of a row that no retry has made. -/
theorem row_created {P : World → Event → Prop} (h : (system J).Run P (.init allowed) es w)
    (hr : r ∈ w.db.rows) (hroot : r.parentJobId = none) :
    ∃ c, Event.call c (.createJob ⟨r.taskName, r.payload, r.idempotencyKey⟩) ∈ es ∧
      .committed c r.id ∈ w.trace := by
  obtain ⟨c, hcommitted, hstems⟩ := (run_lineages h).2.rows r hr
  cases hstems with
  | @created req haccepted hmade =>
      obtain ⟨w₀, hpast, -⟩ := haccepted
      have hevents := h.past_events []
      rw [List.map_nil, List.append_nil] at hevents
      refine ⟨c, ?_, hcommitted⟩
      rw [hmade.taskName, hmade.payload, hmade.idempotencyKey, ← List.mem_reverse, ← hevents]
      exact List.mem_map_of_mem hpast
  | retried _ _ hret =>
      rw [hret.parentJobId] at hroot
      cases hroot

end Run

/-- What `GET /jobs/{id}` shows of a job that was not made by a retry can be posted again: its task
name, payload and key are those of the `create_job` request whose call committed the job, their
document is accepted as this request, and `create_job` finds its key and answers with this
job. -/
theorem repost_hits {J : JsonCodec} {isSpace : Char → Bool} {allowed : List String}
    {es : List Event} {w : World} {i : Uuid} {now : Time} {resp : JobResponse}
    (h : (system J).Run (fun _ e => Documented J isSpace e) (.init allowed) es w)
    (hempty : J.dumps (.obj []) = "{}") (hget : getJob w.db now i = .ok resp)
    (hroot : resp.parentJobId = none) :
    (∃ c, Event.call c (.createJob resp.request) ∈ es ∧ .committed c i ∈ w.trace) ∧
    JobCreateRequest.modelValidate J isSpace resp.request.document = .ok resp.request ∧
    ∀ c, w.calls c = .createJob resp.request .called → ∃ row w', w.db.find i = some row ∧
      (system J).step w (.api c) = some w' ∧
      w'.calls c = .returned (.createJob resp.request) (.created (existingResponse row) false) := by
  obtain ⟨x, hx, hshows⟩ := entry_of_getJob hget
  obtain ⟨row, hrow, rfl⟩ := Option.map_eq_some_iff.mp hx
  obtain ⟨hmem, hid⟩ := Store.find_eq_some.mp hrow
  obtain ⟨c₀, hcall, hcommitted⟩ := row_created h hmem (hshows.parentJobId.symm.trans hroot)
  obtain ⟨doc, hdoc⟩ := h.events _ hcall
  have hnormal := JobCreateRequest.normal_of_validated hempty hdoc
  have hrequest : resp.request = ⟨row.taskName, row.payload, row.idempotencyKey⟩ := by
    obtain ⟨kvs, hpay, -⟩ := hnormal.payload
    have hobj : row.payload.orEmpty = row.payload := by
      rw [show row.payload = .obj kvs from hpay]
      cases kvs <;> rfl
    have hpayload : resp.payload = row.payload := hshows.payload.trans hobj
    simp only [JobResponse.request, hshows.taskName, hshows.idempotencyKey, hpayload, Job.entry]
  rw [hrequest]
  refine ⟨⟨c₀, hcall, hid ▸ hcommitted⟩, hnormal.validated, ?_⟩
  intro c hc
  have hfind : w.db.findKey row.idempotencyKey = some row :=
    Store.findKey_eq_some.mpr ⟨hmem, rfl⟩
  have hstep : (system J).step w (.api c) = some (w.return c
      (.createJob ⟨row.taskName, row.payload, row.idempotencyKey⟩)
      (.created (existingResponse row) false)) := by
    simp only [system, api, hc, createJob, hfind]
  exact ⟨row, _, hrow, hstep, calls_return_self ..⟩

/-- A key that came with white space around it. -/
theorem repost_hits_ping : ∃ w resp, (system jsonText).exec pingWorld
      (createEvents 0 "k" ++ [.call 1 (.createJob (pingRequest "k"))]) = some w ∧
    getJob w.db 0 0 = .ok resp ∧ resp.parentJobId = none ∧
    (∃ c, .committed c 0 ∈ w.trace) ∧
    JobCreateRequest.modelValidate jsonText Char.isWhitespace
      (pingDocument " k " (.obj [])) = .ok resp.request ∧
    ∃ row w', w.db.find 0 = some row ∧ (system jsonText).step w (.api 1) = some w' ∧
      w'.calls 1 =
        .returned (.createJob resp.request) (.created (existingResponse row) false) := by
  obtain ⟨w, hw, -, hobs⟩ := Machine.exists_run_obs (system jsonText) (fun _ _ => True)
    pingWorld (createEvents 0 "k" ++ [.call 1 (.createJob (pingRequest "k"))])
    (fun w => (getJob w.db 0 0, w.calls 1)) (.ok _, .createJob (pingRequest "k") .called) rfl
    (by decide)
  obtain ⟨hget, hcall⟩ := Prod.mk.inj hobs
  have hdocument : JobCreateRequest.modelValidate jsonText Char.isWhitespace
      (pingDocument " k " (.obj [])) = .ok (pingRequest "k") := rfl
  have hrun : (system jsonText).Run (fun _ e => Documented jsonText Char.isWhitespace e) pingWorld
      (createEvents 0 "k" ++ [.call 1 (.createJob (pingRequest "k"))]) w := by
    refine Machine.run_of_exec hw (Machine.along_of_mem _ _ ?_)
    intro e he _
    simp only [createEvents, List.mem_append, List.mem_cons, List.mem_replicate,
      List.not_mem_nil, or_false] at he
    rcases he with (rfl | ⟨-, rfl⟩) | rfl
    · exact ⟨_, hdocument⟩
    · trivial
    · exact ⟨_, hdocument⟩
  have hhits := repost_hits hrun rfl hget rfl
  exact ⟨w, _, hw, hget, rfl, hhits.1.imp fun _ hc => hc.2, hdocument, hhits.2.2 1 hcall⟩

end Aegis
