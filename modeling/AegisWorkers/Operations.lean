/-
# `AegisWorkers.Operations` — operations without anything in between

An operation is an API call, from the request to its answer, or one hook of a delivery, or
its `run`, from the call to its end (`execute`).  What it does not decide itself is given to
it (`Given`): the ids it generates, the times of its pieces, the end of `execute()`.
Each of its steps is a step of the system at that time and with that id (`callStep_eq`,
`hookStep_eq`), and no external call fails.

An operation is local (`moves_execute`) to the cells of the state that it concerns:

    call c        the session it runs in
    delivery s    the delivery it is a hook of
    row j         the row of a job
    key k         the job that has an idempotency key
    cached k      an entry of the cache

The published messages, the counters and the gauge are only added to.
-/
import AegisWorkers.Locality
import AegisWorkers.Deliveries

namespace Aegis

open BaseTask JobService ReadCommitted Locality

/-! ## Operations -/

/-- What an operation is given. -/
structure Given where
  /-- of the new key of `retry_dlq_job` -/
  keyUuid : Uuid
  /-- of the new row -/
  id : Uuid
  /-- of the new task -/
  taskId : Uuid
  /-- of the `dlq.receive` task -/
  dlqId : Uuid
  /-- the workers a revocation reaches -/
  receivers : List Worker
  /-- the times of its pieces -/
  times : List Time

/-- What is called on a delivery. -/
inductive Hook where
  | beforeStart
  /-- `run`, with its autoretry wrapper; `execute()`, if it is called, ends with `o` -/
  | run (o : Outcome)
  | onSuccess
  | onFailure
  | onRetry

inductive Operation where
  /-- in a session `c` of its own -/
  | call (c : CallId) (op : Op) (g : Given)
  | hook (s : SlotId) (h : Hook) (g : Given)

/-- The world at the time `now`, where the next generated UUID is `uuid`. -/
def World.given (w : World) (now : Time) (uuid : Uuid) : World :=
  { w with clock := now, uuid := uuid }

namespace Call

/-- The id the call generates next. -/
def generates (g : Given) : Call → Uuid
  | .submitting _ _ => g.taskId
  | .retryDlqJob _ _ => g.keyUuid
  | _ => g.id

/-- The external calls left, at most. -/
def left : Call → Nat
  | .createJob _ .called => 5
  | .createJob _ (.missed _) => 4
  | .retryDlqJob _ .called => 5
  | .retryDlqJob _ (.checked _ _) => 4
  | .submitting _ .flushed => 3
  | .submitting _ (.sent _) => 2
  | .submitting _ .committed => 1
  | .cancelJob _ .called => 4
  | .cancelJob _ (.checked _ _) => 3
  | .cancelJob _ (.revoked _) => 2
  | .cancelJob _ .updated => 1
  | _ => 0

end Call

/-- The next external call of `c` returns, a revocation included.  The two ids that
`retry_dlq_job` generates before its flush are given apart. -/
def advance (c : CallId) (g : Given) (w : World) : Option World :=
  match w.calls c with
  | .retryDlqJob jobId (.checked began original) =>
      flush w c 2 (retrySubmission g.keyUuid g.id jobId original began)
  | .cancelJob _ (.checked _ job) =>
      if job.celeryTaskId.isSome then revoke w c g.receivers else api w c
  | _ => api w c

def callStep (c : CallId) (g : Given) (now : Time) (w : World) : Option World :=
  advance c g (w.given now ((w.calls c).generates g))

namespace Hook

/-- The phase in which the hook is called. -/
def begins : Hook → Phase → Bool
  | .beforeStart, .received => true
  | .run _, .started => true
  | .onSuccess, .returned _ => true
  | .onFailure, .failing _ false .send => true
  | .onRetry, .retried => true
  | _, _ => false

/-- The pieces of the hook left, at most; none, if the delivery is not in the hook. -/
def left : Hook → Phase → Nat
  | .beforeStart, .received => 1
  | .run _, .started => 7
  | .run _, .missed => 6
  | .run _, .executing => 5
  | .run _, .failing _ true .send => 4
  | .run _, .failing _ true .failed => 3
  | .run _, .failing _ true .dlq => 2
  | .run _, .failing _ true .count => 1
  | .run _, .retrying _ _ => 1
  | .onSuccess, .returned _ => 3
  | .onSuccess, .completed _ => 2
  | .onSuccess, .counted _ => 1
  | .onFailure, .failing _ false .send => 4
  | .onFailure, .failing _ false .failed => 3
  | .onFailure, .failing _ false .dlq => 2
  | .onFailure, .failing _ false .count => 1
  | .onRetry, .retried => 1
  | _, _ => 0

/-- What the hook next hears from outside. -/
def input : Hook → Phase → Input
  | .run o, .executing => .ends o
  | _, _ => .returns

/-- `execute()` raises `Retry` only while retries are left. -/
def Possible (h : Hook) (m : Message) : Prop :=
  ∀ delay, h = .run (.retry delay) → m.retries < maxRetries

end Hook

/-- A delivery in flight. -/
def Slot.delivery? : Slot → Option (Message × Worker × Phase)
  | .delivered m worker phase => some (m, worker, phase)
  | _ => none

/-- The pieces of the hook left on the delivery in a slot. -/
def Slot.left (h : Hook) (x : Slot) : Nat :=
  match x.delivery? with
  | some (_, _, phase) => h.left phase
  | none => 0

def hookStep (J : JsonCodec) (s : SlotId) (h : Hook) (g : Given) (now : Time) (w : World) :
    Option World :=
  match (w.slots s).delivery? with
  | some (_, _, phase) => (w.given now g.dlqId).work J s (h.input phase)
  | none => none

/-- The operation, from its first piece to its last; `none` where it cannot be
called, or is not given enough times. -/
def execute (J : JsonCodec) : Operation → World → Option World
  | .call c op g => fun w =>
      (JobService.call w c op).bind
        (play (fun w => (w.calls c).left = 0) (callStep c g) g.times)
  | .hook s h g => fun w =>
      match (w.slots s).delivery? with
      | some (_, _, phase) =>
          if h.begins phase then
            play (fun w => (w.slots s).left h = 0) (hookStep J s h g) g.times w
          else none
      | none => none

/-- A step of an API operation is a step of the system. -/
theorem callStep_eq (J : JsonCodec) (c : CallId) {g : Given} (now : Time) (w : World)
    (hg : g.id = g.keyUuid + 1) : ∃ uuid e, e.call? = some c ∧
      callStep c g now w = (system J).step (w.given now uuid) e := by
  refine ⟨(w.calls c).generates g, ?_⟩
  have happly : ∀ w : World, ∃ e : Event, e.call? = some c ∧
      (w.uuid = (w.calls c).generates g → advance c g w = (system J).step w e) := by
    intro w
    unfold advance
    split
    · rename_i jobId began original hc
      refine ⟨.api c, rfl, ?_⟩
      intro hu
      rw [hc] at hu
      simp only [system, api, hc, retryDlqJob, hu, Call.generates, hg]
    · split
      · exact ⟨.revoke c g.receivers, rfl, fun _ => rfl⟩
      · exact ⟨.api c, rfl, fun _ => rfl⟩
    · exact ⟨.api c, rfl, fun _ => rfl⟩
  obtain ⟨e, he, hstep⟩ := happly (w.given now ((w.calls c).generates g))
  exact ⟨e, he, hstep rfl⟩

/-- A step of a hook is a step of the system. -/
theorem hookStep_eq {J : JsonCodec} {s : SlotId} {h : Hook} {g : Given} {now : Time}
    {w w' : World} (hs : hookStep J s h g now w = some w') :
    ∃ i, (system J).step (w.given now g.dlqId) (.work s i) = some w' := by
  unfold hookStep at hs
  split at hs
  · exact ⟨_, hs⟩
  · cases hs

/-! ## What an operation can touch -/

inductive Cell where
  | call (c : CallId)
  | delivery (s : SlotId)
  | row (j : Uuid)
  | key (k : String)
  | cached (k : String)
  deriving DecidableEq

@[reducible] def Cell.Value : Cell → Type
  | .call _ => Call
  | .delivery _ => Option (Message × Worker × Phase)
  | .row _ => Option Job
  | .key _ => Option Uuid
  | .cached _ => Option String

/-- A message entering the default queue. -/
def Obs.sent? : Obs → Option Message
  | .published _ m => some m
  | .retryPublished m => some m
  | _ => none

namespace World

def cells (w : World) : (i : Cell) → i.Value
  | .call c => w.calls c
  | .delivery s => (w.slots s).delivery?
  | .row j => w.db.find j
  | .key k => (w.db.findKey k).map Job.id
  | .cached k => w.cache k

/-- The messages published to the default queue. -/
def messages (w : World) : Multiset Message := (w.trace.filterMap Obs.sent? : List Message)

/-- The messages in the default queue, waiting or in delivery. -/
def queue (w : World) : Multiset Message :=
  ((List.range w.nextSlot).filterMap fun s => (w.slots s).message? : List Message)

/-- The messages published and queued, those of `dlq`, the counters and the gauge. -/
def totals (w : World) : Multiset Message × Multiset Message × Multiset DlqMessage ×
    (String → JobMetric → Nat) × Int :=
  (w.messages, w.queue, (w.dlq : Multiset DlqMessage), w.jobsTotal, w.dlqSize)

/-- No transaction is open. -/
structure Rest (allowed : List String) (w : World) : Prop where
  pending : w.db.pending = []
  locks : w.db.locks = []
  bounded : Bounded w
  allowed : w.allowedTaskNames = allowed

end World

theorem cells_setCall (w : World) (c : CallId) (x : Call) :
    (w.setCall c x).cells = Function.update w.cells (.call c) x := by
  funext i
  cases i with
  | call c' =>
      by_cases h : c' = c
      · subst h
        rw [Function.update_self]
        exact calls_setCall_self ..
      · rw [Function.update_of_ne (by simpa using h)]
        exact calls_setCall_ne _ _ _ h
  | _ =>
      rw [Function.update_of_ne (by simp)]
      rfl

theorem messages_cons {w w' : World} {o : Obs} {m : Message} (h : w'.trace = o :: w.trace)
    (ho : o.sent? = some m) : w'.messages = w.messages + {m} := by
  rw [World.messages, h, List.filterMap_cons_some ho, add_comm, Multiset.singleton_add]
  rfl

theorem messages_skip {w w' : World} {o : Obs} (h : w'.trace = o :: w.trace)
    (ho : o.sent? = none) : w'.messages = w.messages := by
  rw [World.messages, h, List.filterMap_cons_none ho]
  rfl

theorem queue_congr {w w' : World} (hn : w'.nextSlot = w.nextSlot)
    (hs : ∀ s, (w'.slots s).message? = (w.slots s).message?) : w'.queue = w.queue := by
  simp only [World.queue, hn, hs]

theorem queue_grows {w w' : World} {m : Message} (hn : w'.nextSlot = w.nextSlot + 1)
    (hs : ∀ s, s ≠ w.nextSlot → (w'.slots s).message? = (w.slots s).message?)
    (hm : (w'.slots w.nextSlot).message? = some m) : w'.queue = w.queue + {m} := by
  have hold : (List.range w.nextSlot).filterMap (fun s => (w'.slots s).message?) =
      (List.range w.nextSlot).filterMap fun s => (w.slots s).message? := by
    refine List.filterMap_congr ?_
    intro s hmem
    exact hs s (Nat.ne_of_lt (List.mem_range.mp hmem))
  have hnew : [w.nextSlot].filterMap (fun s => (w'.slots s).message?) = [m] := by simp [hm]
  simp only [World.queue, hn, List.range_succ, List.filterMap_append, hold, hnew]
  rfl

theorem jobsTotal_count (w : World) (taskName : String) (status : JobMetric) :
    (w.count taskName status).jobsTotal =
      w.jobsTotal + Pi.single taskName (Pi.single status 1) := by
  funext n st
  simp only [World.count, Pi.add_apply]
  by_cases hn : n = taskName
  · subst hn
    rw [Function.update_self, Pi.single_eq_same]
    by_cases hs : st = status
    · subst hs
      rw [Function.update_self, Pi.single_eq_same]
    · rw [Function.update_of_ne hs, Pi.single_eq_of_ne hs, Nat.add_zero]
  · rw [Function.update_of_ne hn, Pi.single_eq_of_ne hn]
    rfl

/-! ### Keys -/

section Keys
variable {db db' : Db} {k : String}

theorem find_of_findKey {r : Job} (h : db.findKey k = some r) : db.find r.id = some r :=
  Store.find_eq_some.mpr ⟨(Store.findKey_eq_some.mp h).1, rfl⟩

theorem findKey_landed {r : Job} (h : db'.rows = db.rows ++ [r]) :
    db'.findKey k = (db.findKey k).or (if r.idempotencyKey = k then some r else none) := by
  simp only [Store.findKey, h, List.find?_append]
  congr 1
  by_cases hr : r.idempotencyKey = k <;> simp [hr]

/-- An UPDATE leaves every key with its job. -/
theorem owner_mapped {i : Uuid} {p : JobPatch} (h : db'.rows = db.rows.map (p.applyAt i)) :
    (db'.findKey k).map Job.id = (db.findKey k).map Job.id := by
  have hf : db'.findKey k = (db.findKey k).map (p.applyAt i) := by
    simp only [Store.findKey, h, List.find?_map]
    congr 2
    funext r
    simp [p.uk_applyAt]
  rw [hf, Option.map_map]
  congr 1
  funext r
  exact p.pk_applyAt i r

/-- With no row pending, an INSERT goes through when both keys are free, and is a
violation otherwise. -/
theorem insert_at_rest (hp : db.pending = []) (c : CallId) (r : Job) :
    (∃ db', db.insert c r = .inserted db' ∧ db.find r.id = none ∧
      db.findKey r.idempotencyKey = none) ∨
    db.insert c r = .violates ∧
      (db.find r.id ≠ none ∨ db.findKey r.idempotencyKey ≠ none) := by
  have hentries : db.entries = db.rows := by simp [Store.entries, hp]
  cases hi : db.insert c r with
  | waits =>
      simp only [Store.insert, hp, List.not_mem_nil, false_and, exists_false, if_false] at hi
      split at hi <;> cases hi
  | violates =>
      obtain ⟨q, hq, hk⟩ := Store.insert_eq_violates hi
      have hmem : q ∈ db.rows := by simpa [Store.inserts, hp] using hq
      refine .inr ⟨rfl, hk.imp ?_ ?_⟩
      · intro hid hnone
        exact Store.find_eq_none.mp hnone q hmem hid
      · intro hkey hnone
        exact Store.findKey_eq_none.mp hnone q hmem hkey
  | inserted db' =>
      obtain ⟨-, -, -, hfree⟩ := Store.insert_eq_inserted hi
      rw [hentries] at hfree
      exact .inl ⟨db', rfl, Store.find_eq_none.mpr fun q hq => (hfree q hq).1,
        Store.findKey_eq_none.mpr fun q hq => (hfree q hq).2⟩

end Keys

/-! ## API operations -/

/-- The cells an API call can still touch, its own session apart. -/
def Call.Scope (g : Given) (S : Set Cell) (w : World) : Call → Prop
  | .createJob req .called => .key req.idempotencyKey ∈ S ∧
      .row (((w.db.findKey req.idempotencyKey).map Job.id).getD g.id) ∈ S
  | .createJob req (.missed _) => .key req.idempotencyKey ∈ S ∧ .row g.id ∈ S
  | .cancelJob jobId _ => .row jobId ∈ S
  | .retryDlqJob jobId _ =>
      .row jobId ∈ S ∧ .key (dlqRetryKey g.keyUuid) ∈ S ∧ .row g.id ∈ S
  | .submitting sub _ => .key sub.job.idempotencyKey ∈ S ∧ .row sub.job.id ∈ S
  | _ => True

/-- Call `c` is in the same state in `s` and in `t`, no other transaction is open, and the
two agree on what `c` can still touch. -/
structure SameCall (allowed : List String) (c : CallId) (g : Given) (S : Set Cell)
    (s t : World) : Prop where
  own : .call c ∈ S
  agree : ∀ i ∈ S, t.cells i = s.cells i
  pending : t.db.pending = s.db.pending
  locks : t.db.locks = s.db.locks
  ownPending : ∀ q ∈ s.db.pending, q.1 = c
  ownLocks : ∀ l ∈ s.db.locks, l.1 = c
  session : (s.calls c).Session (s.db.inserts c) (s.db.updates c)
  scope : (s.calls c).Scope g S s
  bounded : Bounded s ∧ Bounded t
  allowed : s.allowedTaskNames = allowed ∧ t.allowedTaskNames = allowed

section Calls
variable {allowed : List String} {c : CallId} {g : Given} {S : Set Cell} {s t : World}

theorem SameCall.calls (h : SameCall allowed c g S s t) : t.calls c = s.calls c := h.agree _ h.own

theorem SameCall.find (h : SameCall allowed c g S s t) {j : Uuid} (hj : .row j ∈ S) :
    t.db.find j = s.db.find j := h.agree _ hj

theorem SameCall.inserts (h : SameCall allowed c g S s t) : t.db.inserts c = s.db.inserts c := by
  simp only [Store.inserts, h.pending]

theorem SameCall.updates (h : SameCall allowed c g S s t) : t.db.updates c = s.db.updates c := by
  simp only [Store.updates, h.locks]

/-- Time passes. -/
theorem SameCall.given (h : SameCall allowed c g S s t) (now now' : Time) (u u' : Uuid) :
    SameCall allowed c g S (s.given now u) (t.given now' u') where
  own := h.own
  agree := h.agree
  pending := h.pending
  locks := h.locks
  ownPending := h.ownPending
  ownLocks := h.ownLocks
  session := h.session
  scope := h.scope
  bounded := h.bounded
  allowed := h.allowed

/-- No row is pending, when the call itself has inserted none. -/
theorem SameCall.pending_nil (h : SameCall allowed c g S s t) (hi : s.db.inserts c = []) :
    s.db.pending = [] := by
  refine List.eq_nil_iff_forall_not_mem.mpr ?_
  intro q hq
  have hmem : q.2 ∈ s.db.inserts c :=
    List.mem_map_of_mem (List.mem_filter.mpr ⟨hq, by simpa using h.ownPending q hq⟩)
  rw [hi] at hmem
  cases hmem

theorem SameCall.locks_nil (h : SameCall allowed c g S s t) (hu : s.db.updates c = []) :
    s.db.locks = [] := by
  refine List.eq_nil_iff_forall_not_mem.mpr ?_
  intro l hl
  have hmem : l.2 ∈ s.db.updates c :=
    List.mem_map_of_mem (List.mem_filter.mpr ⟨hl, by simpa using h.ownLocks l hl⟩)
  rw [hu] at hmem
  cases hmem

/-- What `advance` comes to: the call is in one state again, and has less to do. -/
abbrev Advances (allowed : List String) (c : CallId) (g : Given) (S : Set Cell)
    (f : World → Option World) (s t : World) : Prop :=
  Moves World.cells World.totals
    (fun s' t' => SameCall allowed c g S s' t' ∧ (s'.calls c).left < (s.calls c).left) S f s t

/-- The call goes on, and its transaction is as it was. -/
theorem SameCall.keeps (h : SameCall allowed c g S s t) {s' t' : World} {y : Call}
    (ha : Alike World.cells World.totals S s s' t t') (hy : s'.calls c = y) (hs : s'.db = s.db)
    (ht : t'.db = t.db) (hses : y.Session (s.db.inserts c) (s.db.updates c))
    (hsc : y.Scope g S s') (hb : Bounded s' ∧ Bounded t')
    (hal : s'.allowedTaskNames = s.allowedTaskNames ∧ t'.allowedTaskNames = t.allowedTaskNames) :
    SameCall allowed c g S s' t' := by
  refine ⟨h.own, ha.agree h.agree, ?_, ?_, ?_, ?_, ?_, hy ▸ hsc, hb, hal.1.trans h.allowed.1,
    hal.2.trans h.allowed.2⟩
  · rw [hs, ht]
    exact h.pending
  · rw [hs, ht]
    exact h.locks
  · rw [hs]
    exact h.ownPending
  · rw [hs]
    exact h.ownLocks
  · rw [hy, hs]
    exact hses

/-- The call becomes `y`, and nothing else happens. -/
theorem SameCall.becomes (h : SameCall allowed c g S s t) {y : Call}
    (hses : y.Session (s.db.inserts c) (s.db.updates c)) (hsc : y.Scope g S s) :
    Moves World.cells World.totals (fun s' t' => SameCall allowed c g S s' t' ∧ s'.calls c = y) S
      (fun w => some (w.setCall c y)) s t := by
  have ha : Alike World.cells World.totals S s (s.setCall c y) t (t.setCall c y) :=
    ⟨_, 0, within_update h.own fun _ => y, cells_setCall .., cells_setCall ..,
      (add_zero _).symm, (add_zero _).symm⟩
  have hscope : y.Scope g S (s.setCall c y) := by
    cases y <;> exact hsc
  exact ⟨_, _, rfl, rfl, ⟨h.keeps ha (calls_setCall_self ..) rfl rfl hses hscope h.bounded
    ⟨rfl, rfl⟩, calls_setCall_self ..⟩, ha⟩

/-- The call only reads. -/
theorem SameCall.goes (h : SameCall allowed c g S s t) {y : Call}
    (hses : y.Session (s.db.inserts c) (s.db.updates c)) (hsc : y.Scope g S s)
    (hleft : y.left < (s.calls c).left) :
    Advances allowed c g S (fun w => some (w.setCall c y)) s t := by
  refine (h.becomes hses hsc).mono ?_
  rintro s' t' ⟨h', rfl⟩
  exact ⟨h', hleft⟩

theorem cells_raise (w : World) (c : CallId) (op : Op) (e : ApiError) :
    (w.raise c op e).cells = Function.update w.cells (.call c) (.raised op e) :=
  cells_setCall ..

/-- The transaction is over. -/
theorem SameCall.settles (h : SameCall allowed c g S s t) {s' t' : World} {y : Call}
    (ha : Alike World.cells World.totals S s s' t t') (hy : s'.calls c = y)
    (hs : s'.db.pending = s.db.pending.filter (fun q => q.1 ≠ c) ∧
      s'.db.locks = s.db.locks.filter fun l => l.1 ≠ c)
    (ht : t'.db.pending = t.db.pending.filter (fun q => q.1 ≠ c) ∧
      t'.db.locks = t.db.locks.filter fun l => l.1 ≠ c)
    (hses : y.Session [] []) (hsc : y.Scope g S s') (hb : Bounded s' ∧ Bounded t')
    (hal : s'.allowedTaskNames = s.allowedTaskNames ∧ t'.allowedTaskNames = t.allowedTaskNames) :
    SameCall allowed c g S s' t' := by
  have hp : s.db.pending.filter (fun q => q.1 ≠ c) = [] :=
    List.filter_eq_nil_iff.mpr fun q hq => by simpa using h.ownPending q hq
  have hl : s.db.locks.filter (fun l => l.1 ≠ c) = [] :=
    List.filter_eq_nil_iff.mpr fun l hl => by simpa using h.ownLocks l hl
  rw [h.pending, h.locks, hp, hl] at ht
  rw [hp, hl] at hs
  refine ⟨h.own, ha.agree h.agree, ht.1.trans hs.1.symm, ht.2.trans hs.2.symm, ?_, ?_, ?_,
    hy ▸ hsc, hb, hal.1.trans h.allowed.1, hal.2.trans h.allowed.2⟩
  · simp [hs.1]
  · simp [hs.2]
  · rw [hy]
    simpa only [Store.inserts, Store.updates, hs.1, hs.2, List.filter_nil, List.map_nil] using hses

theorem SameCall.raises (h : SameCall allowed c g S s t) (op : Op) (e : ApiError)
    (hleft : 0 < (s.calls c).left) :
    Advances allowed c g S (fun w => some (w.raise c op e)) s t := by
  have ha : Alike World.cells World.totals S s (s.raise c op e) t (t.raise c op e) :=
    ⟨_, 0, within_update h.own fun _ => .raised op e, cells_raise .., cells_raise ..,
      (add_zero _).symm, (add_zero _).symm⟩
  refine ⟨_, _, rfl, rfl, ⟨?_, ?_⟩, ha⟩
  · exact h.settles ha (calls_raise_self ..) ⟨rfl, rfl⟩ ⟨rfl, rfl⟩ ⟨rfl, rfl⟩ trivial h.bounded
      ⟨rfl, rfl⟩
  · rw [calls_raise_self]
    exact hleft

/-- Both keys are free in the two worlds, or in neither. -/
theorem SameCall.taken (h : SameCall allowed c g S s t) {r : Job} (hid : .row r.id ∈ S)
    (hk : .key r.idempotencyKey ∈ S) :
    (t.db.find r.id ≠ none ∨ t.db.findKey r.idempotencyKey ≠ none) ↔
      (s.db.find r.id ≠ none ∨ s.db.findKey r.idempotencyKey ≠ none) := by
  have hkey : (t.db.findKey r.idempotencyKey).map Job.id =
      (s.db.findKey r.idempotencyKey).map Job.id := h.agree _ hk
  have hnone : t.db.findKey r.idempotencyKey = none ↔ s.db.findKey r.idempotencyKey = none := by
    rw [← Option.map_eq_none_iff (f := Job.id), hkey, Option.map_eq_none_iff]
  rw [h.find hid, Ne, Ne, Ne, hnone]

theorem cells_inserted {w : World} {db : Db} {r : Job} (hi : w.db.insert c r = .inserted db)
    (n : Nat) (y : Call) : (({ w with db := db, uuid := n } : World).setCall c y).cells =
      Function.update w.cells (.call c) y := by
  have hrows := (Store.insert_eq_inserted hi).1
  rw [cells_setCall]
  congr 1
  funext i
  cases i with
  | row j => exact find_eq_of_rows hrows j
  | key k => simp only [World.cells, Store.findKey, hrows]
  | _ => rfl

theorem SameCall.flushes (h : SameCall allowed c g S s t) (n : Nat) (sub : Submission)
    (hid : .row sub.job.id ∈ S) (hk : .key sub.job.idempotencyKey ∈ S)
    (hins : s.db.inserts c = []) (hupd : s.db.updates c = []) (hleft : 3 < (s.calls c).left) :
    Advances allowed c g S (fun w => flush w c n sub) s t := by
  have hp := h.pending_nil hins
  have hp' : t.db.pending = [] := h.pending.trans hp
  rcases insert_at_rest hp c sub.job with ⟨db, hi, hfree⟩ | ⟨hi, htaken⟩
  · rcases insert_at_rest hp' c sub.job with ⟨db', hi', -⟩ | ⟨-, htaken'⟩
    · have hpend := (Store.insert_eq_inserted hi).2.2.1
      have hpend' := (Store.insert_eq_inserted hi').2.2.1
      have hlocks := (Store.insert_eq_inserted hi).2.1
      have hlocks' := (Store.insert_eq_inserted hi').2.1
      have ha : Alike World.cells World.totals S s
          (({ s with db := db, uuid := s.uuid + n } : World).setCall c (.submitting sub .flushed)) t
          (({ t with db := db', uuid := t.uuid + n } : World).setCall c
            (.submitting sub .flushed)) :=
        ⟨_, 0, within_update h.own fun _ => .submitting sub .flushed, cells_inserted hi ..,
          cells_inserted hi' .., (add_zero _).symm, (add_zero _).symm⟩
      refine ⟨_, _, by simp only [flush, hi], by simp only [flush, hi'],
        ⟨⟨h.own, ha.agree h.agree, ?_, ?_, ?_, ?_, ?_, ?_, h.bounded, h.allowed⟩, ?_⟩, ha⟩
      · simp only [db_setCall, hpend, hpend', h.pending]
      · simp only [db_setCall, hlocks, hlocks', h.locks]
      · simp only [db_setCall, hpend, hp]
        simp
      · simpa only [db_setCall, hlocks] using h.ownLocks
      · rw [calls_setCall_self]
        refine ⟨(Store.inserts_cons hpend c).trans ?_, ?_⟩
        · rw [if_pos rfl, hins]
        · rw [← hupd]
          simp only [db_setCall, Store.updates, hlocks]
      · rw [calls_setCall_self]
        exact ⟨hk, hid⟩
      · rw [calls_setCall_self]
        exact hleft
    · rcases (h.taken hid hk).mp htaken' with hne | hne
      · exact absurd hfree.1 hne
      · exact absurd hfree.2 hne
  · rcases insert_at_rest hp' c sub.job with ⟨db', -, hfree'⟩ | ⟨hi', -⟩
    · rcases (h.taken hid hk).mpr htaken with hne | hne
      · exact absurd hfree'.1 hne
      · exact absurd hfree'.2 hne
    · obtain ⟨s', t', hs, ht, hR, ha⟩ := (h.given s.clock t.clock (s.uuid + n) (t.uuid + n)).raises
        sub.op .integrityError (Nat.zero_lt_of_lt hleft)
      refine ⟨s', t', ?_, ?_, hR, ha⟩
      · simp only [flush, hi]
        exact hs
      · simp only [flush, hi']
        exact ht

theorem SameCall.sends (h : SameCall allowed c g S s t) {sub : Submission}
    (hc : s.calls c = .submitting sub .flushed) (hu : t.uuid = s.uuid) :
    Advances allowed c g S (fun w => some
      ((w.sendTask c (message sub w.uuid)).setCall c (.submitting sub (.sent w.uuid)))) s t := by
  have hcells : ∀ {w : World}, Bounded w → ∀ (m : Message) (y : Call),
      ((w.sendTask c m).setCall c y).cells = Function.update w.cells (.call c) y := by
    intro w hb m y
    rw [cells_setCall]
    congr 1
    funext i
    cases i with
    | delivery s' =>
        by_cases hs : s' = w.nextSlot
        · subst hs
          simp only [World.cells, World.sendTask, World.observe, World.enqueue,
            Function.update_self, hb _ (Nat.le_refl _), Slot.delivery?]
        · simp only [World.cells, World.sendTask, World.observe, World.enqueue,
            Function.update_of_ne hs]
    | _ => rfl
  have htotals : ∀ (w : World) (m : Message) (y : Call), ((w.sendTask c m).setCall c y).totals =
      w.totals + ({m}, {m}, 0, 0, 0) := by
    intro w m y
    refine Prod.ext (messages_cons rfl rfl) (Prod.ext ?_ ?_)
    · refine queue_grows rfl ?_ ?_
      · intro s hs
        show (Function.update w.slots w.nextSlot (.queued m) s).message? = _
        rw [Function.update_of_ne hs]
      · show (Function.update w.slots w.nextSlot (.queued m) w.nextSlot).message? = _
        rw [Function.update_self]
        rfl
    · simp only [Prod.snd_add, Prod.mk_zero_zero, add_zero]
      rfl
  have hses := h.session
  have hsc := h.scope
  rw [hc] at hses hsc
  have ha : Alike World.cells World.totals S s
      ((s.sendTask c (message sub s.uuid)).setCall c (.submitting sub (.sent s.uuid))) t
      ((t.sendTask c (message sub t.uuid)).setCall c (.submitting sub (.sent t.uuid))) := by
    rw [hu]
    exact ⟨_, _, within_update h.own fun _ => .submitting sub (.sent s.uuid), hcells h.bounded.1 ..,
      hcells h.bounded.2 .., htotals .., htotals ..⟩
  refine ⟨_, _, rfl, rfl, ⟨h.keeps ha (calls_setCall_self ..) rfl rfl hses hsc
    ⟨h.bounded.1.enqueue _, h.bounded.2.enqueue _⟩ ⟨rfl, rfl⟩, ?_⟩, ha⟩
  rw [calls_setCall_self, hc]
  exact Nat.lt_succ_self _

theorem totals_observe {w : World} {o : Obs} (ho : o.sent? = none) :
    (w.observe o).totals = w.totals :=
  Prod.ext (messages_skip rfl ho) rfl

theorem totals_countSubmission (sub : Submission) :
    ∃ d, ∀ w : World, (countSubmission w sub).totals = w.totals + d := by
  unfold countSubmission
  split
  · refine ⟨(0, 0, 0, Pi.single sub.taskName (Pi.single .dlqRetry 1), 0), ?_⟩
    intro w
    refine Prod.ext (add_zero _).symm (Prod.ext (add_zero _).symm (Prod.ext (add_zero _).symm
      (Prod.ext ?_ (add_zero _).symm)))
    exact jobsTotal_count ..
  · exact ⟨0, fun w => (add_zero _).symm⟩

/-- The world after the commit of a submission. -/
def World.landed (w : World) (c : CallId) (sub : Submission) (celeryTaskId : Uuid) : World :=
  (countSubmission ({ w with
    db := (w.db.amend c sub.job.id (celeryTaskIdPatch celeryTaskId sub.began)).commit c }.observe
      (.committed c sub.job.id)) sub).setCall c (.submitting sub .committed)

theorem cells_landed {w : World} {sub : Submission} (celeryTaskId : Uuid)
    (hi : w.db.inserts c = [sub.job]) (hu : w.db.updates c = []) :
    (w.landed c sub celeryTaskId).cells =
      Function.update
        (Function.update
          (Function.update w.cells (.row sub.job.id)
            ((w.cells (.row sub.job.id)).or (some (sub.row celeryTaskId))))
          (.key sub.job.idempotencyKey)
          ((w.cells (.key sub.job.idempotencyKey)).or (some sub.job.id)))
        (.call c) (.submitting sub .committed) := by
  have hrows := rows_land celeryTaskId hi hu
  rw [World.landed, cells_setCall]
  congr 1
  funext i
  cases i with
  | row j =>
      rw [Function.update_of_ne (by simp)]
      simp only [World.cells, db_countSubmission, db_observe, find_landed hrows]
      by_cases hj : j = sub.job.id
      · subst hj
        rw [Function.update_self]
        exact congrArg _ (if_pos rfl)
      · rw [Function.update_of_ne (by simpa using hj)]
        have hne : (sub.row celeryTaskId).id ≠ j := fun he => hj he.symm
        rw [if_neg hne, Option.or_none]
        rfl
  | key k =>
      simp only [World.cells, db_countSubmission, db_observe, findKey_landed hrows]
      by_cases hk : k = sub.job.idempotencyKey
      · subst hk
        have hself : (sub.row celeryTaskId).idempotencyKey = sub.job.idempotencyKey := rfl
        rw [Function.update_self, if_pos hself]
        cases w.db.findKey sub.job.idempotencyKey <;> rfl
      · rw [Function.update_of_ne (by simpa using hk), Function.update_of_ne (by simp)]
        have hne : (sub.row celeryTaskId).idempotencyKey ≠ k := fun he => hk he.symm
        rw [if_neg hne, Option.or_none]
        rfl
  | _ =>
      rw [Function.update_of_ne (by simp), Function.update_of_ne (by simp)]
      simp [World.cells]

theorem SameCall.lands (h : SameCall allowed c g S s t) {sub : Submission} {celeryTaskId : Uuid}
    (hc : s.calls c = .submitting sub (.sent celeryTaskId)) :
    Advances allowed c g S (fun w => some (w.landed c sub celeryTaskId)) s t := by
  have hses := h.session
  have hsc := h.scope
  rw [hc] at hses hsc
  obtain ⟨hins, hupd⟩ := hses
  obtain ⟨d, hd⟩ := totals_countSubmission sub
  have htotals : ∀ w : World, (w.landed c sub celeryTaskId).totals = w.totals + d := by
    intro w
    refine (hd _).trans ?_
    rw [totals_observe rfl]
    rfl
  have ha : Alike World.cells World.totals S s (s.landed c sub celeryTaskId) t
      (t.landed c sub celeryTaskId) :=
    ⟨_, d, (within_update h.own fun _ => .submitting sub .committed).comp
        ((within_update hsc.1 fun o => o.or (some sub.job.id)).comp
          (within_update hsc.2 fun o => o.or (some (sub.row celeryTaskId)))),
      cells_landed celeryTaskId hins hupd,
      cells_landed celeryTaskId (h.inserts.trans hins) (h.updates.trans hupd), htotals s, htotals t⟩
  have hdb : ∀ w : World, (w.landed c sub celeryTaskId).db =
      (w.db.amend c sub.job.id (celeryTaskIdPatch celeryTaskId sub.began)).commit c :=
    fun w => db_countSubmission ..
  have hopen : ∀ w : World,
      (w.landed c sub celeryTaskId).db.pending = w.db.pending.filter (fun q => q.1 ≠ c) ∧
        (w.landed c sub celeryTaskId).db.locks = w.db.locks.filter fun l => l.1 ≠ c := by
    intro w
    rw [hdb, Store.pending_commit, Store.locks_commit]
    exact ⟨Store.pending_amend_ne .., rfl⟩
  have hbounded : ∀ {w : World}, Bounded w → Bounded (w.landed c sub celeryTaskId) :=
    fun hb => hb.congr (slots_countSubmission ..) (nextSlot_countSubmission ..)
  refine ⟨_, _, rfl, rfl, ⟨?_, ?_⟩, ha⟩
  · exact h.settles ha (calls_setCall_self ..) (hopen s) (hopen t) ⟨rfl, rfl⟩ hsc
      ⟨hbounded h.bounded.1, hbounded h.bounded.2⟩
      ⟨allowed_countSubmission .., allowed_countSubmission ..⟩
  · show ((World.setCall ..).calls c).left < _
    rw [calls_setCall_self, hc]
    exact Nat.lt_succ_self _

theorem lock_own {db : Db} (h : ∀ l ∈ db.locks, l.1 = c) (j : Uuid) (p : JobPatch) :
    db.lock c j p = some { db with locks := (c, j, p) :: db.locks } := by
  refine if_neg ?_
  rintro ⟨l, hl, hne, -⟩
  exact hne (h l hl)

theorem SameCall.locking (h : SameCall allowed c g S s t) {jobId : Uuid} {began : Time}
    (hc : s.calls c = .cancelJob jobId (.revoked began)) :
    Advances allowed c g S (fun w => (w.db.lock c jobId (cancelPatch began)).map fun db =>
      { w with db := db }.setCall c (.cancelJob jobId .updated)) s t := by
  have hses := h.session
  have hsc := h.scope
  rw [hc] at hses hsc
  have hl := lock_own h.ownLocks jobId (cancelPatch began)
  have hl' : t.db.lock c jobId (cancelPatch began) =
      some { t.db with locks := (c, jobId, cancelPatch began) :: t.db.locks } :=
    lock_own (h.locks ▸ h.ownLocks) _ _
  refine ⟨_, _, congrArg (Option.map _) hl, congrArg (Option.map _) hl', ?_⟩
  have ha : Alike World.cells World.totals S s
      (({ s with db := { s.db with locks := (c, jobId, cancelPatch began) :: s.db.locks } } :
        World).setCall c (.cancelJob jobId .updated)) t
      (({ t with db := { t.db with locks := (c, jobId, cancelPatch began) :: t.db.locks } } :
        World).setCall c (.cancelJob jobId .updated)) :=
    ⟨_, 0, within_update h.own fun _ => .cancelJob jobId .updated, cells_setCall ..,
      cells_setCall .., (add_zero _).symm, (add_zero _).symm⟩
  refine ⟨⟨⟨h.own, ha.agree h.agree, h.pending, ?_, h.ownPending, ?_, ?_, ?_, h.bounded,
    h.allowed⟩, ?_⟩, ha⟩
  · exact congrArg (List.cons _) h.locks
  · intro l hmem
    rcases List.mem_cons.mp hmem with rfl | hmem
    · rfl
    · exact h.ownLocks l hmem
  · rw [calls_setCall_self]
    refine ⟨hses.1, began, (Store.updates_cons rfl c).trans ?_⟩
    rw [if_pos rfl, hses.2]
  · rw [calls_setCall_self]
    exact hsc
  · rw [calls_setCall_self, hc]
    exact Nat.lt_succ_self _

/-- The world after the commit of a cancellation. -/
def World.cancelled (w : World) (c : CallId) (jobId : Uuid) : World :=
  ({ w with db := w.db.commit c }.observe (.committed c jobId)).return c (.cancelJob jobId)
    (.cancelled (cancelResponse jobId))

theorem cells_cancelled {w : World} {jobId : Uuid} {began : Time} (hi : w.db.inserts c = [])
    (hu : w.db.updates c = [(jobId, cancelPatch began)]) :
    (w.cancelled c jobId).cells =
      Function.update
        (Function.update w.cells (.row jobId)
          ((w.cells (.row jobId)).map (cancelPatch began).apply))
        (.call c) (.returned (.cancelJob jobId) (.cancelled (cancelResponse jobId))) := by
  have hrows : (w.db.commit c).rows = w.db.rows.map ((cancelPatch began).applyAt jobId) := by
    rw [Store.rows_commit, hi, hu, List.append_nil]
    rfl
  refine (cells_setCall ..).trans ?_
  congr 1
  funext i
  cases i with
  | row j =>
      by_cases hj : j = jobId
      · subst hj
        rw [Function.update_self]
        exact find_cancelled hrows
      · rw [Function.update_of_ne (by simpa using hj)]
        exact find_mapped_ne hrows hj
  | key k =>
      rw [Function.update_of_ne (by simp)]
      exact owner_mapped hrows
  | _ =>
      rw [Function.update_of_ne (by simp)]
      rfl

theorem SameCall.cancels (h : SameCall allowed c g S s t) {jobId : Uuid}
    (hc : s.calls c = .cancelJob jobId .updated) :
    Advances allowed c g S (fun w => some (w.cancelled c jobId)) s t := by
  have hses := h.session
  have hsc := h.scope
  rw [hc] at hses hsc
  obtain ⟨hins, began, hupd⟩ := hses
  have ha : Alike World.cells World.totals S s (s.cancelled c jobId) t (t.cancelled c jobId) :=
    ⟨_, 0, (within_update h.own fun _ =>
        .returned (.cancelJob jobId) (.cancelled (cancelResponse jobId))).comp
        (within_update hsc fun o => o.map (cancelPatch began).apply),
      cells_cancelled hins hupd,
      cells_cancelled (h.inserts.trans hins) (h.updates.trans hupd),
      (totals_observe rfl).trans (add_zero _).symm, (totals_observe rfl).trans (add_zero _).symm⟩
  have hopen : ∀ w : World,
      (w.cancelled c jobId).db.pending = w.db.pending.filter (fun q => q.1 ≠ c) ∧
        (w.cancelled c jobId).db.locks = w.db.locks.filter fun l => l.1 ≠ c :=
    fun w => ⟨Store.pending_commit .., Store.locks_commit ..⟩
  refine ⟨_, _, rfl, rfl, ⟨?_, ?_⟩, ha⟩
  · exact h.settles ha (calls_return_self ..) (hopen s) (hopen t) ⟨rfl, rfl⟩ trivial h.bounded
      ⟨rfl, rfl⟩
  · show ((World.return ..).calls c).left < _
    rw [calls_return_self, hc]
    exact Nat.lt_succ_self _

theorem SameCall.revokes (h : SameCall allowed c g S s t) {jobId taskId : Uuid} {began : Time}
    {job : Job} (hc : s.calls c = .cancelJob jobId (.checked began job))
    (ht : job.celeryTaskId = some taskId) :
    Advances allowed c g S (fun w => revoke w c g.receivers) s t := by
  have hses := h.session
  have hsc := h.scope
  rw [hc] at hses hsc
  have hrevoke : ∀ {w : World}, w.calls c = .cancelJob jobId (.checked began job) →
      ∃ heard, revoke w c g.receivers = some
        (({ w with heard := heard }.observe (.revoked c taskId)).setCall c
          (.cancelJob jobId (.revoked began))) := by
    intro w hw
    refine ⟨fun worker =>
      if worker ∈ g.receivers then taskId :: w.heard worker else w.heard worker, ?_⟩
    simp only [revoke, hw, ht, Option.map_some]
  obtain ⟨heard, hs⟩ := hrevoke hc
  obtain ⟨heard', hs'⟩ := hrevoke (h.calls.trans hc)
  refine ⟨_, _, hs, hs', ?_⟩
  have ha : Alike World.cells World.totals S s
      (({ s with heard := heard }.observe (.revoked c taskId)).setCall c
        (.cancelJob jobId (.revoked began))) t
      (({ t with heard := heard' }.observe (.revoked c taskId)).setCall c
        (.cancelJob jobId (.revoked began))) :=
    ⟨_, 0, within_update h.own fun _ => .cancelJob jobId (.revoked began), cells_setCall ..,
      cells_setCall .., (totals_observe rfl).trans (add_zero _).symm,
      (totals_observe rfl).trans (add_zero _).symm⟩
  refine ⟨⟨h.keeps ha (calls_setCall_self ..) rfl rfl hses hsc h.bounded ⟨rfl, rfl⟩, ?_⟩, ha⟩
  rw [calls_setCall_self, hc]
  exact Nat.lt_succ_self _

theorem SameCall.creates (h : SameCall allowed c g S s t) {req : JobCreateRequest} {pc : CreatePc}
    (hc : s.calls c = .createJob req pc)
    (hu : s.uuid = (s.calls c).generates g) (hu' : t.uuid = s.uuid) (hnow : t.clock = s.clock) :
    Advances allowed c g S (advance c g) s t := by
  have hses := h.session
  have hsc := h.scope
  have hct := h.calls
  rw [hc] at hu hses hsc hct
  cases pc with
  | called =>
      -- the key has the same job in both, or none in either
      have howner : (t.db.findKey req.idempotencyKey).map Job.id =
          (s.db.findKey req.idempotencyKey).map Job.id := h.agree _ hsc.1
      cases hf : s.db.findKey req.idempotencyKey with
      | none =>
          have hf' : t.db.findKey req.idempotencyKey = none := by simpa [hf] using howner
          have hrow : .row g.id ∈ S := by simpa [hf] using hsc.2
          refine (h.goes (y := .createJob req (.missed s.clock)) hses ⟨hsc.1, hrow⟩
            (by rw [hc]; exact Nat.lt_succ_self _)).congr ?_ ?_
          · simp only [advance, hc, api, createJob, hf]
          · simp only [advance, hct, api, createJob, hf', hnow]
      | some existing =>
          obtain ⟨existing', hf', hid⟩ : ∃ existing', t.db.findKey req.idempotencyKey =
              some existing' ∧ existing'.id = existing.id := by simpa [hf] using howner
          have hrow : .row existing.id ∈ S := by simpa [hf] using hsc.2
          have hsame : existing' = existing := by
            have hfind := find_of_findKey hf'
            rw [hid, h.find hrow, find_of_findKey hf] at hfind
            exact (Option.some.inj hfind).symm
          refine (h.goes (y := .returned (.createJob req)
            (.created (existingResponse existing) false)) hses trivial
            (by rw [hc]; exact Nat.zero_lt_succ _)).congr ?_ ?_
          · simp only [advance, hc, api, createJob, hf, World.return]
          · simp only [advance, hct, api, createJob, hf', hsame, World.return]
  | missed began =>
      refine (h.flushes 1 (createSubmission g.id req began) hsc.2 hsc.1 hses.1 hses.2
        (by rw [hc]; exact Nat.lt_succ_self _)).congr ?_ ?_
      · simp only [advance, hc, api, createJob, hu, Call.generates]
      · simp only [advance, hct, api, createJob, hu', hu, Call.generates]

theorem SameCall.cancelling (h : SameCall allowed c g S s t) {jobId : Uuid} {pc : CancelPc}
    (hc : s.calls c = .cancelJob jobId pc) (hnow : t.clock = s.clock) :
    Advances allowed c g S (advance c g) s t := by
  have hses := h.session
  have hsc := h.scope
  have hct := h.calls
  rw [hc] at hses hsc hct
  cases pc with
  | called =>
      have hfind := h.find hsc
      cases hf : s.db.find jobId with
      | none =>
          refine (h.raises (.cancelJob jobId) (jobNotFound jobId)
            (by rw [hc]; exact Nat.zero_lt_succ _)).congr ?_ ?_
          · simp only [advance, hc, api, cancelJob, hf]
          · simp only [advance, hct, api, cancelJob, hfind, hf]
      | some job =>
          by_cases hp : job.status = .pending
          · refine (h.goes (y := .cancelJob jobId (.checked s.clock job)) hses hsc
              (by rw [hc]; exact Nat.lt_succ_self _)).congr ?_ ?_
            · simp [advance, hc, api, cancelJob, hf, hp]
            · simp [advance, hct, api, cancelJob, hfind, hf, hp, hnow]
          · refine (h.raises (.cancelJob jobId) (cannotCancel job.status)
              (by rw [hc]; exact Nat.zero_lt_succ _)).congr ?_ ?_
            · simp [advance, hc, api, cancelJob, hf, hp]
            · simp [advance, hct, api, cancelJob, hfind, hf, hp]
  | checked began job =>
      cases ht : job.celeryTaskId with
      | none =>
          refine (h.goes (y := .cancelJob jobId (.revoked began)) hses hsc
            (by rw [hc]; exact Nat.lt_succ_self _)).congr ?_ ?_
          · simp [advance, hc, api, cancelJob, ht]
          · simp [advance, hct, api, cancelJob, ht]
      | some taskId =>
          refine (h.revokes hc ht).congr ?_ ?_
          · simp [advance, hc, ht]
          · simp [advance, hct, ht]
  | revoked began =>
      refine (h.locking hc).congr ?_ ?_
      · simp only [advance, hc, api, cancelJob]
      · simp only [advance, hct, api, cancelJob]
  | updated =>
      refine (h.cancels hc).congr ?_ ?_
      · simp only [advance, hc, api, cancelJob]
        rfl
      · simp only [advance, hct, api, cancelJob]
        rfl

theorem SameCall.retries (h : SameCall allowed c g S s t) {jobId : Uuid} {pc : RetryPc}
    (hc : s.calls c = .retryDlqJob jobId pc) (hnow : t.clock = s.clock) :
    Advances allowed c g S (advance c g) s t := by
  have hses := h.session
  have hsc := h.scope
  have hct := h.calls
  rw [hc] at hses hsc hct
  cases pc with
  | called =>
      have hfind := h.find hsc.1
      cases hf : s.db.find jobId with
      | none =>
          refine (h.raises (.retryDlqJob jobId) (jobNotFound jobId)
            (by rw [hc]; exact Nat.zero_lt_succ _)).congr ?_ ?_
          · simp only [advance, hc, api, retryDlqJob, hf]
          · simp only [advance, hct, api, retryDlqJob, hfind, hf]
      | some original =>
          by_cases hd : original.status = .dlq
          · refine (h.goes (y := .retryDlqJob jobId (.checked s.clock original)) hses hsc
              (by rw [hc]; exact Nat.lt_succ_self _)).congr ?_ ?_
            · simp [advance, hc, api, retryDlqJob, hf, hd]
            · simp [advance, hct, api, retryDlqJob, hfind, hf, hd, hnow]
          · refine (h.raises (.retryDlqJob jobId) (notInDlq original.status)
              (by rw [hc]; exact Nat.zero_lt_succ _)).congr ?_ ?_
            · simp [advance, hc, api, retryDlqJob, hf, hd]
            · simp [advance, hct, api, retryDlqJob, hfind, hf, hd]
  | checked began original =>
      refine (h.flushes 2 (retrySubmission g.keyUuid g.id jobId original began)
        hsc.2.2 hsc.2.1 hses.1 hses.2 (by rw [hc]; exact Nat.lt_succ_self _)).congr ?_ ?_
      · simp only [advance, hc]
      · simp only [advance, hct]

theorem SameCall.submits (h : SameCall allowed c g S s t) {sub : Submission} {stage : Stage}
    (hc : s.calls c = .submitting sub stage) (hu' : t.uuid = s.uuid) :
    Advances allowed c g S (advance c g) s t := by
  have hses := h.session
  have hsc := h.scope
  have hct := h.calls
  rw [hc] at hses hsc hct
  cases stage with
  | flushed =>
      refine (h.sends hc hu').congr ?_ ?_
      · simp only [advance, hc, api, submit]
      · simp only [advance, hct, api, submit]
  | sent celeryTaskId =>
      refine (h.lands hc).congr ?_ ?_
      · simp only [advance, hc, api, submit]
        rfl
      · simp only [advance, hct, api, submit]
        rfl
  | committed =>
      have hfind := h.find hsc.2
      cases hf : s.db.find sub.job.id with
      | none =>
          refine (h.raises sub.op .unavailable
            (by rw [hc]; exact Nat.zero_lt_succ _)).congr ?_ ?_
          · simp only [advance, hc, api, submit, hf]
          · simp only [advance, hct, api, submit, hfind, hf]
      | some row =>
          refine (h.goes (y := .returned sub.op (response sub.op row)) hses trivial
            (by rw [hc]; exact Nat.zero_lt_succ _)).congr ?_ ?_
          · simp only [advance, hc, api, submit, hf, World.return]
          · simp only [advance, hct, api, submit, hfind, hf, World.return]

/-- Both worlds make the next external call of `c`, and it is the same one. -/
theorem SameCall.advances (h : SameCall allowed c g S s t)
    (hu : s.uuid = (s.calls c).generates g) (hu' : t.uuid = s.uuid) (hnow : t.clock = s.clock)
    (hleft : (s.calls c).left ≠ 0) : Advances allowed c g S (advance c g) s t := by
  cases hc : s.calls c with
  | createJob req pc => exact h.creates hc hu hu' hnow
  | cancelJob jobId pc => exact h.cancelling hc hnow
  | retryDlqJob jobId pc => exact h.retries hc hnow
  | submitting sub stage => exact h.submits hc hu'
  | idle => exact absurd (by rw [hc]; rfl) hleft
  | returned op result => exact absurd (by rw [hc]; rfl) hleft
  | raised op e => exact absurd (by rw [hc]; rfl) hleft

theorem Call.session_done {x : Call} {ins : List Job} {upd : List (Uuid × JobPatch)}
    (h : x.Session ins upd) (hleft : x.left = 0) : ins = [] ∧ upd = [] := by
  cases x with
  | createJob req pc => exact h
  | cancelJob jobId pc => cases pc <;> cases hleft
  | submitting sub stage => cases stage <;> cases hleft
  | _ => exact h

theorem Entered.left {op : Op} {x : Call} (h : Entered op x) : x.left ≤ 5 := by
  cases h <;> simp [Call.left]

/-- The request comes, to two worlds at rest. -/
theorem SameCall.enters (hs : s.Rest allowed) (ht : t.Rest allowed) {op : Op} (hown : .call c ∈ S)
    (hagree : ∀ i ∈ S, t.cells i = s.cells i) (hidle : s.calls c = .idle)
    (hsc : (enter allowed op).Scope g S s) :
    Moves World.cells World.totals
      (fun s' t' => SameCall allowed c g S s' t' ∧ (s'.calls c).left ≤ 5) S
      (fun w => JobService.call w c op) s t := by
  have hidle' : t.calls c = .idle := (hagree _ hown).trans hidle
  have h : SameCall allowed c g S s t :=
    { own := hown
      agree := hagree
      pending := ht.pending.trans hs.pending.symm
      locks := ht.locks.trans hs.locks.symm
      ownPending := by simp [hs.pending]
      ownLocks := by simp [hs.locks]
      session := by
        rw [hidle]
        simp only [Store.inserts, Store.updates, hs.pending, hs.locks]
        exact ⟨rfl, rfl⟩
      scope := by
        rw [hidle]
        trivial
      bounded := ⟨hs.bounded, ht.bounded⟩
      allowed := ⟨hs.allowed, ht.allowed⟩ }
  have hentered := enter_cases allowed op
  have hses : (enter allowed op).Session (s.db.inserts c) (s.db.updates c) := by
    simp only [Store.inserts, Store.updates, hs.pending, hs.locks]
    exact hentered.session
  refine ((h.becomes hses hsc).mono ?_).congr ?_ ?_
  · rintro s' t' ⟨h', hy⟩
    exact ⟨h', hy ▸ hentered.left⟩
  · simp only [JobService.call, hidle, hs.allowed]
  · simp only [JobService.call, hidle', ht.allowed]

/-- An API operation is local to the cells it concerns, and it ends. -/
theorem moves_call (J : JsonCodec) (hs : s.Rest allowed) (ht : t.Rest allowed) {op : Op}
    (hown : .call c ∈ S) (hagree : ∀ i ∈ S, t.cells i = s.cells i) (hidle : s.calls c = .idle)
    (hsc : (enter allowed op).Scope g S s) (htimes : 5 ≤ g.times.length) :
    Moves World.cells World.totals (fun _ t' => t'.Rest allowed) S
      (execute J (.call c op g)) s t := by
  refine (SameCall.enters hs ht hown hagree hidle hsc).bind ?_
  rintro s' t' ⟨h, hle⟩
  refine (moves_play (fun w => (w.calls c).left) ?_ ?_ ?_ h
    (Nat.le_trans hle htimes)).mono ?_
  · intro s t h
    rw [h.calls]
  · intro s t _ hrank
    exact decide_eq_true hrank
  · intro now s t h hover
    refine (h.given now now ((s.calls c).generates g) ((t.calls c).generates g)).advances rfl ?_ rfl
      (of_decide_eq_false hover)
    exact congrArg (Call.generates g) h.calls
  · rintro s t ⟨h, hover⟩
    obtain ⟨hins, hupd⟩ := Call.session_done h.session (of_decide_eq_true hover)
    exact ⟨h.pending.trans (h.pending_nil hins), h.locks.trans (h.locks_nil hupd), h.bounded.2,
      h.allowed.2⟩

end Calls

/-! ## Hooks -/

/-- What a piece of the delivery in slot `s` does to the cells, at the time `now`. -/
def BaseTask.Effects.transform (J : JsonCodec) (s : SlotId) (m : Message) (worker : Worker)
    (now : Time) (eff : Effects) (v : (i : Cell) → i.Value) : (i : Cell) → i.Value :=
  let v := Function.update v (.delivery s) (eff.next.map fun phase => (m, worker, phase))
  let v := Function.update v (.row m.jobId) ((v (.row m.jobId)).map (eff.patched now))
  Function.update v (.cached (cacheKey m.idempotencyKey))
    (match eff.store with
      | some u => some (J.dumps u)
      | none => v (.cached (cacheKey m.idempotencyKey)))

/-- What it adds to the totals; `dlqId` is the id of its `dlq.receive` task. -/
def BaseTask.Effects.amount (m : Message) (dlqId : Uuid) (eff : Effects) :
    Multiset Message × Multiset Message × Multiset DlqMessage × (String → JobMetric → Nat) × Int :=
  ((eff.seen.filterMap Obs.sent? : List Message),
    (eff.queue.toList : List Message),
    match eff.dlq with
    | some errorDetail =>
        {{ id := dlqId, originalJobId := m.jobId, originalTaskName := m.taskName,
           payload := m.payload.dictOrEmpty, errorDetail := errorDetail }}
    | none => 0,
    match eff.counts with
    | some status => Pi.single m.taskName (Pi.single status 1)
    | none => 0,
    if eff.dlqSizeInc then 1 else 0)

section Hooks
variable {J : JsonCodec} {allowed : List String} {s₀ : SlotId} {m : Message} {worker : Worker}
  {h : Hook} {g : Given} {S : Set Cell} {s t : World}

theorem within_transform (hs : .delivery s₀ ∈ S) (hr : .row m.jobId ∈ S)
    (hc : .cached (cacheKey m.idempotencyKey) ∈ S) (now : Time) (eff : Effects) :
    Within S (eff.transform J s₀ m worker now) := by
  have hdelivery : Within S fun v : (i : Cell) → i.Value => Function.update v (.delivery s₀)
      (eff.next.map fun phase => (m, worker, phase)) :=
    @within_update Cell Cell.Value S _ _ hs fun _ => eff.next.map fun phase => (m, worker, phase)
  have hrow : Within S fun v : (i : Cell) → i.Value => Function.update v (.row m.jobId)
      ((v (.row m.jobId)).map (eff.patched now)) :=
    @within_update Cell Cell.Value S _ _ hr (Option.map (eff.patched now))
  have hcached := @within_update Cell Cell.Value S _ _ hc fun o =>
    match eff.store with
    | some u => some (J.dumps u)
    | none => o
  exact hcached.comp (hrow.comp hdelivery)

theorem cells_apply {w : World} {db : Db} {eff : Effects} (hb : Bounded w)
    (hdb : w.write m.jobId eff.write = some db) :
    (w.apply J s₀ m worker eff db).cells = eff.transform J s₀ m worker w.clock w.cells := by
  funext i
  cases i with
  | call c =>
      simp only [Effects.transform]
      rw [Function.update_of_ne (by simp), Function.update_of_ne (by simp),
        Function.update_of_ne (by simp)]
      rfl
  | delivery s =>
      simp only [Effects.transform]
      rw [Function.update_of_ne (by simp), Function.update_of_ne (by simp)]
      by_cases hs : s = s₀
      · subst hs
        rw [Function.update_self]
        cases hn : eff.next with
        | none => exact congrArg Slot.delivery? (slots_apply_none hn)
        | some phase => exact congrArg Slot.delivery? (slots_apply_some hn)
      · rw [Function.update_of_ne (by simpa using hs)]
        cases hq : eff.queue with
        | none => exact congrArg Slot.delivery? (slots_apply_ne hs hq)
        | some m' =>
            refine (congrArg Slot.delivery? (slots_apply_queue hs hq)).trans ?_
            by_cases hnew : s = w.nextSlot
            · subst hnew
              rw [Function.update_self]
              exact (congrArg Slot.delivery? (hb _ (Nat.le_refl _))).symm
            · rw [Function.update_of_ne hnew]
              rfl
  | row j =>
      simp only [Effects.transform]
      rw [Function.update_of_ne (by simp)]
      by_cases hj : j = m.jobId
      · subst hj
        rw [Function.update_self]
        exact find_patched_map hdb
      · rw [Function.update_of_ne (by simpa using hj), Function.update_of_ne (by simp)]
        rcases find_write hdb j with ⟨hf, -⟩ | ⟨wr, -, -, he, -⟩
        · exact hf
        · exact absurd he.symm hj
  | key k =>
      simp only [Effects.transform]
      rw [Function.update_of_ne (by simp), Function.update_of_ne (by simp),
        Function.update_of_ne (by simp)]
      rcases write_cases hdb with ⟨rfl, -⟩ | ⟨wr, -, -, -, rfl⟩
      · rfl
      · exact owner_mapped rfl
  | cached k =>
      simp only [Effects.transform]
      by_cases hk : k = cacheKey m.idempotencyKey
      · subst hk
        rw [Function.update_self]
        cases hst : eff.store with
        | none =>
            rw [Function.update_of_ne (by simp), Function.update_of_ne (by simp)]
            exact congrFun (cache_apply_none hst) _
        | some u => exact (congrFun (cache_apply_some hst) _).trans (Function.update_self ..)
      · rw [Function.update_of_ne (by simpa using hk), Function.update_of_ne (by simp),
          Function.update_of_ne (by simp)]
        cases hst : eff.store with
        | none => exact congrFun (cache_apply_none hst) _
        | some u => exact (congrFun (cache_apply_some hst) _).trans (Function.update_of_ne hk ..)

theorem queue_apply {w : World} (db : Db) {eff : Effects} {phase phase' : Phase} (hb : Bounded w)
    (hs : w.slots s₀ = .delivered m worker phase) (hn : eff.next = some phase') :
    (w.apply J s₀ m worker eff db).queue = w.queue + (eff.queue.toList : List Message) := by
  have hself : ((w.apply J s₀ m worker eff db).slots s₀).message? = (w.slots s₀).message? := by
    rw [slots_apply_some hn, hs]
    rfl
  cases hq : eff.queue with
  | none =>
      refine Eq.trans (queue_congr (by simp [World.apply, hq]) ?_) (add_zero _).symm
      intro s
      by_cases hne : s = s₀
      · rw [hne, hself]
      · rw [slots_apply_ne hne hq]
  | some m' =>
      have hnew : w.nextSlot ≠ s₀ := fun he => Nat.ne_of_gt (hb.lt (by simp [hs])) he
      refine queue_grows (by simp [World.apply, hq]) ?_ ?_
      · intro s hs'
        by_cases hne : s = s₀
        · rw [hne, hself]
        · rw [slots_apply_queue hne hq, Function.update_of_ne hs']
      · rw [slots_apply_queue hnew hq, Function.update_self]
        rfl

theorem totals_apply {w : World} (db : Db) {eff : Effects} {phase phase' : Phase} (hb : Bounded w)
    (hs : w.slots s₀ = .delivered m worker phase) (hn : eff.next = some phase') :
    (w.apply J s₀ m worker eff db).totals = w.totals + eff.amount m w.uuid := by
  refine Prod.ext ?_ (Prod.ext (queue_apply db hb hs hn) (Prod.ext ?_ (Prod.ext ?_ ?_)))
  · show (w.apply J s₀ m worker eff db).messages = w.messages + _
    cases hw : eff.write <;>
      simp [World.messages, World.apply, Effects.amount, hw, List.filterMap_cons, Obs.sent?,
        add_comm]
  · show ((w.apply J s₀ m worker eff db).dlq : Multiset DlqMessage) =
      (w.dlq : Multiset DlqMessage) + _
    cases hd : eff.dlq with
    | none => simp [World.apply, Effects.amount, hd]
    | some errorDetail =>
        simp only [World.apply, Effects.amount, hd, ← Multiset.coe_add]
        rfl
  · show (w.apply J s₀ m worker eff db).jobsTotal = w.jobsTotal + _
    cases hc : eff.counts with
    | none => simp [World.apply, Effects.amount, hc]
    | some status =>
        simp only [World.apply, Effects.amount, hc]
        exact jobsTotal_count ..
  · show (w.apply J s₀ m worker eff db).dlqSize = w.dlqSize + _
    cases hi : eff.dlqSizeInc <;> simp [World.apply, Effects.amount, hi]

/-- The hook goes on: its next piece is there, and less is left afterwards. -/
theorem Hook.next (J : JsonCodec) (worker : Worker) (hp : h.Possible m) {phase : Phase}
    (hleft : h.left phase ≠ 0) (cached : Option String) (now : Time) : ∃ eff phase',
      BaseTask.step J m worker cached now phase (h.input phase) = some eff ∧
        eff.next = some phase' ∧ h.left phase' < h.left phase := by
  cases h with
  | beforeStart =>
      cases phase with
      | received => exact ⟨_, _, rfl, rfl, Nat.zero_lt_one⟩
      | _ => exact absurd rfl hleft
  | run o =>
      cases phase with
      | started =>
          have hpiece : Piece J m worker cached now .started .returns
              (BaseTask.run J m cached) := run_cases
          suffices ∃ phase', (BaseTask.run J m cached).next = some phase' ∧
              (Hook.run o).left phase' < 7 by
            obtain ⟨phase', hn, hlt⟩ := this
            exact ⟨_, phase', rfl, hn, hlt⟩
          generalize BaseTask.run J m cached = eff at hpiece
          cases hpiece with
          | miss _ => exact ⟨_, rfl, Nat.lt_succ_self _⟩
          | hit v _ => exact ⟨_, rfl, Nat.zero_lt_succ _⟩
          | undecodable _ =>
              refine ⟨_, rfl, ?_⟩
              split
              · exact Nat.one_lt_succ_succ _
              · exact Nat.zero_lt_succ _
      | missed => exact ⟨_, _, rfl, rfl, Nat.lt_succ_self _⟩
      | executing =>
          cases o with
          | returns v => exact ⟨_, _, rfl, rfl, Nat.zero_lt_succ _⟩
          | validationError exc => exact ⟨_, _, rfl, rfl, Nat.lt_succ_self _⟩
          | exception exc =>
              by_cases hmax : maxRetries ≤ m.retries
              · exact ⟨_, _, if_pos hmax, rfl, Nat.zero_lt_succ _⟩
              · exact ⟨_, _, if_neg hmax, rfl, Nat.one_lt_succ_succ _⟩
          | retry delay =>
              exact ⟨_, _, if_neg (Nat.not_le.mpr (hp delay rfl)), rfl, Nat.one_lt_succ_succ _⟩
      | retrying delay again => exact ⟨_, _, rfl, rfl, Nat.zero_lt_one⟩
      | failing exc again stage =>
          cases again with
          | false => cases stage <;> exact absurd rfl hleft
          | true => cases stage <;> exact ⟨_, _, rfl, rfl, Nat.lt_succ_self _⟩
      | _ => exact absurd rfl hleft
  | onSuccess =>
      cases phase with
      | returned v => exact ⟨_, _, rfl, rfl, Nat.lt_succ_self _⟩
      | completed v => exact ⟨_, _, rfl, rfl, Nat.lt_succ_self _⟩
      | counted v => exact ⟨_, _, rfl, rfl, Nat.zero_lt_one⟩
      | _ => exact absurd rfl hleft
  | onFailure =>
      cases phase with
      | failing exc again stage =>
          cases again with
          | false => cases stage <;> exact ⟨_, _, rfl, rfl, Nat.lt_succ_self _⟩
          | true => cases stage <;> exact absurd rfl hleft
      | _ => exact absurd rfl hleft
  | onRetry =>
      cases phase with
      | retried => exact ⟨_, _, rfl, rfl, Nat.zero_lt_one⟩
      | _ => exact absurd rfl hleft

/-- At rest an UPDATE waits for nobody. -/
theorem write_at_rest {w : World} (hl : w.db.locks = []) (j : Uuid) (wr? : Option Write) :
    ∃ db, w.write j wr? = some db ∧ db.pending = w.db.pending ∧ db.locks = w.db.locks := by
  cases wr? with
  | none => exact ⟨_, rfl, rfl, rfl⟩
  | some wr =>
      cases hok : wr.ok with
      | false => exact ⟨w.db, by simp [World.write, hok], rfl, rfl⟩
      | true =>
          refine ⟨w.db.patch j (statusPatch w.clock wr.status wr.fields), ?_, rfl, rfl⟩
          simp [World.write, hok, Store.update, hl]

/-- The delivery in slot `s₀` is in the same phase in `s` and in `t`, no transaction is open,
and the two agree on what the hook can touch. -/
structure SameDelivery (allowed : List String) (s₀ : SlotId) (m : Message) (worker : Worker)
    (h : Hook) (S : Set Cell) (s t : World) : Prop where
  own : .delivery s₀ ∈ S
  row : .row m.jobId ∈ S
  cached : .cached (cacheKey m.idempotencyKey) ∈ S
  agree : ∀ i ∈ S, t.cells i = s.cells i
  rest : s.Rest allowed ∧ t.Rest allowed
  phase : ∃ phase, (s.slots s₀).delivery? = some (m, worker, phase)
  possible : h.Possible m

theorem slot_of_delivery? {x : Slot} {phase : Phase} (hx : x.delivery? = some (m, worker, phase)) :
    x = .delivered m worker phase := by
  cases x with
  | delivered m' worker' phase' =>
      simp only [Slot.delivery?, Option.some.injEq, Prod.mk.injEq] at hx
      obtain ⟨rfl, rfl, rfl⟩ := hx
      rfl
  | _ => cases hx

/-- The piece of a hook, in one world. -/
theorem work_at_rest {w : World} (hw : w.Rest allowed) {phase phase' : Phase} {i : Input}
    {eff : Effects} (hslot : (w.slots s₀).delivery? = some (m, worker, phase))
    (hstep : BaseTask.step J m worker (w.cells (.cached (cacheKey m.idempotencyKey))) w.clock phase
      i = some eff) (hnext : eff.next = some phase') :
    ∃ w', w.work J s₀ i = some w' ∧ w'.Rest allowed ∧
      (w'.slots s₀).delivery? = some (m, worker, phase') ∧
      w'.cells = eff.transform J s₀ m worker w.clock w.cells ∧
      w'.totals = w.totals + eff.amount m w.uuid := by
  obtain ⟨db, hdb, hpend, hlocks⟩ := write_at_rest hw.locks m.jobId eff.write
  have hslot' := slot_of_delivery? hslot
  refine ⟨w.apply J s₀ m worker eff db, ?_, ⟨hpend.trans hw.pending, hlocks.trans hw.locks,
    hw.bounded.apply hslot' eff db, hw.allowed⟩, ?_, cells_apply hw.bounded hdb,
    totals_apply db hw.bounded hslot' hnext⟩
  · simp only [World.work, hslot']
    exact Option.bind_eq_some_iff.mpr ⟨eff, hstep, Option.map_eq_some_iff.mpr ⟨db, hdb, rfl⟩⟩
  · rw [slots_apply_some hnext]
    rfl

theorem SameDelivery.steps (hd : SameDelivery allowed s₀ m worker h S s t) (now : Time)
    (hleft : (s.slots s₀).left h ≠ 0) :
    Moves World.cells World.totals (fun s' t' => SameDelivery allowed s₀ m worker h S s' t' ∧
      (s'.slots s₀).left h < (s.slots s₀).left h) S (hookStep J s₀ h g now) s t := by
  obtain ⟨phase, hs⟩ := hd.phase
  have ht : (t.slots s₀).delivery? = some (m, worker, phase) := (hd.agree _ hd.own).trans hs
  have hcached := hd.agree _ hd.cached
  have hleft' : (s.slots s₀).left h = h.left phase := by simp only [Slot.left, hs]
  rw [hleft'] at hleft ⊢
  obtain ⟨eff, phase', hstep, hnext, hlt⟩ := Hook.next J worker hd.possible hleft
    (s.cells (.cached (cacheKey m.idempotencyKey))) now
  obtain ⟨s', hs', hrest, hphase, hcells, htotals⟩ :=
    work_at_rest (w := s.given now g.dlqId) (i := h.input phase) ⟨hd.rest.1.pending,
      hd.rest.1.locks, hd.rest.1.bounded, hd.rest.1.allowed⟩ hs hstep hnext
  obtain ⟨t', ht', hrest', hphase', hcells', htotals'⟩ :=
    work_at_rest (w := t.given now g.dlqId) (i := h.input phase) ⟨hd.rest.2.pending,
      hd.rest.2.locks, hd.rest.2.bounded, hd.rest.2.allowed⟩ ht (hcached ▸ hstep) hnext
  have ha : Alike World.cells World.totals S s s' t t' :=
    ⟨_, _, within_transform hd.own hd.row hd.cached now eff, hcells, hcells', htotals, htotals'⟩
  refine ⟨s', t', ?_, ?_, ⟨⟨hd.own, hd.row, hd.cached, ha.agree hd.agree, ⟨hrest, hrest'⟩,
    ⟨phase', hphase⟩, hd.possible⟩, ?_⟩, ha⟩
  · simp only [hookStep, hs]
    exact hs'
  · simp only [hookStep, ht]
    exact ht'
  · simp only [Slot.left, hphase]
    exact hlt

/-- A hook is local to the cells it concerns, and it ends. -/
theorem moves_hook (hd : SameDelivery allowed s₀ m worker h S s t) {phase : Phase}
    (hs : (s.slots s₀).delivery? = some (m, worker, phase)) (hbegins : h.begins phase)
    (htimes : 7 ≤ g.times.length) :
    Moves World.cells World.totals (fun _ t' => t'.Rest allowed) S
      (execute J (.hook s₀ h g)) s t := by
  have ht : (t.slots s₀).delivery? = some (m, worker, phase) := (hd.agree _ hd.own).trans hs
  have hle : (s.slots s₀).left h ≤ 7 := by
    simp only [Slot.left, hs]
    unfold Hook.left
    split <;> decide
  have hplay : Moves World.cells World.totals (fun _ t' => t'.Rest allowed) S
      (play (fun w => (w.slots s₀).left h = 0) (hookStep J s₀ h g) g.times) s t := by
    refine (moves_play (fun w => (w.slots s₀).left h) ?_ ?_ ?_ hd
      (Nat.le_trans hle htimes)).mono ?_
    · intro s t hd
      have heq : (t.slots s₀).delivery? = (s.slots s₀).delivery? := hd.agree _ hd.own
      have hleft : (t.slots s₀).left h = (s.slots s₀).left h := by simp only [Slot.left, heq]
      simp only [hleft]
    · intro s t _ hrank
      exact decide_eq_true hrank
    · intro now s t hd hover
      exact hd.steps now (of_decide_eq_false hover)
    · rintro s t ⟨hd, -⟩
      exact hd.rest.2
  refine hplay.congr ?_ ?_
  · simp only [execute, hs, hbegins, if_true]
  · simp only [execute, ht, hbegins, if_true]

end Hooks

end Aegis
