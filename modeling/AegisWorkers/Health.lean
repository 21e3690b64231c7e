/-
# `AegisWorkers.Health` — the two checks of `GET /health`

`health_check` gathers two checks that run concurrently, each a few external calls under one
`asyncio.timeout`: the deadline can strike while a call is awaited.  Whatever a check raises
becomes part of the answer, and neither check waits for the other or is cut short by it.

Times are microseconds of `time.monotonic()`; the latency in the answer is the difference,
before it is turned into milliseconds and rounded.
-/
import AegisWorkers.Parallel
import AegisWorkers.Potential

namespace Aegis

namespace Health

open Machine

/-- What an external call can raise. -/
inductive Raised where
  /-- `TimeoutError` -/
  | timeoutError
  /-- any other `Exception`, by its text -/
  | exception (text : String)
  /-- a `BaseException` that is no `Exception`, and that the event loop hands to the task -/
  | baseException (text : String)
  deriving DecidableEq

inductive HealthStatus where
  | ok | error | timeout
  deriving DecidableEq

structure DependencyHealth where
  status : HealthStatus
  latency : Option Nat
  error : Option String
  deriving DecidableEq

/-- How an awaited call ends, or that the deadline strikes first. -/
inductive CheckEvent where
  /-- the call returns, and `time.monotonic()` says `now` -/
  | returns (now : Nat)
  | raises (r : Raised)
  | expires

/-- What a check comes to. -/
inductive Result where
  | returned (health : DependencyHealth)
  | raised (text : String)
  deriving DecidableEq

/-- The `except` clauses of both checks. -/
def caught : Raised → Result
  | .timeoutError => .returned ⟨.timeout, none, none⟩
  | .exception text => .returned ⟨.error, none, some text⟩
  | .baseException text => .raised text

def healthy (t0 now : Nat) : Result := .returned ⟨.ok, some (now - t0), none⟩

/-- `_check_redis`: `from_url`, `ping`, `aclose`. -/
inductive RedisCheck where
  | called
  | created (t0 : Nat)
  | pinged (t0 : Nat)
  | done (r : Result)
  deriving DecidableEq

def checkRedis : Machine RedisCheck CheckEvent where
  step
    | .called, .returns now => some (.created now)
    | .called, .raises r => some (.done (caught r))
    | .created t0, .returns _ => some (.pinged t0)
    | .created _, .raises r => some (.done (caught r))
    | .created _, .expires => some (.done (caught .timeoutError))
    | .pinged t0, .returns now => some (.done (healthy t0 now))
    | .pinged _, .raises r => some (.done (caught r))
    | .pinged _, .expires => some (.done (caught .timeoutError))
    | _, _ => none

/-- `_check_postgres`: `get_session_factory`, `execute`, and `close` as the session is left,
whether `execute` returned, raised or was cancelled by the deadline (`pending`). -/
inductive PostgresCheck where
  | called
  | opened (t0 : Nat)
  | closing (t0 : Nat) (pending : Option Raised) (expired : Bool)
  | done (r : Result)
  deriving DecidableEq

def checkPostgres : Machine PostgresCheck CheckEvent where
  step
    | .called, .returns now => some (.opened now)
    | .called, .raises r => some (.done (caught r))
    | .opened t0, .returns _ => some (.closing t0 none false)
    | .opened t0, .raises r => some (.closing t0 (some r) false)
    | .opened t0, .expires => some (.closing t0 (some .timeoutError) true)
    | .closing t0 none _, .returns now => some (.done (healthy t0 now))
    | .closing _ (some r) _, .returns _ => some (.done (caught r))
    | .closing _ _ _, .raises r => some (.done (caught r))
    | .closing _ _ false, .expires => some (.done (caught .timeoutError))
    | _, _ => none

/-- `asyncio.gather(_check_redis(), _check_postgres(), return_exceptions=True)`. -/
def gather : Machine (RedisCheck × PostgresCheck) (CheckEvent ⊕ CheckEvent) :=
  checkRedis.par checkPostgres

/-- `_exc_to_dep_health`. -/
def excToDepHealth : Result → DependencyHealth
  | .raised text => ⟨.error, none, some text⟩
  | .returned health => health

inductive Overall where
  | ok | unavailable
  deriving DecidableEq

structure HealthResponse where
  redis : DependencyHealth
  postgres : DependencyHealth
  overall : Overall
  deriving DecidableEq

/-- `health_check` once both results are there: the status code, and the body or its
`detail`. -/
def healthCheck (redisResult postgresResult : Result) : Nat × HealthResponse :=
  let redisHealth := excToDepHealth redisResult
  let postgresHealth := excToDepHealth postgresResult
  let overall : Overall :=
    if redisHealth.status = .ok ∧ postgresHealth.status = .ok then .ok else .unavailable
  let response : HealthResponse := ⟨redisHealth, postgresHealth, overall⟩
  if overall ≠ .ok then (503, response) else (200, response)

def CheckEvent.Returned (e : CheckEvent) : Prop := ∃ now, e = .returns now

/-! ## One check -/

theorem status_caught (r : Raised) : (excToDepHealth (caught r)).status ≠ .ok := by
  cases r <;> simp [caught, excToDepHealth]

/-- What a check reports is ok if and only if all its calls have returned. -/
def Reports (r : Result) (es : List CheckEvent) : Prop :=
  (excToDepHealth r).status = .ok ↔ ∀ e ∈ es, e.Returned

theorem reports_healthy (t0 now n : Nat) : Reports (healthy t0 now) [.returns n] := by
  refine iff_of_true rfl ?_
  intro e he
  exact ⟨n, List.mem_singleton.mp he⟩

theorem Reports.returned {r : Result} {es : List CheckEvent} (h : Reports r es) (now : Nat) :
    Reports r (.returns now :: es) := by
  unfold Reports
  rw [List.forall_mem_cons]
  exact h.trans ⟨fun hall => ⟨⟨now, rfl⟩, hall⟩, And.right⟩

/-- A check that has caught something is not ok, and not all its calls have returned. -/
theorem reports_caught (r : Raised) (es : List CheckEvent) {e : CheckEvent} (he : ¬ e.Returned) :
    Reports (caught r) (e :: es) := by
  refine iff_of_false (status_caught r) ?_
  intro hall
  exact he (hall _ List.mem_cons_self)

theorem not_returned_raises (r : Raised) : ¬ (CheckEvent.raises r).Returned := by
  rintro ⟨now, hnow⟩
  cases hnow

theorem not_returned_expires : ¬ CheckEvent.expires.Returned := by
  rintro ⟨now, hnow⟩
  cases hnow

section Redis
variable {es : List CheckEvent} {r : Result} {t0 : Nat}

theorem redis_done {r' : Result} (h : checkRedis.exec (.done r) es = some (.done r')) :
    es = [] ∧ r = r' := by
  cases es with
  | nil => exact ⟨rfl, RedisCheck.done.inj (Option.some.inj h)⟩
  | cons e es => cases h

theorem redis_pinged (h : checkRedis.exec (.pinged t0) es = some (.done r)) : Reports r es := by
  cases es with
  | nil => cases h
  | cons e es =>
      cases e with
      | returns now =>
          obtain ⟨rfl, rfl⟩ := redis_done h
          exact reports_healthy t0 now now
      | raises raised =>
          obtain ⟨rfl, rfl⟩ := redis_done h
          exact reports_caught _ _ (not_returned_raises _)
      | expires =>
          obtain ⟨rfl, rfl⟩ := redis_done h
          exact reports_caught _ _ not_returned_expires

theorem redis_created (h : checkRedis.exec (.created t0) es = some (.done r)) : Reports r es := by
  cases es with
  | nil => cases h
  | cons e es =>
      cases e with
      | returns now => exact (redis_pinged h).returned now
      | raises raised =>
          obtain ⟨rfl, rfl⟩ := redis_done h
          exact reports_caught _ _ (not_returned_raises _)
      | expires =>
          obtain ⟨rfl, rfl⟩ := redis_done h
          exact reports_caught _ _ not_returned_expires

theorem redis_reports (h : checkRedis.exec .called es = some (.done r)) : Reports r es := by
  cases es with
  | nil => cases h
  | cons e es =>
      cases e with
      | returns now => exact (redis_created h).returned now
      | raises raised =>
          obtain ⟨rfl, rfl⟩ := redis_done h
          exact reports_caught _ _ (not_returned_raises _)
      | expires => cases h

/-- The calls still to be made. -/
def RedisCheck.left : RedisCheck → Nat
  | .called => 3
  | .created _ => 2
  | .pinged _ => 1
  | .done _ => 0

theorem redis_left {s s' : RedisCheck} {e : CheckEvent} (h : checkRedis.step s e = some s') :
    s'.left < s.left := by
  cases s <;> cases e <;> cases h <;> simp [RedisCheck.left]

/-- A check whose calls return from now on ends. -/
theorem redis_ends (s : RedisCheck) : ∃ fs r,
    checkRedis.exec s fs = some (.done r) := by
  cases s with
  | called => exact ⟨[.returns 0, .returns 0, .returns 0], _, rfl⟩
  | created t0 => exact ⟨[.returns 0, .returns 0], _, rfl⟩
  | pinged t0 => exact ⟨[.returns 0], _, rfl⟩
  | done r => exact ⟨[], r, rfl⟩

end Redis

section Postgres
variable {es : List CheckEvent} {r : Result} {t0 : Nat} {pending : Option Raised} {expired : Bool}

theorem postgres_done {r' : Result} (h : checkPostgres.exec (.done r) es = some (.done r')) :
    es = [] ∧ r = r' := by
  cases es with
  | nil => exact ⟨rfl, PostgresCheck.done.inj (Option.some.inj h)⟩
  | cons e es => cases h

/-- While the session is closed for an exception, nothing makes the check ok again. -/
theorem postgres_pending {raised : Raised}
    (h : checkPostgres.exec (.closing t0 (some raised) expired) es = some (.done r)) :
    ∃ raised', r = caught raised' := by
  cases es with
  | nil => cases h
  | cons e es =>
      cases e with
      | returns now =>
          obtain ⟨-, rfl⟩ := postgres_done h
          exact ⟨raised, rfl⟩
      | raises raised' =>
          obtain ⟨-, rfl⟩ := postgres_done h
          exact ⟨raised', rfl⟩
      | expires =>
          cases expired with
          | true => cases h
          | false =>
              obtain ⟨-, rfl⟩ := postgres_done h
              exact ⟨.timeoutError, rfl⟩

theorem postgres_closing (h : checkPostgres.exec (.closing t0 none expired) es = some (.done r)) :
    Reports r es := by
  cases es with
  | nil => cases h
  | cons e es =>
      cases e with
      | returns now =>
          obtain ⟨rfl, rfl⟩ := postgres_done h
          exact reports_healthy t0 now now
      | raises raised =>
          obtain ⟨rfl, rfl⟩ := postgres_done h
          exact reports_caught _ _ (not_returned_raises _)
      | expires =>
          cases expired with
          | true => cases h
          | false =>
              obtain ⟨rfl, rfl⟩ := postgres_done h
              exact reports_caught _ _ not_returned_expires

theorem postgres_opened (h : checkPostgres.exec (.opened t0) es = some (.done r)) :
    Reports r es := by
  cases es with
  | nil => cases h
  | cons e es =>
      cases e with
      | returns now => exact (postgres_closing h).returned now
      | raises raised =>
          obtain ⟨raised', rfl⟩ := postgres_pending h
          exact reports_caught _ _ (not_returned_raises _)
      | expires =>
          obtain ⟨raised', rfl⟩ := postgres_pending h
          exact reports_caught _ _ not_returned_expires

theorem postgres_reports (h : checkPostgres.exec .called es = some (.done r)) : Reports r es := by
  cases es with
  | nil => cases h
  | cons e es =>
      cases e with
      | returns now => exact (postgres_opened h).returned now
      | raises raised =>
          obtain ⟨rfl, rfl⟩ := postgres_done h
          exact reports_caught _ _ (not_returned_raises _)
      | expires => cases h

def PostgresCheck.left : PostgresCheck → Nat
  | .called => 3
  | .opened _ => 2
  | .closing _ _ _ => 1
  | .done _ => 0

theorem postgres_left {s s' : PostgresCheck} {e : CheckEvent}
    (h : checkPostgres.step s e = some s') : s'.left < s.left := by
  cases s with
  | closing t0 pending expired =>
      cases e <;> cases pending <;> cases expired <;> cases h <;> simp [PostgresCheck.left]
  | _ => cases e <;> cases h <;> simp [PostgresCheck.left]

theorem postgres_ends (s : PostgresCheck) : ∃ fs r,
    checkPostgres.exec s fs = some (.done r) := by
  cases s with
  | called => exact ⟨[.returns 0, .returns 0, .returns 0], _, rfl⟩
  | opened t0 => exact ⟨[.returns 0, .returns 0], _, rfl⟩
  | closing t0 pending expired =>
      cases pending with
      | none => exact ⟨[.returns 0], _, rfl⟩
      | some raised => exact ⟨[.returns 0], _, rfl⟩
  | done r => exact ⟨[], r, rfl⟩

end Postgres

/-! ## Both checks -/

theorem healthCheck_cases (a b : Result) :
    (healthCheck a b).2.redis = excToDepHealth a ∧
    (healthCheck a b).2.postgres = excToDepHealth b ∧
    ((healthCheck a b).1 = 200 ∨ (healthCheck a b).1 = 503) ∧
    ((healthCheck a b).1 = 200 ↔
      (excToDepHealth a).status = .ok ∧ (excToDepHealth b).status = .ok) := by
  by_cases h : (excToDepHealth a).status = .ok ∧ (excToDepHealth b).status = .ok
  · simp [healthCheck, h]
  · simp [healthCheck, h]

theorem gather_left {s s' : RedisCheck × PostgresCheck} {e : CheckEvent ⊕ CheckEvent}
    (h : gather.step s e = some s') : s'.1.left + s'.2.left < s.1.left + s.2.left := by
  cases e with
  | inl e =>
      obtain ⟨s₁, hs₁, rfl⟩ := Option.map_eq_some_iff.mp h
      exact Nat.add_lt_add_right (redis_left hs₁) _
  | inr e =>
      obtain ⟨s₂, hs₂, rfl⟩ := Option.map_eq_some_iff.mp h
      exact Nat.add_lt_add_left (postgres_left hs₂) _

/-- Whatever has happened so far, both checks come to their ends. -/
theorem gather_ends (s : RedisCheck × PostgresCheck) : ∃ fs a b,
    gather.exec s fs = some (.done a, .done b) := by
  obtain ⟨fs₁, a, hfs₁⟩ := redis_ends s.1
  obtain ⟨fs₂, b, hfs₂⟩ := postgres_ends s.2
  refine ⟨fs₁.map .inl ++ fs₂.map .inr, a, b, exec_par.mpr ?_⟩
  rw [lefts_sequence, rights_sequence]
  exact ⟨hfs₁, hfs₂⟩

end Health

open Health Machine in
/-- `GET /health` in any interleaving of its two checks.  Both are always made to their end,
within six external calls and the deadline, and each comes to what it comes to alone, so to
check one after the other would give the same answer.  The code is 200 if every call of both
has returned in time and 503 otherwise, and the part of each dependency is ok if and only if
its own calls have. -/
theorem health_checked {es : List (CheckEvent ⊕ CheckEvent)} {s : RedisCheck × PostgresCheck}
    (h : gather.exec (.called, .called) es = some s) :
    (∃ fs a b, gather.exec (.called, .called) (es ++ fs) = some (.done a, .done b) ∧
      (es ++ fs).length ≤ 6) ∧
    ∀ a b, s = (.done a, .done b) →
      gather.exec (.called, .called) ((lefts es).map .inl ++ (rights es).map .inr) = some s ∧
      checkRedis.exec .called (lefts es) = some (.done a) ∧
      checkPostgres.exec .called (rights es) = some (.done b) ∧
      ((healthCheck a b).1 = 200 ↔ ∀ e ∈ es, Sum.elim CheckEvent.Returned CheckEvent.Returned e) ∧
      ((healthCheck a b).1 = 200 ∨ (healthCheck a b).1 = 503) ∧
      ((healthCheck a b).2.redis.status = .ok ↔ ∀ e ∈ lefts es, e.Returned) ∧
      ((healthCheck a b).2.postgres.status = .ok ↔ ∀ e ∈ rights es, e.Returned) := by
  refine ⟨?_, ?_⟩
  · obtain ⟨fs, a, b, hfs⟩ := gather_ends s
    have hall : gather.exec (.called, .called) (es ++ fs) = some (.done a, .done b) := by
      rw [exec_append, h]
      exact hfs
    have hlength := length_le_of_exec (fun s => s.1.left + s.2.left) gather_left hall
    refine ⟨fs, a, b, hall, ?_⟩
    exact Nat.le_trans (Nat.le_add_left _ _) hlength
  · rintro a b rfl
    obtain ⟨hredis, hpostgres⟩ := exec_par.mp h
    have hr := redis_reports hredis
    have hp := postgres_reports hpostgres
    obtain ⟨hpart, hpart', hcode, hok⟩ := healthCheck_cases a b
    refine ⟨exec_sequence h, hredis, hpostgres, ?_, hcode, ?_, ?_⟩
    · exact hok.trans ((and_congr hr hp).trans forall_events.symm)
    · rw [hpart]
      exact hr
    · rw [hpart']
      exact hp

open Health Machine in
/-- The database does not answer in time, Redis does. -/
theorem health_checked_ping :
    let es : List (CheckEvent ⊕ CheckEvent) :=
      [.inr (.returns 0), .inl (.returns 1), .inr .expires, .inl (.returns 5),
        .inr (.returns 7), .inl (.returns 9)]
    let redis := healthy 1 9
    let postgres := caught .timeoutError
    gather.exec (.called, .called) ((lefts es).map .inl ++ (rights es).map .inr) =
      some (.done redis, .done postgres) ∧
    (healthCheck redis postgres).1 = 503 ∧
    ¬ (healthCheck redis postgres).2.postgres.status = .ok ∧
    ∀ e ∈ lefts es, e.Returned := by
  intro es redis postgres
  have hexec : gather.exec (.called, .called) es = some (.done redis, .done postgres) := rfl
  obtain ⟨hsequence, -, -, -, -, hredis, -⟩ := (health_checked hexec).2 _ _ rfl
  exact ⟨hsequence, rfl, by decide, hredis.mp rfl⟩

end Aegis
