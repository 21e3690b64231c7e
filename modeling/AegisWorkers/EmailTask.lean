/-
# `AegisWorkers.EmailTask` — what a call of a registered task comes to

The two tasks of `workers/tasks/email_task.py` are functions that call `self.run`, registered
with `base=BaseTask`; the idempotency check, the retries and `execute()` are in
`BaseTask.run`.  Which function `self.run` is depends on the class Celery builds: it has the
decorated function itself as its `run`, so the call comes back to where it started
(`never_dispatches`).  A subclass that leaves `run` alone and overrides `execute()`, as the
tests write it, does get to `BaseTask.run` (`derived_dispatches`).

Celery is a parameter: the task object it builds, and what its own functions do with their
arguments.
-/
import AegisWorkers.Dispatch
import AegisWorkers.Job

namespace Aegis.EmailTask

open Dispatch

/-! ## Functions and classes -/

/-- The functions a task object can have: those of `workers/`, and Celery's own. -/
inductive Function (κ : Type) where
  /-- `BaseTask.run` -/
  | run
  /-- `BaseTask.execute` -/
  | execute
  | sendEmail
  | sendBulkEmail
  | celery (k : κ)

/-- What a function does first with the arguments it is called with. -/
inductive Body (κ : Type) where
  /-- `self.a(*args, **kwargs)` -/
  | self (a : String)
  /-- `f(*args, **kwargs)` -/
  | calls (f : Function κ)
  /-- it does not hand them on -/
  | logic

/-- `app.task(bind=True, base=base)(f)`, Celery's class `Task`, and Celery's functions. -/
structure Celery (κ : Type) where
  task : Class (Function κ) → Function κ → Object (Function κ)
  taskClass : Class (Function κ)
  body : κ → Body κ

section Task
variable {κ : Type} (C : Celery κ)

/-- `class BaseTask(Task)`. -/
def baseTask : Class (Function κ) :=
  .sub (fun a => [("run", .run), ("execute", .execute)].lookup a) C.taskClass

/-- The object `send_email`. -/
def sendEmail : Object (Function κ) := C.task (baseTask C) .sendEmail

/-- The object `send_bulk_email`. -/
def sendBulkEmail : Object (Function κ) := C.task (baseTask C) .sendBulkEmail

/-- `BaseTask.run` begins with the idempotency check, the two tasks `return self.run(…)`. -/
def Function.body : Function κ → Body κ
  | .run => .logic
  | .execute => .logic
  | .sendEmail => .self "run"
  | .sendBulkEmail => .self "run"
  | .celery k => C.body k

/-- A function called with its arguments. -/
structure Frame (κ : Type) where
  function : Function κ
  args : List Json
  kwargs : List (String × Json)

/-- The call a function hands its arguments on to, on the task object `self`. -/
def Frame.next (self : Object (Function κ)) (x : Frame κ) : Option (Frame κ) :=
  (match x.function.body C with
    | .self a => self.attr a
    | .calls f => some f
    | .logic => none).map fun f => { x with function := f }

/-- Celery's documented behaviour: the object is of a subclass of `base` whose `run` is the
decorated function, and its own `run`, if it has one, is the autoretry wrapper, which calls
that function. -/
structure Celery.Documented : Prop where
  subclass : ∀ base f, ∃ attrs, (C.task base f).cls = .sub attrs base ∧ attrs "run" = some f
  wrapper : ∀ base f, (C.task base f).dict "run" = none ∨
    ∃ k, (C.task base f).dict "run" = some (.celery k) ∧ ∀ args kwargs,
      Frame.next C (C.task base f) ⟨.celery k, args, kwargs⟩ = some ⟨f, args, kwargs⟩

/-- The call `self.run(*args, **kwargs)` ends, and enters the body of `BaseTask.run` once. -/
def Dispatches (self : Object (Function κ)) (args : List Json) (kwargs : List (String × Json)) :
    Prop :=
  ∃ f, self.attr "run" = some f ∧ Acc (Calls (Frame.next C self)) ⟨f, args, kwargs⟩ ∧
    ∃! n, entered (Frame.next C self) ⟨f, args, kwargs⟩ n = some ⟨.run, args, kwargs⟩

end Task

/-! ## Where a call goes -/

section Calls
variable {κ : Type} {C : Celery κ} {self : Object (Function κ)} {f : Function κ}
  {args : List Json} {kwargs : List (String × Json)}

/-- `self.run` is `f`, or Celery's wrapper around `f`. -/
inductive RunsAs (C : Celery κ) (self : Object (Function κ)) (f : Function κ) : Prop
  | bare : self.attr "run" = some f → RunsAs C self f
  | wrapped (k : κ) : self.attr "run" = some (.celery k) → (∀ args kwargs,
      Frame.next C self ⟨.celery k, args, kwargs⟩ = some ⟨f, args, kwargs⟩) → RunsAs C self f

theorem Celery.Documented.runsAs (hC : C.Documented) (base : Class (Function κ))
    (f : Function κ) : RunsAs C (C.task base f) f := by
  rcases hC.wrapper base f with hnone | ⟨k, hk, hcalls⟩
  · obtain ⟨attrs, hcls, hrun⟩ := hC.subclass base f
    refine .bare ?_
    rw [Object.attr_inherited hnone, hcls, Class.attr_own hrun]
  · exact .wrapped k (Object.attr_own hk) hcalls

/-- A function that hands its arguments on to `self.run` is called by what it calls: the calls
stay with it and with Celery's wrapper around it. -/
theorem RunsAs.closed (h : RunsAs C self f) (hf : f.body C = .self "run") (args : List Json)
    (kwargs : List (String × Json)) : ∃ g, self.attr "run" = some g ∧
      ∃ S : Frame κ → Prop, S ⟨g, args, kwargs⟩ ∧
        (∀ x, S x → ∃ y, Frame.next C self x = some y ∧ S y) ∧
        ∀ x, S x → x.function = f ∨ ∃ k, x.function = .celery k := by
  have hself : ∀ {g : Function κ}, self.attr "run" = some g →
      Frame.next C self ⟨f, args, kwargs⟩ = some ⟨g, args, kwargs⟩ := by
    intro g hg
    simp only [Frame.next, hf, hg, Option.map_some]
  cases h with
  | bare hrun =>
      refine ⟨f, hrun, (· = ⟨f, args, kwargs⟩), rfl, ?_, ?_⟩
      · rintro x rfl
        exact ⟨_, hself hrun, rfl⟩
      · rintro x rfl
        exact .inl rfl
  | wrapped k hrun hcalls =>
      refine ⟨.celery k, hrun, fun x => x = ⟨f, args, kwargs⟩ ∨ x = ⟨.celery k, args, kwargs⟩,
        .inr rfl, ?_, ?_⟩
      · rintro x (rfl | rfl)
        · exact ⟨_, hself hrun, .inr rfl⟩
        · exact ⟨_, hcalls args kwargs, .inl rfl⟩
      · rintro x (rfl | rfl)
        · exact .inl rfl
        · exact .inr ⟨k, rfl⟩

theorem RunsAs.not_dispatches (h : RunsAs C self f) (hf : f.body C = .self "run") :
    ¬ Dispatches C self args kwargs := by
  obtain ⟨g, hg, S, hS, hclosed, -⟩ := h.closed hf args kwargs
  rintro ⟨g', hg', hacc, -⟩
  rw [hg, Option.some.injEq] at hg'
  exact not_acc_of_closed hclosed hS (hg' ▸ hacc)

/-- Where `self.run` is `BaseTask.run`, wrapped or not, a call gets there. -/
theorem RunsAs.dispatches (h : RunsAs C self .run) : Dispatches C self args kwargs := by
  have hlast : Frame.next C self ⟨.run, args, kwargs⟩ = none := rfl
  have hstop : ∀ {g : Function κ} {n : Nat},
      entered (Frame.next C self) ⟨g, args, kwargs⟩ n = some ⟨.run, args, kwargs⟩ →
      Acc (Calls (Frame.next C self)) ⟨g, args, kwargs⟩ ∧
        ∃! n, entered (Frame.next C self) ⟨g, args, kwargs⟩ n = some ⟨.run, args, kwargs⟩ := by
    intro g n hn
    refine ⟨ends_iff_acc.mp ⟨n + 1, ?_⟩, n, hn, fun m hm => entered_last hlast hm hn⟩
    rw [entered, hn]
    exact hlast
  cases h with
  | bare hrun => exact ⟨.run, hrun, hstop (n := 0) rfl⟩
  | wrapped k hrun hcalls =>
      refine ⟨.celery k, hrun, hstop (n := 1) ?_⟩
      rw [entered_succ, hcalls]
      rfl

/-- A task whose class derives from `BaseTask` and has no `run` of its own dispatches. -/
theorem derived_dispatches {attrs : String → Option (Function κ)}
    (hcls : self.cls = .sub attrs (baseTask C)) (hattrs : attrs "run" = none)
    (hdict : self.dict "run" = none ∨ ∃ k, self.dict "run" = some (.celery k) ∧
      ∀ args kwargs, Frame.next C self ⟨.celery k, args, kwargs⟩ = some ⟨.run, args, kwargs⟩) :
    Dispatches C self args kwargs := by
  refine RunsAs.dispatches ?_
  rcases hdict with hnone | ⟨k, hk, hcalls⟩
  · refine .bare ?_
    rw [Object.attr_inherited hnone, hcls, Class.attr_inherited hattrs, baseTask]
    exact Class.attr_own rfl
  · exact .wrapped k (Object.attr_own hk) hcalls

/-- No call of `send_email` or `send_bulk_email` gets to `BaseTask.run`, whatever its
arguments: it enters the task's own function, or Celery's wrapper around it, again and again. -/
theorem never_dispatches (hC : C.Documented)
    (hself : self = sendEmail C ∨ self = sendBulkEmail C) :
    ¬ Dispatches C self args kwargs ∧
      ∃ g, self.attr "run" = some g ∧ ¬ Acc (Calls (Frame.next C self)) ⟨g, args, kwargs⟩ ∧
        ¬ Reaches (Frame.next C self) ⟨g, args, kwargs⟩ ⟨.run, args, kwargs⟩ := by
  obtain ⟨f, hruns, hbody, hne⟩ : ∃ f, RunsAs C self f ∧ f.body C = .self "run" ∧ f ≠ .run := by
    rcases hself with rfl | rfl
    · exact ⟨.sendEmail, hC.runsAs _ _, rfl, nofun⟩
    · exact ⟨.sendBulkEmail, hC.runsAs _ _, rfl, nofun⟩
  obtain ⟨g, hg, S, hS, hclosed, hwithin⟩ := hruns.closed hbody args kwargs
  refine ⟨hruns.not_dispatches hbody, g, hg, not_acc_of_closed hclosed hS,
    not_reaches_of_closed hclosed hS ?_⟩
  intro hrun
  rcases hwithin _ hrun with hf | ⟨k, hk⟩
  · exact hne hf.symm
  · cases hk

end Calls

/-! ## Celery as it is -/

/-- The functions of Celery's that a task object has. -/
inductive CeleryFunction where
  /-- `Task.run`, which raises NotImplementedError -/
  | taskRun
  /-- the `run` that `add_autoretry_behaviour` puts in its place -/
  | autoretry

/-- `app.task` with `autoretry_for` set: `task._orig_run, task.run = task.run, run`. -/
def celery : Celery CeleryFunction where
  task base f :=
    { dict := fun a => [("run", .celery .autoretry), ("_orig_run", f)].lookup a
      cls := .sub (fun a => if a = "run" then some f else none) base }
  taskClass := .sub (fun a => if a = "run" then some (.celery .taskRun) else none) .object
  body
    | .taskRun => .logic
    | .autoretry => .self "_orig_run"

theorem celery_documented : celery.Documented where
  subclass _ _ := ⟨_, rfl, rfl⟩
  wrapper _ _ := .inr ⟨.autoretry, rfl, fun _ _ => rfl⟩

theorem never_dispatches_celery : ¬ Dispatches celery (sendEmail celery) []
    [("job_id", .str "0"), ("idempotency_key", .str "k"), ("payload", .obj [])] :=
  (never_dispatches celery_documented (.inl rfl)).1

/-- `send_email` called with the arguments of a message: the wrapper, the function, the wrapper. -/
theorem dispatch_loops : ∃ g, (sendEmail celery).attr "run" = some g ∧
    (List.range 5).map (fun n =>
      (entered (Frame.next celery (sendEmail celery)) ⟨g, [], [("job_id", .str "0")]⟩ n).map
        Frame.function) =
      [some (.celery .autoretry), some .sendEmail, some (.celery .autoretry), some .sendEmail,
        some (.celery .autoretry)] ∧
    ¬ ∀ args kwargs, Dispatches celery (sendEmail celery) args kwargs :=
  ⟨.celery .autoretry, rfl, rfl, fun h =>
    (celery_documented.runsAs _ _).not_dispatches rfl (h [] [("job_id", .str "0")])⟩

end Aegis.EmailTask
