/-
# `AegisWorkers.Schema` — what `POST /jobs` admits, and what the table takes

`JobCreateRequest` of `app/schemas/job.py`, from the JSON document to the request object or
the list of errors, and the column types of `app/models/job.py` that the INSERT of
`create_job` meets.

`str_strip_whitespace` strips every `str` of the model, the keys of `payload` included, before
the lengths are checked; the field validators come after that.  Which characters count as
white space is up to the library and a parameter here (`isSpace`), and so is `json.dumps`.

    modelValidate doc     the request, or the errors
    insertJob             the INSERT, with the column types
    Admissible req        what the sinks of a request rely on
-/
import AegisWorkers.JobService
import AegisWorkers.JsonText
import Mathlib.Data.List.DropRight

namespace Aegis

open JobService

/-! ## Inside a JSON value -/

namespace Json

mutual

/-- The strings in the value and the keys of its objects, at any depth. -/
def strings : Json → List String
  | .str s => [s]
  | .arr xs => itemStrings xs
  | .obj kvs => fieldStrings kvs
  | _ => []

def itemStrings : List Json → List String
  | [] => []
  | x :: xs => strings x ++ itemStrings xs

def fieldStrings : List (String × Json) → List String
  | [] => []
  | (k, x) :: kvs => k :: (strings x ++ fieldStrings kvs)

end

mutual

/-- The numbers in the value, at any depth. -/
def numbers : Json → List Num
  | .num n => [n]
  | .arr xs => itemNumbers xs
  | .obj kvs => fieldNumbers kvs
  | _ => []

def itemNumbers : List Json → List Num
  | [] => []
  | x :: xs => numbers x ++ itemNumbers xs

def fieldNumbers : List (String × Json) → List Num
  | [] => []
  | (_, x) :: kvs => numbers x ++ fieldNumbers kvs

end

end Json

def Num.isFinite : Num → Bool
  | .dec _ _ => true
  | _ => false

/-! ## The table -/

/-- A string without U+0000 is what `text` and `jsonb` can hold. -/
def nulFree (s : String) : Bool := !s.toList.contains '\x00'

/-- `String(n)`. -/
def varchar (n : Nat) (s : String) : Bool := decide (s.length ≤ n) && nulFree s

/-- `JSONB`. -/
def jsonb (v : Json) : Bool := v.strings.all nulFree && v.numbers.all Num.isFinite

/-- The columns that `create_job` fills from the request take the values. -/
def columnsTake (job : Job) : Bool :=
  varchar 255 job.taskName && jsonb job.payload && varchar 255 job.idempotencyKey

/-- How an INSERT ends, the column types included. -/
inductive InsertOutcome where
  | waits
  | uniqueViolation
  | dataError
  | inserted (db : Db)

def insertJob (db : Db) (c : CallId) (job : Job) : InsertOutcome :=
  if columnsTake job then
    match db.insert c job with
    | .waits => .waits
    | .violates => .uniqueViolation
    | .inserted db => .inserted db
  else .dataError

/-! ## The schema -/

/-- What is wrong with a field. -/
inductive Complaint where
  | missing
  | modelType
  | stringType
  | tooShort (minLength : Nat)
  | tooLong (maxLength : Nat)
  | dictType
  | extraForbidden
  /-- a `ValueError` of a field validator -/
  | valueError (message : String)
  deriving DecidableEq, Repr

structure ValidationError where
  loc : List String
  complaint : Complaint
  deriving DecidableEq, Repr

namespace JobCreateRequest

def forbiddenChars : List Char :=
  ['\x00', '\x01', '\x02', '\x03', '\x04', '\x05', '\x06', '\x07', '\x08', '\x0b', '\x0c', '\r',
    '\x0e', '\x0f', '\x10', '\x11', '\x12', '\x13', '\x14', '\x15', '\x16', '\x17', '\x18', '\x19',
    '\x1a', '\x1b', '\x1c', '\x1d', '\x1e', '\x1f']

def validateIdempotencyKey (v : String) : Except Complaint String :=
  if v.toList.any (forbiddenChars.contains ·) then
    .error (.valueError "idempotency_key contains invalid control characters")
  else .ok v

def validatePayloadSize (J : JsonCodec) (v : Json) : Except Complaint Json :=
  if 1000000 < (J.dumps v).length then .error (.valueError "payload exceeds maximum size of 1MB")
  else .ok v

section Validate
variable (J : JsonCodec) (isSpace : Char → Bool)

/-- `str_strip_whitespace`. -/
def strip (s : String) : String := .ofList ((s.toList.dropWhile isSpace).rdropWhile isSpace)

/-- `d[k] = v`. -/
def setItem (d : List (String × Json)) (k : String) (v : Json) : List (String × Json) :=
  if d.any (·.1 = k) then d.map fun e => if e.1 = k then (k, v) else e else d ++ [(k, v)]

/-- The dictionary with its keys stripped; of two keys that become one, the later stays. -/
def stripKeys (kvs : List (String × Json)) : List (String × Json) :=
  kvs.foldl (fun d e => setItem d (strip isSpace e.1) e.2) []

/-- A `str` field with `min_length=1, max_length=255`. -/
def boundedStr : Json → Except Complaint String
  | .str s =>
      if (strip isSpace s).length < 1 then .error (.tooShort 1)
      else if 255 < (strip isSpace s).length then .error (.tooLong 255)
      else .ok (strip isSpace s)
  | _ => .error .stringType

/-- A `dict[str, Any]` field. -/
def strDict : Json → Except Complaint Json
  | .obj kvs => .ok (.obj (stripKeys isSpace kvs))
  | _ => .error .dictType

/-- A field by its name, with its default if it has one. -/
def field {α : Type} (fields : List (String × Json)) (name : String) (default? : Option α)
    (validate : Json → Except Complaint α) : Except ValidationError α :=
  match fields.lookup name with
  | some v => (validate v).mapError fun complaint => ⟨[name], complaint⟩
  | none =>
      match default? with
      | some v => .ok v
      | none => .error ⟨[name], .missing⟩

def taskNameField (fields : List (String × Json)) : Except ValidationError String :=
  field fields "task_name" none (boundedStr isSpace)

def payloadField (fields : List (String × Json)) : Except ValidationError Json :=
  field fields "payload" (some (.obj [])) fun v => (strDict isSpace v).bind (validatePayloadSize J)

def idempotencyKeyField (fields : List (String × Json)) : Except ValidationError String :=
  field fields "idempotency_key" none fun v => (boundedStr isSpace v).bind validateIdempotencyKey

/-- `extra="forbid"`. -/
def extraFields (fields : List (String × Json)) : List ValidationError :=
  (fields.filter (·.1 ∉ ["task_name", "payload", "idempotency_key"])).map fun e =>
    ⟨[e.1], .extraForbidden⟩

/-- The error of a field, if it has one. -/
def errorOf {α : Type} : Except ValidationError α → List ValidationError
  | .ok _ => []
  | .error e => [e]

/-- The request a JSON document is, or all that is wrong with it. -/
def modelValidate : Json → Except (List ValidationError) JobCreateRequest
  | .obj fields =>
      match taskNameField isSpace fields, payloadField J isSpace fields,
        idempotencyKeyField isSpace fields, extraFields fields with
      | .ok taskName, .ok payload, .ok idempotencyKey, [] =>
          .ok { taskName := taskName, payload := payload, idempotencyKey := idempotencyKey }
      | taskName, payload, idempotencyKey, extra =>
          .error (errorOf taskName ++ errorOf payload ++ errorOf idempotencyKey ++ extra)
  | _ => .error [⟨[], .modelType⟩]

/-! ## What an accepted document is -/

variable {J isSpace}

theorem modelValidate_ok {doc : Json} {req : JobCreateRequest}
    (h : modelValidate J isSpace doc = .ok req) : ∃ fields, doc = .obj fields ∧
      taskNameField isSpace fields = .ok req.taskName ∧
      payloadField J isSpace fields = .ok req.payload ∧
      idempotencyKeyField isSpace fields = .ok req.idempotencyKey := by
  cases doc with
  | obj fields =>
      simp only [modelValidate] at h
      split at h
      · rename_i taskName payload idempotencyKey ht hp hk _
        obtain rfl := Except.ok.inj h
        exact ⟨fields, rfl, ht, hp, hk⟩
      · cases h
  | _ => cases h

/-- A required field that passes its check was there. -/
theorem field_ok {α : Type} {fields : List (String × Json)} {name : String} {v : α}
    {validate : Json → Except Complaint α} (h : field fields name none validate = .ok v) :
    ∃ x, fields.lookup name = some x ∧ validate x = .ok v := by
  cases hx : fields.lookup name with
  | none =>
      simp only [field, hx] at h
      cases h
  | some x =>
      refine ⟨x, rfl, ?_⟩
      cases hv : validate x with
      | ok u =>
          simp only [field, hx, hv, Except.mapError] at h
          exact congrArg Except.ok (Except.ok.inj h)
      | error e =>
          simp only [field, hx, hv, Except.mapError] at h
          cases h

/-- The lengths are those of the stripped string. -/
theorem boundedStr_ok {x : Json} {s : String} (h : boundedStr isSpace x = .ok s) :
    1 ≤ s.length ∧ s.length ≤ 255 := by
  cases x with
  | str t =>
      simp only [boundedStr] at h
      split at h
      · cases h
      · split at h
        · cases h
        · obtain rfl := Except.ok.inj h
          omega
  | _ => cases h

theorem validateIdempotencyKey_ok {v s : String} (h : validateIdempotencyKey v = .ok s) :
    v = s ∧ ∀ c ∈ s.toList, c ∉ forbiddenChars := by
  unfold validateIdempotencyKey at h
  split at h
  · cases h
  · obtain rfl := Except.ok.inj h
    refine ⟨rfl, ?_⟩
    intro c hc hf
    refine absurd (List.any_eq_true.mpr ⟨c, hc, ?_⟩) ‹_›
    exact List.contains_iff_mem.mpr hf

/-- The key is stripped and measured first, and then searched for control characters. -/
theorem idempotencyKeyField_ok {fields : List (String × Json)} {s : String}
    (h : idempotencyKeyField isSpace fields = .ok s) :
    (1 ≤ s.length ∧ s.length ≤ 255) ∧ ∀ c ∈ s.toList, c ∉ forbiddenChars := by
  obtain ⟨x, -, hx⟩ := field_ok h
  cases hb : boundedStr isSpace x with
  | error e => rw [hb] at hx; cases hx
  | ok v =>
      rw [hb] at hx
      obtain ⟨rfl, hforbidden⟩ := validateIdempotencyKey_ok hx
      exact ⟨boundedStr_ok hb, hforbidden⟩

end Validate

/-- The validator forbids all control characters but two. -/
theorem control_cases {c : Char} (hc : c.toNat < 0x20) :
    c ∈ forbiddenChars ∨ c = '\t' ∨ c = '\n' := by
  have hall : ∀ n < 0x20, Char.ofNat n ∈ forbiddenChars ∨ Char.ofNat n = '\t' ∨
      Char.ofNat n = '\n' := by decide
  have hof : Char.ofNat c.toNat = c := Char.ofNat_toNat c
  exact hof ▸ hall c.toNat hc

end JobCreateRequest

/-! ## What the sinks rely on -/

/-- The key can be logged and stored, the payload can be stored, and the INSERT of `create_job`
can only fail by a unique violation. -/
structure Admissible (req : JobCreateRequest) : Prop where
  length : 1 ≤ req.idempotencyKey.length ∧ req.idempotencyKey.length ≤ 255
  printable : ∀ c ∈ req.idempotencyKey.toList, ¬ c.toNat < 0x20
  strings : ∀ s ∈ req.payload.strings, '\x00' ∉ s.toList
  numbers : ∀ n ∈ req.payload.numbers, n.isFinite
  inserted : ∀ db c id began, insertJob db c (newJob id req began) ≠ .dataError

theorem nulFree_iff {s : String} : nulFree s ↔ '\x00' ∉ s.toList := by
  simp [nulFree]

theorem jsonb_iff {v : Json} : jsonb v ↔ (∀ s ∈ v.strings, '\x00' ∉ s.toList) ∧
    ∀ n ∈ v.numbers, n.isFinite := by
  simp only [jsonb, Bool.and_eq_true, List.all_eq_true, nulFree_iff]

theorem insertJob_dataError {db : Db} {c : CallId} {job : Job} :
    insertJob db c job = .dataError ↔ columnsTake job = false := by
  unfold insertJob
  cases columnsTake job with
  | false => simp
  | true =>
      simp only [if_true, Bool.true_eq_false, iff_false]
      split <;> exact nofun

/-- What the schema admits is fit for its sinks if and only if the key has no tab and no line
feed in it, the task name no U+0000, and the payload, into which the schema does not look, is
one that `jsonb` holds.  The other control characters are kept out of the key, and the key has
1 to 255 characters. -/
theorem admissible_iff {J : JsonCodec} {isSpace : Char → Bool} {doc : Json}
    {req : JobCreateRequest} (h : JobCreateRequest.modelValidate J isSpace doc = .ok req) :
    Admissible req ↔ (∀ c ∈ req.idempotencyKey.toList, c ≠ '\t' ∧ c ≠ '\n') ∧
      nulFree req.taskName ∧ jsonb req.payload := by
  obtain ⟨fields, rfl, ht, -, hk⟩ := JobCreateRequest.modelValidate_ok h
  obtain ⟨x, -, hx⟩ := JobCreateRequest.field_ok ht
  obtain ⟨-, htask⟩ := JobCreateRequest.boundedStr_ok hx
  obtain ⟨hlength, hforbidden⟩ := JobCreateRequest.idempotencyKeyField_ok hk
  constructor
  · intro ha
    refine ⟨?_, ?_, jsonb_iff.mpr ⟨ha.strings, ha.numbers⟩⟩
    · intro c hc
      constructor
      · rintro rfl
        exact ha.printable _ hc (by decide)
      · rintro rfl
        exact ha.printable _ hc (by decide)
    · -- an INSERT that takes the row takes its task name
      have htakes := mt insertJob_dataError.mpr (ha.inserted .empty 0 0 0)
      simp only [columnsTake, varchar, newJob, Bool.not_eq_false, Bool.and_eq_true] at htakes
      exact htakes.1.1.2
  · rintro ⟨hkey, hname, hpayload⟩
    have hprintable : ∀ c ∈ req.idempotencyKey.toList, ¬ c.toNat < 0x20 := by
      intro c hc hlt
      rcases JobCreateRequest.control_cases hlt with hf | ht | hn
      · exact hforbidden c hc hf
      · exact (hkey c hc).1 ht
      · exact (hkey c hc).2 hn
    obtain ⟨hstrings, hnumbers⟩ := jsonb_iff.mp hpayload
    refine ⟨hlength, hprintable, hstrings, hnumbers, ?_⟩
    intro db c id began
    have hnul : nulFree req.idempotencyKey :=
      nulFree_iff.mpr fun hmem => hprintable _ hmem (by decide)
    rw [Ne, insertJob_dataError, Bool.not_eq_false]
    simp only [columnsTake, varchar, newJob, Bool.and_eq_true]
    exact ⟨⟨⟨decide_eq_true htask, hname⟩, hpayload⟩, decide_eq_true hlength.2, hnul⟩

/-! ## Concrete documents -/

/-- A request body for the task `ping`. -/
def pingDocument (idempotencyKey : String) (payload : Json) : Json :=
  .obj [("task_name", .str "ping"), ("payload", payload), ("idempotency_key", .str idempotencyKey)]

theorem admissible_iff_ping : ∃ req, JobCreateRequest.modelValidate jsonText Char.isWhitespace
    (pingDocument " k\n" (.obj [("to", .str "v")])) = .ok req ∧ Admissible req := by
  have hreq : JobCreateRequest.modelValidate jsonText Char.isWhitespace
      (pingDocument " k\n" (.obj [("to", .str "v")])) =
        .ok ⟨"ping", .obj [("to", .str "v")], "k"⟩ := rfl
  have hkey : ∀ c ∈ "k".toList, c ≠ '\t' ∧ c ≠ '\n' := List.forall_mem_singleton.mpr (by decide)
  exact ⟨_, hreq, (admissible_iff hreq).mpr ⟨hkey, by decide, by decide⟩⟩

/-- The schema admits a key with a line feed in it, and a payload with U+0000 or `NaN` in it,
on which the INSERT fails. -/
theorem admitted_unfit :
    (∃ req, JobCreateRequest.modelValidate jsonText Char.isWhitespace
      (pingDocument "k\nl" (.obj [])) = .ok req ∧ '\n' ∈ req.idempotencyKey.toList ∧
        ¬ Admissible req) ∧
    (∃ req, JobCreateRequest.modelValidate jsonText Char.isWhitespace
      (pingDocument "k" (.obj [("to", .str "\x00")])) = .ok req ∧
        insertJob .empty 0 (newJob 0 req 0) = .dataError ∧ ¬ Admissible req) ∧
    ∃ req, JobCreateRequest.modelValidate jsonText Char.isWhitespace
      (pingDocument "k" (.obj [("to", .num .nan)])) = .ok req ∧
        insertJob .empty 0 (newJob 0 req 0) = .dataError ∧ ¬ Admissible req := by
  refine ⟨⟨⟨"ping", .obj [], "k\nl"⟩, rfl, by decide, ?_⟩,
    ⟨⟨"ping", .obj [("to", .str "\x00")], "k"⟩, rfl, rfl, ?_⟩,
    ⟨⟨"ping", .obj [("to", .num .nan)], "k"⟩, rfl, rfl, ?_⟩⟩
  · intro ha
    exact ha.printable '\n' (by decide) (by decide)
  · intro ha
    exact ha.inserted .empty 0 0 0 rfl
  · intro ha
    exact ha.inserted .empty 0 0 0 rfl

end Aegis
