/-
# `AegisWorkers.JsonText` — a JSON text for every value, and its reader

The later modules assume of `json` that `loads` inverts `dumps` (`JsonCodec.Lawful`).
This module has a codec that does: the text is JSON with the separators of `json.dumps`,
a number keeps its mantissa and exponent, and the reader takes back what was written
whatever comes after it (`read_chars`).

    chars v       the text of `v`
    read n cs     the value at the head of `cs`, and what is left of `cs`
    jsonText      the codec
-/
import AegisWorkers.Job
import Mathlib.Data.List.TakeDrop

namespace Aegis

/-- What is assumed of `json`: `None` is written `null`, and what is written can be read. -/
structure JsonCodec.Lawful (J : JsonCodec) : Prop where
  dumps_null : J.dumps .null = "null"
  loads_dumps : ∀ v, J.loads (J.dumps v) = some v

/-- Only `None` is written `null`. -/
theorem JsonCodec.Lawful.eq_null {J : JsonCodec} (h : J.Lawful) {v : Json}
    (hv : J.dumps v = "null") : v = .null := by
  have hboth : some v = some Json.null := by
    rw [← h.loads_dumps v, ← h.loads_dumps .null, hv, h.dumps_null]
  exact Option.some.inj hboth

namespace Json

/-! ## Writing -/

def intChars (m : Int) : List Char :=
  if m < 0 then '-' :: Nat.toDigits 10 m.natAbs else Nat.toDigits 10 m.natAbs

def numChars : Num → List Char
  | .dec m e => if e = 0 then intChars m else intChars m ++ 'e' :: intChars e
  | .nan => ['N', 'a', 'N']
  | .inf false => ['I', 'n', 'f', 'i', 'n', 'i', 't', 'y']
  | .inf true => ['-', 'I', 'n', 'f', 'i', 'n', 'i', 't', 'y']

/-- A string after its opening quote. -/
def quoted : List Char → List Char
  | [] => ['"']
  | c :: cs => if c = '"' ∨ c = '\\' then '\\' :: c :: quoted cs else c :: quoted cs

mutual

def chars : Json → List Char
  | .null => ['n', 'u', 'l', 'l']
  | .bool true => ['t', 'r', 'u', 'e']
  | .bool false => ['f', 'a', 'l', 's', 'e']
  | .num x => numChars x
  | .str s => '"' :: quoted s.toList
  | .arr [] => ['[', ']']
  | .arr (x :: xs) => '[' :: (chars x ++ itemChars xs)
  | .obj [] => ['{', '}']
  | .obj ((k, x) :: kvs) =>
      '{' :: '"' :: (quoted k.toList ++ ':' :: ' ' :: (chars x ++ fieldChars kvs))

/-- An array after one of its elements. -/
def itemChars : List Json → List Char
  | [] => [']']
  | x :: xs => ',' :: ' ' :: (chars x ++ itemChars xs)

/-- An object after one of its fields. -/
def fieldChars : List (String × Json) → List Char
  | [] => ['}']
  | (k, x) :: kvs =>
      ',' :: ' ' :: '"' :: (quoted k.toList ++ ':' :: ' ' :: (chars x ++ fieldChars kvs))

end

/-! ## Reading -/

def readNat (cs : List Char) : Option (Nat × List Char) :=
  match cs.takeWhile Char.isDigit with
  | [] => none
  | d :: ds => some (Nat.ofDigitChars 10 (d :: ds) 0, cs.dropWhile Char.isDigit)

def readInt : List Char → Option (Int × List Char)
  | '-' :: cs => (readNat cs).map fun p => (-(p.1 : Int), p.2)
  | cs => (readNat cs).map fun p => ((p.1 : Int), p.2)

def readNum (cs : List Char) : Option (Num × List Char) :=
  match readInt cs with
  | some (m, 'e' :: cs) => (readInt cs).map fun p => (.dec m p.1, p.2)
  | some (m, cs) => some (.dec m 0, cs)
  | none =>
      match cs with
      | 'N' :: 'a' :: 'N' :: cs => some (.nan, cs)
      | 'I' :: 'n' :: 'f' :: 'i' :: 'n' :: 'i' :: 't' :: 'y' :: cs => some (.inf false, cs)
      | '-' :: 'I' :: 'n' :: 'f' :: 'i' :: 'n' :: 'i' :: 't' :: 'y' :: cs => some (.inf true, cs)
      | _ => none

/-- A string after its opening quote. -/
def readQuoted : List Char → Option (List Char × List Char)
  | '"' :: cs => some ([], cs)
  | '\\' :: c :: cs => (readQuoted cs).map fun p => (c :: p.1, p.2)
  | c :: cs => (readQuoted cs).map fun p => (c :: p.1, p.2)
  | [] => none

mutual

def read : Nat → List Char → Option (Json × List Char)
  | 0, _ => none
  | n + 1, cs =>
      match readNum cs with
      | some (x, cs) => some (.num x, cs)
      | none =>
          match cs with
          | 'n' :: 'u' :: 'l' :: 'l' :: cs => some (.null, cs)
          | 't' :: 'r' :: 'u' :: 'e' :: cs => some (.bool true, cs)
          | 'f' :: 'a' :: 'l' :: 's' :: 'e' :: cs => some (.bool false, cs)
          | '"' :: cs => (readQuoted cs).map fun p => (.str (.ofList p.1), p.2)
          | '[' :: ']' :: cs => some (.arr [], cs)
          | '[' :: cs => (readItems n (',' :: ' ' :: cs)).map fun p => (.arr p.1, p.2)
          | '{' :: '}' :: cs => some (.obj [], cs)
          | '{' :: cs => (readFields n (',' :: ' ' :: cs)).map fun p => (.obj p.1, p.2)
          | _ => none

/-- An array after one of its elements. -/
def readItems : Nat → List Char → Option (List Json × List Char)
  | n + 1, ',' :: ' ' :: cs =>
      (read n cs).bind fun p => (readItems n p.2).map fun q => (p.1 :: q.1, q.2)
  | _ + 1, ']' :: cs => some ([], cs)
  | _, _ => none

/-- An object after one of its fields. -/
def readFields : Nat → List Char → Option (List (String × Json) × List Char)
  | n + 1, ',' :: ' ' :: '"' :: cs =>
      (readQuoted cs).bind fun k =>
        match k.2 with
        | ':' :: ' ' :: cs =>
            (read n cs).bind fun p =>
              (readFields n p.2).map fun q => ((.ofList k.1, p.1) :: q.1, q.2)
        | _ => none
  | _ + 1, '}' :: cs => some ([], cs)
  | _, _ => none

end


/-- What comes after a value: the end, or a separator. -/
def Stops : List Char → Prop
  | [] => True
  | c :: _ => c = ',' ∨ c = ']' ∨ c = '}'

theorem Stops.takeWhile {rest : List Char} (h : Stops rest) :
    rest.takeWhile Char.isDigit = [] ∧ rest.dropWhile Char.isDigit = rest := by
  cases rest with
  | nil => exact ⟨rfl, rfl⟩
  | cons c cs => rcases h with rfl | rfl | rfl <;> exact ⟨rfl, rfl⟩

theorem digits_cons (n : Nat) : ∃ d ds, Nat.toDigits 10 n = d :: ds ∧ d.isDigit ∧
    ∀ c ∈ d :: ds, c.isDigit := by
  cases h : Nat.toDigits 10 n with
  | nil => exact absurd h Nat.toDigits_ne_nil
  | cons d ds =>
      have hall : ∀ c ∈ d :: ds, c.isDigit := by
        intro c hc
        exact Nat.isDigit_of_mem_toDigits (by decide) (by decide) (h ▸ hc)
      exact ⟨d, ds, rfl, hall d List.mem_cons_self, hall⟩

/-- Digits are read back before anything that is not one. -/
theorem readNat_digits (n : Nat) {rest : List Char}
    (ht : rest.takeWhile Char.isDigit = []) (hd : rest.dropWhile Char.isDigit = rest) :
    readNat (Nat.toDigits 10 n ++ rest) = some (n, rest) := by
  have hall : ∀ c ∈ Nat.toDigits 10 n, c.isDigit := fun c hc =>
    Nat.isDigit_of_mem_toDigits (by decide) (by decide) hc
  have htake : (Nat.toDigits 10 n ++ rest).takeWhile Char.isDigit = Nat.toDigits 10 n := by
    rw [List.takeWhile_append_of_pos hall, ht, List.append_nil]
  have hdrop : (Nat.toDigits 10 n ++ rest).dropWhile Char.isDigit = rest := by
    rw [List.dropWhile_append_of_pos hall, hd]
  obtain ⟨d, ds, hds, -, -⟩ := digits_cons n
  simp only [readNat, htake, hdrop]
  rw [hds]
  simp only [← hds, Nat.ofDigitChars_ten_toDigits]

theorem readInt_intChars (m : Int) {rest : List Char}
    (ht : rest.takeWhile Char.isDigit = []) (hd : rest.dropWhile Char.isDigit = rest) :
    readInt (intChars m ++ rest) = some (m, rest) := by
  unfold intChars
  split
  · rw [List.cons_append]
    show (readNat _).map _ = _
    rw [readNat_digits _ ht hd]
    simp only [Option.map_some, Option.some.injEq, Prod.mk.injEq, and_true]
    omega
  · obtain ⟨d, ds, hds, hdig, -⟩ := digits_cons m.natAbs
    have hne : d ≠ '-' := by
      rintro rfl
      exact absurd hdig (by decide)
    have hread : readInt (Nat.toDigits 10 m.natAbs ++ rest) =
        (readNat (Nat.toDigits 10 m.natAbs ++ rest)).map fun p => ((p.1 : Int), p.2) := by
      rw [hds, List.cons_append]
      simp [readInt, hne]
    rw [hread, readNat_digits _ ht hd]
    simp only [Option.map_some, Option.some.injEq, Prod.mk.injEq, and_true]
    omega

theorem readNum_numChars (x : Num) {rest : List Char} (h : Stops rest) :
    readNum (numChars x ++ rest) = some (x, rest) := by
  obtain ⟨ht, hd⟩ := h.takeWhile
  cases x with
  | dec m e =>
      simp only [numChars]
      split
      · rename_i he
        subst he
        simp only [readNum, readInt_intChars m ht hd]
        cases rest with
        | nil => rfl
        | cons c cs => rcases h with rfl | rfl | rfl <;> rfl
      · rw [List.append_assoc, List.cons_append]
        have hm : readInt (intChars m ++ 'e' :: (intChars e ++ rest)) =
            some (m, 'e' :: (intChars e ++ rest)) := readInt_intChars m rfl rfl
        simp only [readNum, hm, readInt_intChars e ht hd, Option.map_some]
  | nan => rfl
  | inf negative => cases negative <;> rfl

theorem readQuoted_quoted (cs rest : List Char) :
    readQuoted (quoted cs ++ rest) = some (cs, rest) := by
  induction cs with
  | nil => rfl
  | cons c cs ih =>
      simp only [quoted]
      split
      · simp only [List.cons_append, readQuoted, ih, Option.map_some]
      · rename_i hc
        obtain ⟨hq, hb⟩ := not_or.mp hc
        simp only [List.cons_append]
        rw [readQuoted]
        · simp [ih]
        · exact hq
        · intro _ _ h
          exact absurd h hb

theorem intChars_length (m : Int) : 0 < (intChars m).length := by
  unfold intChars
  split
  · exact Nat.succ_pos _
  · exact Nat.length_toDigits_pos

theorem numChars_length (x : Num) : 0 < (numChars x).length := by
  cases x with
  | dec m e =>
      have hm := intChars_length m
      simp only [numChars]
      split
      · exact hm
      · rw [List.length_append]
        omega
  | nan => exact Nat.succ_pos _
  | inf negative => cases negative <;> exact Nat.succ_pos _

/-- The text of a value does not begin with a closing bracket. -/
theorem chars_cons (v : Json) : ∃ c cs, chars v = c :: cs ∧ c ≠ ']' := by
  cases v with
  | num x =>
      have hread : readNum (numChars x ++ []) = some (x, []) := readNum_numChars x trivial
      cases hx : numChars x with
      | nil => exact absurd (numChars_length x) (by simp [hx])
      | cons c cs =>
          refine ⟨c, cs, hx, ?_⟩
          rintro rfl
          rw [hx] at hread
          cases hread
  | null => exact ⟨_, _, rfl, by decide⟩
  | bool b => cases b <;> exact ⟨_, _, rfl, by decide⟩
  | str s => exact ⟨_, _, rfl, by decide⟩
  | arr xs => cases xs <;> exact ⟨_, _, rfl, by decide⟩
  | obj kvs =>
      cases kvs with
      | nil => exact ⟨_, _, rfl, by decide⟩
      | cons kv kvs => exact ⟨_, _, rfl, by decide⟩

theorem chars_length (v : Json) : 0 < (chars v).length := by
  cases v with
  | num x => exact numChars_length x
  | bool b => cases b <;> exact Nat.succ_pos _
  | arr xs => cases xs <;> exact Nat.succ_pos _
  | obj kvs =>
      cases kvs with
      | nil => exact Nat.succ_pos _
      | cons kv kvs => exact Nat.succ_pos _
  | _ => exact Nat.succ_pos _

mutual

/-- What was written is read back, whatever comes after it. -/
theorem read_chars : ∀ (v : Json) {n : Nat} {rest : List Char}, Stops rest →
    2 * (chars v).length ≤ n → read n (chars v ++ rest) = some (v, rest)
  | v, 0, rest, _, hn => by
      have := chars_length v
      omega
  | .null, n + 1, rest, _, _ => rfl
  | .bool true, n + 1, rest, _, _ => rfl
  | .bool false, n + 1, rest, _, _ => rfl
  | .num x, n + 1, rest, hr, _ => by
      simp only [chars, read, readNum_numChars x hr]
  | .str s, n + 1, rest, _, _ => by
      have hnum : readNum ('"' :: (quoted s.toList ++ rest)) = none := rfl
      simp only [chars, List.cons_append, read, hnum, readQuoted_quoted, Option.map_some,
        String.ofList_toList]
  | .arr [], n + 1, rest, _, _ => rfl
  | .arr (x :: xs), n + 1, rest, _, hn => by
      simp only [chars, List.length_cons, List.length_append] at hn
      obtain ⟨n, rfl⟩ : ∃ n', n = n' + 1 := ⟨n - 1, by omega⟩
      have hx : read n (chars x ++ (itemChars xs ++ rest)) = some (x, itemChars xs ++ rest) :=
        read_chars x (by cases xs <;> simp [itemChars, Stops]) (by omega)
      have hxs : readItems n (itemChars xs ++ rest) = some (xs, rest) :=
        readItems_itemChars xs (by omega)
      have hread : read (n + 1 + 1) ('[' :: (chars x ++ (itemChars xs ++ rest))) =
          (readItems (n + 1) (',' :: ' ' :: (chars x ++ (itemChars xs ++ rest)))).map
            fun p => (.arr p.1, p.2) := by
        have hnum : ∀ cs, readNum ('[' :: cs) = none := fun _ => rfl
        obtain ⟨c, cs, hc, hne⟩ := chars_cons x
        simp only [read, hc, List.cons_append, hnum]
        split <;> simp_all
      simp only [chars, List.cons_append, List.append_assoc, hread, readItems, hx, hxs,
        Option.bind_some, Option.map_some]
  | .obj [], n + 1, rest, _, _ => rfl
  | .obj ((k, x) :: kvs), n + 1, rest, _, hn => by
      simp only [chars, List.length_cons, List.length_append] at hn
      obtain ⟨n, rfl⟩ : ∃ n', n = n' + 1 := ⟨n - 1, by omega⟩
      have hx : read n (chars x ++ (fieldChars kvs ++ rest)) = some (x, fieldChars kvs ++ rest) :=
        read_chars x (by cases kvs <;> simp [fieldChars, Stops]) (by omega)
      have hkvs : readFields n (fieldChars kvs ++ rest) = some (kvs, rest) :=
        readFields_fieldChars kvs (by omega)
      have hread : ∀ cs, read (n + 1 + 1) ('{' :: '"' :: cs) =
          (readFields (n + 1) (',' :: ' ' :: '"' :: cs)).map fun p => (.obj p.1, p.2) :=
        fun _ => rfl
      simp only [chars, List.cons_append, List.append_assoc, hread, readFields,
        readQuoted_quoted, hx, hkvs, Option.bind_some, Option.map_some, String.ofList_toList]

theorem readItems_itemChars : ∀ (xs : List Json) {n : Nat} {rest : List Char},
    2 * (itemChars xs).length ≤ n → readItems n (itemChars xs ++ rest) = some (xs, rest)
  | [], 0, rest, hn => absurd hn (by simp [itemChars])
  | [], n + 1, rest, _ => rfl
  | x :: xs, 0, rest, hn => absurd hn (by simp [itemChars])
  | x :: xs, n + 1, rest, hn => by
      simp only [itemChars, List.length_cons, List.length_append] at hn
      have hx : read n (chars x ++ (itemChars xs ++ rest)) = some (x, itemChars xs ++ rest) :=
        read_chars x (by cases xs <;> simp [itemChars, Stops]) (by omega)
      have hxs : readItems n (itemChars xs ++ rest) = some (xs, rest) :=
        readItems_itemChars xs (by omega)
      simp only [itemChars, List.cons_append, List.append_assoc, readItems, hx, hxs,
        Option.bind_some, Option.map_some]

theorem readFields_fieldChars : ∀ (kvs : List (String × Json)) {n : Nat} {rest : List Char},
    2 * (fieldChars kvs).length ≤ n → readFields n (fieldChars kvs ++ rest) = some (kvs, rest)
  | [], 0, rest, hn => absurd hn (by simp [fieldChars])
  | [], n + 1, rest, _ => rfl
  | (k, x) :: kvs, 0, rest, hn => absurd hn (by simp [fieldChars])
  | (k, x) :: kvs, n + 1, rest, hn => by
      simp only [fieldChars, List.length_cons, List.length_append] at hn
      have hx : read n (chars x ++ (fieldChars kvs ++ rest)) = some (x, fieldChars kvs ++ rest) :=
        read_chars x (by cases kvs <;> simp [fieldChars, Stops]) (by omega)
      have hkvs : readFields n (fieldChars kvs ++ rest) = some (kvs, rest) :=
        readFields_fieldChars kvs (by omega)
      simp only [fieldChars, List.cons_append, List.append_assoc, readFields, readQuoted_quoted,
        hx, hkvs, Option.bind_some, Option.map_some, String.ofList_toList]

end

end Json

/-- A codec that does what is assumed of `json`. -/
def jsonText : JsonCodec where
  dumps v := .ofList v.chars
  loads text :=
    match Json.read (2 * text.toList.length) text.toList with
    | some (v, []) => some v
    | _ => none
  fault _ := ⟨"Expecting value: line 1 column 1 (char 0)", "json.decoder.JSONDecodeError"⟩

theorem jsonText_lawful : jsonText.Lawful where
  dumps_null := by decide
  loads_dumps v := by
    have hread : Json.read (2 * v.chars.length) (v.chars ++ []) = some (v, []) :=
      Json.read_chars v trivial (Nat.le_refl _)
    rw [List.append_nil] at hread
    simp only [jsonText, String.toList_ofList, hread]

end Aegis
