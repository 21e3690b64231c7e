/-
# `AegisWorkers.Dispatch` — attribute lookup, and calls that hand their arguments on

Classes with single inheritance and objects with a dictionary of their own, as in Python: an
attribute is looked up in the object and then along the classes.  A function whose body only
hands its arguments on is known by the function it hands them to, so a call enters a sequence
of functions, and evaluates to something only if that sequence ends.

    o.attr a            the attribute `a` of the object
    entered next f n    the function entered after `n` calls, beginning with `f`
    Reaches next f g    the calls that begin with `f` enter `g`

The sequence ends exactly where the relation "hands on to" is well-founded (`ends_iff_acc`),
and not where every function of a set hands on to one of the set (`not_acc_of_closed`).
-/
import Mathlib.Logic.Basic

namespace Dispatch

variable {F : Type}

/-! ## Attributes -/

/-- A class: the attributes of its own, and its base. -/
inductive Class (F : Type) where
  | object
  | sub (attrs : String → Option F) (base : Class F)

/-- The attribute of a class, or of the first base that has it. -/
def Class.attr : Class F → String → Option F
  | .object, _ => none
  | .sub attrs base, a => (attrs a).or (base.attr a)

structure Object (F : Type) where
  dict : String → Option F
  cls : Class F

def Object.attr (o : Object F) (a : String) : Option F := (o.dict a).or (o.cls.attr a)

theorem Class.attr_own {attrs : String → Option F} {base : Class F} {a : String} {f : F}
    (h : attrs a = some f) : (Class.sub attrs base).attr a = some f := by
  rw [Class.attr, h, Option.some_or]

theorem Class.attr_inherited {attrs : String → Option F} {base : Class F} {a : String}
    (h : attrs a = none) : (Class.sub attrs base).attr a = base.attr a := by
  rw [Class.attr, h, Option.none_or]

theorem Object.attr_own {o : Object F} {a : String} {f : F} (h : o.dict a = some f) :
    o.attr a = some f := by
  rw [Object.attr, h, Option.some_or]

theorem Object.attr_inherited {o : Object F} {a : String} (h : o.dict a = none) :
    o.attr a = o.cls.attr a := by
  rw [Object.attr, h, Option.none_or]

/-! ## Calls -/

section Calls
variable {next : F → Option F} {f g : F}

/-- The function entered after `n` calls; `none` when there is no further call. -/
def entered (next : F → Option F) (f : F) : Nat → Option F
  | 0 => some f
  | n + 1 => (entered next f n).bind next

/-- The calls that begin with `f` enter `g`. -/
def Reaches (next : F → Option F) (f g : F) : Prop := ∃ n, entered next f n = some g

/-- `g` is called by `f`. -/
def Calls (next : F → Option F) (g f : F) : Prop := next f = some g

theorem entered_succ (next : F → Option F) (f : F) (n : Nat) :
    entered next f (n + 1) = (next f).bind fun g => entered next g n := by
  induction n with
  | zero => exact (Option.bind_fun_some (next f)).symm
  | succ n ih =>
      rw [entered, ih, Option.bind_assoc]
      rfl

/-- Nothing is entered after the last call. -/
theorem entered_none (next : F → Option F) {f : F} {n m : Nat} (h : entered next f n = none)
    (hm : n ≤ m) : entered next f m = none := by
  induction hm with
  | refl => exact h
  | step _ ih => rw [entered, ih, Option.bind_none]

/-- A function that hands its arguments on to no other is entered once at most. -/
theorem entered_last (hg : next g = none) {n m : Nat} (hn : entered next f n = some g)
    (hm : entered next f m = some g) : n = m := by
  have hstop : ∀ {k : Nat}, entered next f k = some g → ∀ i, k < i → entered next f i = none := by
    intro k hk i hi
    refine entered_none next (n := k + 1) ?_ hi
    rw [entered, hk]
    exact hg
  rcases Nat.lt_trichotomy n m with hlt | rfl | hlt
  · rw [hstop hn m hlt] at hm
    cases hm
  · rfl
  · rw [hstop hm n hlt] at hn
    cases hn

/-- The calls that begin with `f` come to an end if and only if they are well-founded. -/
theorem ends_iff_acc : (∃ n, entered next f n = none) ↔ Acc (Calls next) f := by
  constructor
  · rintro ⟨n, hn⟩
    induction n generalizing f with
    | zero => cases hn
    | succ n ih =>
        refine .intro f ?_
        intro g hg
        rw [entered_succ, hg] at hn
        exact ih hn
  · intro h
    induction h with
    | intro f _ ih =>
        cases hg : next f with
        | none =>
            refine ⟨1, ?_⟩
            rw [entered_succ, hg]
            rfl
        | some g =>
            obtain ⟨n, hn⟩ := ih g hg
            refine ⟨n + 1, ?_⟩
            rw [entered_succ, hg]
            exact hn

/-- Calls that stay in a set of functions go on for ever. -/
theorem entered_of_closed {S : F → Prop} (hS : ∀ f, S f → ∃ g, next f = some g ∧ S g)
    (hf : S f) (n : Nat) : ∃ g, entered next f n = some g ∧ S g := by
  induction n with
  | zero => exact ⟨f, rfl, hf⟩
  | succ n ih =>
      obtain ⟨g, hg, hs⟩ := ih
      obtain ⟨g', hg', hs'⟩ := hS g hs
      refine ⟨g', ?_, hs'⟩
      rw [entered, hg]
      exact hg'

theorem not_acc_of_closed {S : F → Prop} (hS : ∀ f, S f → ∃ g, next f = some g ∧ S g)
    (hf : S f) : ¬ Acc (Calls next) f := by
  rw [← ends_iff_acc]
  rintro ⟨n, hn⟩
  obtain ⟨g, hg, -⟩ := entered_of_closed hS hf n
  rw [hn] at hg
  cases hg

theorem not_reaches_of_closed {S : F → Prop} (hS : ∀ f, S f → ∃ g, next f = some g ∧ S g)
    (hf : S f) (hg : ¬ S g) : ¬ Reaches next f g := by
  rintro ⟨n, hn⟩
  obtain ⟨g', hg', hs⟩ := entered_of_closed hS hf n
  rw [hn, Option.some.injEq] at hg'
  exact hg (hg' ▸ hs)

end Calls

end Dispatch
