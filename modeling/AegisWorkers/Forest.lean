/-
# `AegisWorkers.Forest` — parent pointers that lower a rank

A set of nodes, each with at most one parent, and a rank that is one more than the
parent's.  Climbing from a node then reaches a root in exactly as many steps as the
node's rank says, and meets no node twice.

    climb parent n a          the node `n` steps above `a`
    Ranked parent rank P      the parents of the nodes in `P` are in `P`, one rank lower

`Ranked.exists_root` and `Ranked.climb_inj` are these two facts, and `climb_rel` carries
what holds between a node and its parent to a whole climb.
-/
import Mathlib.Logic.Basic

namespace Forest

variable {α : Type} (parent : α → Option α)

/-- The node `n` steps above `a`. -/
def climb : Nat → α → Option α
  | 0, a => some a
  | n + 1, a => (parent a).bind (climb n)

/-- The nodes in `P` form a forest in which `rank` is the distance to the root. -/
structure Ranked (rank : α → Nat) (P : α → Prop) : Prop where
  root : ∀ a, P a → parent a = none → rank a = 0
  child : ∀ a b, P a → parent a = some b → P b ∧ rank a = rank b + 1

variable {parent} {rank : α → Nat} {P : α → Prop}

theorem climb_succ {n : Nat} {a c : α} :
    climb parent (n + 1) a = some c ↔ ∃ b, parent a = some b ∧ climb parent n b = some c :=
  Option.bind_eq_some_iff

/-- What holds between a node and its parent holds along a climb, if it composes. -/
theorem climb_rel {R : α → α → Prop} (hrefl : ∀ a, R a a)
    (htrans : ∀ {a b c}, R a b → R b c → R a c)
    (hP : ∀ a b, P a → parent a = some b → P b ∧ R a b) :
    ∀ {n : Nat} {a b : α}, P a → climb parent n a = some b → P b ∧ R a b
  | 0, a, b, ha, h => by
      obtain rfl : a = b := Option.some.inj h
      exact ⟨ha, hrefl a⟩
  | n + 1, a, b, ha, h => by
      obtain ⟨c, hc, hb⟩ := climb_succ.mp h
      obtain ⟨hPc, hac⟩ := hP a c ha hc
      obtain ⟨hPb, hcb⟩ := climb_rel hrefl htrans hP hPc hb
      exact ⟨hPb, htrans hac hcb⟩

/-- A climb stays in a set that holds the parents of its nodes. -/
theorem climb_mem (hP : ∀ a b, P a → parent a = some b → P b) :
    ∀ {n : Nat} {a b : α}, P a → climb parent n a = some b → P b
  | 0, a, b, ha, h => by
      obtain rfl : a = b := Option.some.inj h
      exact ha
  | n + 1, a, b, ha, h => by
      obtain ⟨c, hc, hb⟩ := climb_succ.mp h
      exact climb_mem hP (hP a c ha hc) hb

/-- Two forests that agree on such a set have the same climbs from it. -/
theorem climb_congr {parent' : α → Option α} (hP : ∀ a b, P a → parent a = some b → P b)
    (heq : ∀ a, P a → parent' a = parent a) :
    ∀ {n : Nat} {a : α}, P a → climb parent' n a = climb parent n a
  | 0, a, _ => rfl
  | n + 1, a, ha => by
      show (parent' a).bind (climb parent' n) = (parent a).bind (climb parent n)
      rw [heq a ha]
      cases hp : parent a with
      | none => rfl
      | some b => exact climb_congr hP heq (hP a b ha hp)

namespace Ranked

theorem climb_rank (h : Ranked parent rank P) :
    ∀ {n : Nat} {a b : α}, P a → climb parent n a = some b → P b ∧ rank b + n = rank a
  | 0, a, b, ha, hb => by
      obtain rfl : a = b := Option.some.inj hb
      exact ⟨ha, rfl⟩
  | n + 1, a, b, ha, hb => by
      obtain ⟨c, hc, hb⟩ := climb_succ.mp hb
      obtain ⟨hPc, hrank⟩ := h.child a c ha hc
      obtain ⟨hPb, hn⟩ := h.climb_rank hPc hb
      exact ⟨hPb, by omega⟩

/-- Climbing as far as the rank says ends at a root. -/
theorem exists_root (h : Ranked parent rank P) :
    ∀ {n : Nat} {a : α}, P a → rank a = n →
      ∃ r, climb parent n a = some r ∧ P r ∧ parent r = none
  | 0, a, ha, hn => by
      refine ⟨a, rfl, ha, ?_⟩
      cases hp : parent a with
      | none => rfl
      | some b =>
          have hrank := (h.child a b ha hp).2
          omega
  | n + 1, a, ha, hn => by
      cases hp : parent a with
      | none =>
          have hzero := h.root a ha hp
          omega
      | some b =>
          obtain ⟨hPb, hrank⟩ := h.child a b ha hp
          obtain ⟨r, hr, hPr, hroot⟩ := h.exists_root (n := n) hPb (by omega)
          exact ⟨r, climb_succ.mpr ⟨b, hp, hr⟩, hPr, hroot⟩

/-- A climb meets no node twice. -/
theorem climb_inj (h : Ranked parent rank P) {m n : Nat} {a b : α} (ha : P a)
    (hm : climb parent m a = some b) (hn : climb parent n a = some b) : m = n := by
  have hm' := (h.climb_rank ha hm).2
  have hn' := (h.climb_rank ha hn).2
  omega

/-- A climb is at a root exactly when it has gone as far as the rank says. -/
theorem root_iff (h : Ranked parent rank P) {n : Nat} {a b : α} (ha : P a)
    (hb : climb parent n a = some b) : parent b = none ↔ n = rank a := by
  obtain ⟨hPb, hrank⟩ := h.climb_rank ha hb
  constructor
  · intro hroot
    have hzero := h.root b hPb hroot
    omega
  · intro hn
    cases hp : parent b with
    | none => rfl
    | some c =>
        have hchild := (h.child b c hPb hp).2
        omega

end Ranked

end Forest
