/-
# `AegisWorkers.Parallel` — two machines side by side

`M.par N` runs `M` and `N` side by side, in any interleaving, with no state in common.  It
does what the two do alone, each on its own events (`exec_par`), so every interleaving of the
same events comes to the same states, the one after the other included.
-/
import AegisWorkers.Machine

namespace Machine

variable {σ τ ε δ : Type}

def par (M : Machine σ ε) (N : Machine τ δ) : Machine (σ × τ) (ε ⊕ δ) where
  step s
    | .inl e => (M.step s.1 e).map fun s' => (s', s.2)
    | .inr d => (N.step s.2 d).map fun t' => (s.1, t')

/-- The events of the first machine. -/
def lefts (es : List (ε ⊕ δ)) : List ε := es.filterMap Sum.getLeft?

/-- The events of the second. -/
def rights (es : List (ε ⊕ δ)) : List δ := es.filterMap Sum.getRight?

section Events
variable (e : ε) (d : δ) (es : List (ε ⊕ δ))

@[simp] theorem lefts_inl : lefts (Sum.inl e :: es) = e :: lefts es := rfl

@[simp] theorem lefts_inr : lefts (Sum.inr d :: es) = lefts es := rfl

@[simp] theorem rights_inl : rights (Sum.inl e :: es) = rights es := rfl

@[simp] theorem rights_inr : rights (Sum.inr d :: es) = d :: rights es := rfl

theorem lefts_sequence (es : List ε) (ds : List δ) :
    lefts (es.map Sum.inl ++ ds.map Sum.inr) = es := by
  simp [lefts, List.filterMap_append, List.filterMap_map, Function.comp_def]

theorem rights_sequence (es : List ε) (ds : List δ) :
    rights (es.map Sum.inl ++ ds.map Sum.inr) = ds := by
  simp [rights, List.filterMap_append, List.filterMap_map, Function.comp_def]

end Events

section Par
variable {M : Machine σ ε} {N : Machine τ δ} {s s' : σ} {t t' : τ} {es : List (ε ⊕ δ)}

/-- Side by side is what each does alone. -/
theorem exec_par : (M.par N).exec (s, t) es = some (s', t') ↔
    M.exec s (lefts es) = some s' ∧ N.exec t (rights es) = some t' := by
  induction es generalizing s t with
  | nil => simp [exec, lefts, rights]
  | cons x es ih =>
      cases x with
      | inl e =>
          simp only [lefts_inl, rights_inl, exec, par]
          cases hs : M.step s e with
          | none => simp
          | some s₁ => exact ih
      | inr d =>
          simp only [lefts_inr, rights_inr, exec, par]
          cases ht : N.step t d with
          | none => simp
          | some t₁ => exact ih

/-- One after the other comes to the same. -/
theorem exec_sequence (h : (M.par N).exec (s, t) es = some (s', t')) :
    (M.par N).exec (s, t) ((lefts es).map Sum.inl ++ (rights es).map Sum.inr) = some (s', t') := by
  rw [exec_par, lefts_sequence, rights_sequence]
  exact exec_par.mp h

theorem forall_events {p : ε → Prop} {q : δ → Prop} :
    (∀ x ∈ es, Sum.elim p q x) ↔ (∀ e ∈ lefts es, p e) ∧ ∀ d ∈ rights es, q d := by
  induction es with
  | nil => simp [lefts, rights]
  | cons x es ih =>
      cases x with
      | inl e =>
          rw [lefts_inl, rights_inl, List.forall_mem_cons, List.forall_mem_cons, ih, and_assoc]
          rfl
      | inr d =>
          rw [lefts_inr, rights_inr, List.forall_mem_cons, List.forall_mem_cons, ih, and_left_comm]
          rfl

end Par

end Machine
