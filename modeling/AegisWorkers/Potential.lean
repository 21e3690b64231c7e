/-
# `AegisWorkers.Potential` — costs along a run, paid by a potential

Amortized analysis of a machine.  A step costs something, and the state has a potential.
If every step pays for itself out of the potential it uses up, a run costs no more than the
potential it starts with (`Run.spends`).  If it may also pay out of an income, a run costs no
more than its potential and its income (`Run.accounts`), and where every step balances
exactly so does a run (`Run.balances`).

    total f s es   the sum of `f` along the schedule `es`
-/
import AegisWorkers.Machine

namespace Machine

variable {σ ε : Type} {M : Machine σ ε} {P : σ → ε → Prop}

/-- The sum of `f` along a schedule. -/
def total (M : Machine σ ε) (f : σ → ε → Nat) : σ → List ε → Nat
  | _, [] => 0
  | s, e :: es =>
      match M.step s e with
      | some s' => f s e + total M f s' es
      | none => 0

section Total
variable {f : σ → ε → Nat} {s s' t : σ} {e : ε} {es : List ε}

theorem total_cons (hs : M.step s e = some s') :
    M.total f s (e :: es) = f s e + M.total f s' es := by
  simp only [total, hs]

theorem Run.total_mul (h : M.Run P s es t) (k : Nat) :
    M.total (fun s e => k * f s e) s es = k * M.total f s es := by
  induction h with
  | nil _ => rfl
  | cons _ hs _ ih => rw [total_cons hs, total_cons hs, ih, Nat.mul_add]

/-- A cost of one for each event of a kind counts them. -/
theorem Run.total_count {q : ε → Bool} (h : M.Run P s es t) :
    M.total (fun _ e => if q e then 1 else 0) s es = es.countP q := by
  induction h with
  | nil _ => rfl
  | cons _ hs _ ih => rw [total_cons hs, ih, List.countP_cons, Nat.add_comm]

/-- A run whose steps all lower `μ` is no longer than `μ` at its start. -/
theorem length_le_of_exec (μ : σ → Nat)
    (hstep : ∀ {s s' : σ} {e : ε}, M.step s e = some s' → μ s' < μ s) :
    M.exec s es = some t → μ t + es.length ≤ μ s := by
  induction es generalizing s with
  | nil =>
      intro h
      cases h
      exact Nat.le_refl _
  | cons e es ih =>
      intro h
      obtain ⟨s', hs, ht⟩ := Option.bind_eq_some_iff.mp h
      have hhead := hstep hs
      have htail := ih ht
      rw [List.length_cons]
      omega

/-- A run whose steps pay for themselves costs no more than the potential it uses up. -/
theorem Run.spends {I : σ → Prop} (h : M.Run P s es t) (Φ : σ → Nat) (cost : σ → ε → Nat)
    (hinv : ∀ {s s' : σ} {e : ε}, I s → P s e → M.step s e = some s' → I s')
    (hstep : ∀ {s s' : σ} {e : ε}, I s → P s e → M.step s e = some s' →
      Φ s' + cost s e ≤ Φ s) :
    I s → Φ t + M.total cost s es ≤ Φ s := by
  induction h with
  | nil s => exact fun _ => Nat.le_refl _
  | cons hP hs _ ih =>
      intro hi
      have hhead := hstep hi hP hs
      have htail := ih (hinv hi hP hs)
      rw [total_cons hs]
      omega

/-- A run whose steps balance what they pay against what they earn balances as a whole. -/
theorem Run.balances {I : σ → Prop} (h : M.Run P s es t) (Φ : σ → Nat)
    (paid earned : σ → ε → Nat)
    (hinv : ∀ {s s' : σ} {e : ε}, I s → P s e → M.step s e = some s' → I s')
    (hstep : ∀ {s s' : σ} {e : ε}, I s → P s e → M.step s e = some s' →
      Φ s' + paid s e = Φ s + earned s e) :
    I s → Φ t + M.total paid s es = Φ s + M.total earned s es := by
  induction h with
  | nil s => exact fun _ => rfl
  | cons hP hs _ ih =>
      intro hi
      have hhead := hstep hi hP hs
      have htail := ih (hinv hi hP hs)
      rw [total_cons hs, total_cons hs]
      omega

/-- With an income, and where the state itself counts what has been spent and earned so far. -/
theorem Run.accounts {I : σ → Prop} (h : M.Run P s es t) (Φ spent earned : σ → Nat)
    (income : σ → ε → Nat)
    (hinv : ∀ {s s' : σ} {e : ε}, I s → P s e → M.step s e = some s' → I s')
    (hstep : ∀ {s s' : σ} {e : ε}, I s → P s e → M.step s e = some s' →
      Φ s' + spent s' + earned s ≤ Φ s + spent s + earned s' + income s e) :
    I s → Φ t + spent t + earned s ≤ Φ s + spent s + earned t + M.total income s es := by
  induction h with
  | nil s => exact fun _ => Nat.le_refl _
  | cons hP hs _ ih =>
      intro hi
      have hhead := hstep hi hP hs
      have htail := ih (hinv hi hP hs)
      rw [total_cons hs]
      omega

end Total

end Machine
