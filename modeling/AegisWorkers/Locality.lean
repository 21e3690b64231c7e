/-
# `AegisWorkers.Locality` — programs that keep to their own part of the state

A state is looked at through its *cells* (`cells s i`, of any types) and its *total*, which
is only ever added to: counters, and bags of messages.  A program is local to a set `S` of
cells if what it does depends on the cells in `S` and changes no other.  Two programs local
to disjoint sets can be run in either order.

    Within S F           the transformer `F` of cells reads and writes in `S` only
    Alike S s s' t t'    from `s` to `s'` and from `t` to `t'` the same is done, within `S`
    Moves R S f s t      `f` does the same at `s` and at `t`, and its results are related by `R`
    play ended step is s  steps, each with an input of `is`, until `ended`

`moves_play` is the induction rule for `play`: programs are shown local step by step, and
with a rank that falls they come to their end.  `commute` is the rule for two programs.
-/
import Mathlib

namespace Locality

variable {ι : Type} {α : ι → Type}

/-! ## Transformers of cells -/

/-- `F` changes cells in `S` only, and the change depends on cells in `S` only. -/
structure Within (S : Set ι) (F : (∀ i, α i) → ∀ i, α i) : Prop where
  writes : ∀ v, ∀ i ∉ S, F v i = v i
  reads : ∀ v v', (∀ i ∈ S, v i = v' i) → ∀ i ∈ S, F v i = F v' i

variable {S T : Set ι} {F G : (∀ i, α i) → ∀ i, α i}

theorem within_id : Within S fun v : ∀ i, α i => v := ⟨fun _ _ _ => rfl, fun _ _ h => h⟩

theorem Within.comp (hG : Within S G) (hF : Within S F) : Within S fun v => G (F v) where
  writes v i hi := (hG.writes _ i hi).trans (hF.writes v i hi)
  reads v v' h := hG.reads _ _ (hF.reads v v' h)

/-- One cell changes, by what it held. -/
theorem within_update [DecidableEq ι] {i : ι} (hi : i ∈ S) (g : α i → α i) :
    Within S fun v : ∀ i, α i => Function.update v i (g (v i)) where
  writes v j hj := by
    refine Function.update_of_ne ?_ ..
    rintro rfl
    exact hj hi
  reads v v' h := by
    intro j hj
    by_cases hij : j = i
    · subst hij
      rw [Function.update_self, Function.update_self, h j hj]
    · rw [Function.update_of_ne hij, Function.update_of_ne hij, h j hj]

/-- Transformers within disjoint sets commute. -/
theorem Within.commute (hF : Within S F) (hG : Within T G) (hST : Disjoint S T) (v : ∀ i, α i) :
    F (G v) = G (F v) := by
  have hS : ∀ i ∈ S, i ∉ T := fun i hi hi' => Set.disjoint_left.mp hST hi hi'
  have hT : ∀ i ∈ T, i ∉ S := fun i hi hi' => Set.disjoint_left.mp hST hi' hi
  funext i
  by_cases hi : i ∈ S
  · rw [hG.writes _ i (hS i hi)]
    exact hF.reads _ _ (fun j hj => hG.writes v j (hS j hj)) i hi
  · rw [hF.writes _ i hi]
    by_cases hi' : i ∈ T
    · exact hG.reads _ _ (fun j hj => (hF.writes v j (hT j hj)).symm) i hi'
    · rw [hG.writes _ i hi', hG.writes _ i hi', hF.writes _ i hi]

/-! ## Moves -/

variable {σ κ M : Type} [AddCommMonoid M] (cells : σ → ∀ i, α i) (total : σ → M)

/-- From `s` to `s'` and from `t` to `t'` the cells change by one transformer within `S`,
and the total grows by one amount. -/
def Alike (S : Set ι) (s s' t t' : σ) : Prop :=
  ∃ F d, Within S F ∧ cells s' = F (cells s) ∧ cells t' = F (cells t) ∧
    total s' = total s + d ∧ total t' = total t + d

/-- `f` does the same at `s` and at `t`. -/
def Moves (R : σ → σ → Prop) (S : Set ι) (f : σ → Option σ) (s t : σ) : Prop :=
  ∃ s' t', f s = some s' ∧ f t = some t' ∧ R s' t' ∧ Alike cells total S s s' t t'

/-- Steps until `ended`, with an input for each. -/
def play (ended : σ → Bool) (step : κ → σ → Option σ) : List κ → σ → Option σ
  | [], s => if ended s then some s else none
  | k :: ks, s => if ended s then some s else (step k s).bind (play ended step ks)

variable {cells total} {R : σ → σ → Prop}

theorem alike_refl (S : Set ι) (s t : σ) : Alike cells total S s s t t :=
  ⟨_, 0, within_id, rfl, rfl, (add_zero _).symm, (add_zero _).symm⟩

theorem Alike.trans {s s' s'' t t' t'' : σ} (h : Alike cells total S s s' t t')
    (h' : Alike cells total S s' s'' t' t'') : Alike cells total S s s'' t t'' := by
  obtain ⟨F, d, hF, hs, ht, hsd, htd⟩ := h
  obtain ⟨G, e, hG, hs', ht', hsd', htd'⟩ := h'
  refine ⟨_, d + e, hG.comp hF, ?_, ?_, ?_, ?_⟩
  · rw [hs', hs]
  · rw [ht', ht]
  · rw [hsd', hsd, add_assoc]
  · rw [htd', htd, add_assoc]

/-- What agrees on `S` before agrees on `S` after. -/
theorem Alike.agree {s s' t t' : σ} (h : Alike cells total S s s' t t')
    (hst : ∀ i ∈ S, cells t i = cells s i) : ∀ i ∈ S, cells t' i = cells s' i := by
  obtain ⟨F, d, hF, hs, ht, -, -⟩ := h
  intro i hi
  rw [hs, ht]
  exact hF.reads _ _ hst i hi

/-- What is done within `S` leaves a set disjoint from `S` alone. -/
theorem Alike.stays {s s' t t' : σ} (h : Alike cells total S s s' t t') (hST : Disjoint S T) :
    ∀ i ∈ T, cells s' i = cells s i := by
  obtain ⟨F, d, hF, hs, -, -, -⟩ := h
  intro i hi
  rw [hs]
  exact hF.writes _ i fun hi' => Set.disjoint_left.mp hST hi' hi

theorem Moves.congr {f f' : σ → Option σ} {s t : σ} (h : Moves cells total R S f s t)
    (hs : f' s = f s) (ht : f' t = f t) : Moves cells total R S f' s t := by
  unfold Moves
  rw [hs, ht]
  exact h

theorem Moves.mono {Q : σ → σ → Prop} {f : σ → Option σ} {s t : σ}
    (h : Moves cells total R S f s t) (hRQ : ∀ {s' t'}, R s' t' → Q s' t') :
    Moves cells total Q S f s t := by
  obtain ⟨s', t', hs, ht, hR, ha⟩ := h
  exact ⟨s', t', hs, ht, hRQ hR, ha⟩

theorem Moves.bind {Q : σ → σ → Prop} {f g : σ → Option σ} {s t : σ}
    (h : Moves cells total R S f s t)
    (hg : ∀ {s' t'}, R s' t' → Moves cells total Q S g s' t') :
    Moves cells total Q S (fun s => (f s).bind g) s t := by
  obtain ⟨s', t', hs, ht, hR, ha⟩ := h
  obtain ⟨s'', t'', hs', ht', hQ, ha'⟩ := hg hR
  refine ⟨s'', t'', ?_, ?_, hQ, ha.trans ha'⟩
  · exact (congrArg (Option.bind · g) hs).trans hs'
  · exact (congrArg (Option.bind · g) ht).trans ht'

/-- A program whose every step is local is local, and it ends when the steps lower a rank. -/
theorem moves_play {ended : σ → Bool} {step : κ → σ → Option σ} (rank : σ → Nat)
    (hover : ∀ {s t}, R s t → ended t = ended s) (hrank : ∀ {s t}, R s t → rank s = 0 → ended s)
    (hstep : ∀ k {s t}, R s t → ended s = false →
      Moves cells total (fun s' t' => R s' t' ∧ rank s' < rank s) S (step k) s t) :
    ∀ {ks : List κ} {s t : σ}, R s t → rank s ≤ ks.length →
      Moves cells total (fun s' t' => R s' t' ∧ ended s') S (play ended step ks) s t := by
  intro ks
  induction ks with
  | nil =>
      intro s t hR hle
      have hs := hrank hR (Nat.le_zero.mp hle)
      have ht := (hover hR).trans hs
      exact ⟨s, t, if_pos hs, if_pos ht, ⟨hR, hs⟩, alike_refl ..⟩
  | cons k ks ih =>
      intro s t hR hle
      have hover' := hover hR
      cases hs : ended s with
      | true => exact ⟨s, t, if_pos hs, if_pos (hover'.trans hs), ⟨hR, hs⟩, alike_refl ..⟩
      | false =>
          have hfalse : ∀ {s}, ended s = false →
              play ended step (k :: ks) s = (step k s).bind (play ended step ks) := by
            intro s hs
            simp only [play, hs, Bool.false_eq_true, if_false]
          refine ((hstep k hR hs).bind ?_).congr (hfalse hs) (hfalse (hover'.trans hs))
          rintro s' t' ⟨hR', hlt⟩
          exact ih hR' (Nat.le_of_lt_succ (Nat.lt_of_lt_of_le hlt hle))

/-- Two programs local to disjoint sets of cells, in either order: the cells and the total
come out the same, and each program leaves its own cells the same. -/
theorem commute {Q : σ → Prop} {f g : σ → Option σ} {s : σ} (hST : Disjoint S T) (hs : Q s)
    (hf : ∀ t, Q t → (∀ i ∈ S, cells t i = cells s i) →
      Moves cells total (fun _ t' => Q t') S f s t)
    (hg : ∀ t, Q t → (∀ i ∈ T, cells t i = cells s i) →
      Moves cells total (fun _ t' => Q t') T g s t) :
    ∃ s₁ s₂ s₁₂ s₂₁, f s = some s₁ ∧ g s = some s₂ ∧ g s₁ = some s₁₂ ∧ f s₂ = some s₂₁ ∧
      cells s₁₂ = cells s₂₁ ∧ total s₁₂ = total s₂₁ ∧
      (∀ i ∈ S, cells s₂₁ i = cells s₁ i) ∧ ∀ i ∈ T, cells s₁₂ i = cells s₂ i := by
  obtain ⟨s₁, s₁', hfs, hfs', hQ₁, ha₁⟩ := hf s hs fun _ _ => rfl
  obtain ⟨s₂, s₂', hgs, hgs', hQ₂, ha₂⟩ := hg s hs fun _ _ => rfl
  obtain rfl : s₁ = s₁' := Option.some.inj (hfs.symm.trans hfs')
  obtain rfl : s₂ = s₂' := Option.some.inj (hgs.symm.trans hgs')
  have hS := ha₂.stays hST.symm
  have hT := ha₁.stays hST
  obtain ⟨s₁', s₂₁, hfs', hfs₂, -, ha⟩ := hf s₂ hQ₂ hS
  obtain ⟨s₂', s₁₂, hgs', hgs₁, -, hb⟩ := hg s₁ hQ₁ hT
  obtain rfl : s₁ = s₁' := Option.some.inj (hfs.symm.trans hfs')
  obtain rfl : s₂ = s₂' := Option.some.inj (hgs.symm.trans hgs')
  have hagree := ha.agree hS
  have hagree' := hb.agree hT
  obtain ⟨F, d, hF, hF₁, hF₂₁, hd₁, hd₂₁⟩ := ha
  obtain ⟨G, e, hG, hG₂, hG₁₂, he₂, he₁₂⟩ := hb
  refine ⟨s₁, s₂, s₁₂, s₂₁, hfs, hgs, hgs₁, hfs₂, ?_, ?_, hagree, hagree'⟩
  · rw [hG₁₂, hF₁, hF₂₁, hG₂]
    exact (hF.commute hG hST _).symm
  · rw [he₁₂, hd₁, hd₂₁, he₂]
    exact add_right_comm _ _ _

end Locality
