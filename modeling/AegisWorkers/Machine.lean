/-
# `AegisWorkers.Machine` — machines, runs under a policy, invariants

A machine is a partial step function: at a state, an event is either not
enabled or gives the one next state.  Everything that is nondeterministic in
the modelled system (who moves next, what an external call answers) is in the
event, so a list of events *is* a schedule and a run can be computed.

A run is taken under a *policy*, a predicate on the state and the event taken
there.  "No external call fails", "a message is delivered after the commit" are
policies, and so is the condition under which a racy program is right.

    Run P s es t      the events `es` lead from `s` to `t`, each allowed by `P`
    Along Q s es      each event of `es` satisfies `Q` where it is taken
    Throughout I s es each state `es` goes through satisfies `I`, given what led there
    exec s es         the state `es` leads to, computed
    past s es         the states `es` goes through, each with the event taken there

`run_and` splits a policy off a run, `Run.invariant` and `Run.along` are the induction
rules, `Run.invariant_past` is the rule for an invariant that also reads what happened
before, `Run.along_or` is the rule for a condition whose breach cannot be undone,
`reaches_of_measure` is the rule for what can be brought about, and `run_of_exec` and
`run_of_computed` turn a computed schedule into a run.
-/
import Mathlib.Logic.Basic

/-- A machine over states `σ` and events `ε`. -/
structure Machine (σ ε : Type) where
  step : σ → ε → Option σ

namespace Machine

variable {σ ε : Type} (M : Machine σ ε)

/-- The runs of `M` whose every event is allowed by `P`. -/
inductive Run (P : σ → ε → Prop) : σ → List ε → σ → Prop
  | nil (s : σ) : Run P s [] s
  | cons {s s' t : σ} {e : ε} {es : List ε} :
      P s e → M.step s e = some s' → Run P s' es t → Run P s (e :: es) t

/-- Every event of the schedule satisfies `Q` at the state it is taken from. -/
def Along (Q : σ → ε → Prop) : σ → List ε → Prop
  | _, [] => True
  | s, e :: es => Q s e ∧ ∀ s', M.step s e = some s' → Along Q s' es

/-- The state a schedule leads to, if every event of it is enabled. -/
def exec : σ → List ε → Option σ
  | s, [] => some s
  | s, e :: es => (M.step s e).bind fun s' => exec s' es

/-- What happened before `s` (`p`) and along the schedule from there, the latest first. -/
def past : List (σ × ε) → σ → List ε → List (σ × ε)
  | p, _, [] => p
  | p, s, e :: es =>
      match M.step s e with
      | some s' => past ((s, e) :: p) s' es
      | none => p

/-- `I` holds of every state the schedule goes through, and of the events that led there. -/
def Throughout (I : List ε → σ → Prop) (s : σ) (es : List ε) : Prop :=
  ∀ p t, p <+: es → M.exec s p = some t → I p t

instance decAlong (Q : σ → ε → Prop) [∀ s e, Decidable (Q s e)] :
    ∀ (s : σ) (es : List ε), Decidable (M.Along Q s es)
  | _, [] => isTrue trivial
  | s, e :: es =>
      match h : M.step s e with
      | none => decidable_of_iff (Q s e) (by simp [Along, h])
      | some s' =>
          have := decAlong Q s' es
          decidable_of_iff (Q s e ∧ M.Along Q s' es) (by simp [Along, h])

variable {M} {P Q : σ → ε → Prop}

/-- Along a schedule whose first event is enabled. -/
theorem along_cons {s s' : σ} {e : ε} {es : List ε} (hs : M.step s e = some s') :
    M.Along Q s (e :: es) ↔ Q s e ∧ M.Along Q s' es := by
  constructor
  · intro h
    exact ⟨h.1, h.2 s' hs⟩
  · rintro ⟨hQ, h⟩
    refine ⟨hQ, ?_⟩
    intro s'' hs''
    obtain rfl : s' = s'' := Option.some.inj (hs.symm.trans hs'')
    exact h

/-- Two conditions along a schedule. -/
theorem along_and {s : σ} {es : List ε} :
    M.Along (fun s e => P s e ∧ Q s e) s es ↔ M.Along P s es ∧ M.Along Q s es := by
  induction es generalizing s with
  | nil => exact ⟨fun _ => ⟨trivial, trivial⟩, fun _ => trivial⟩
  | cons e es ih =>
      constructor
      · rintro ⟨⟨hP, hQ⟩, h⟩
        exact ⟨⟨hP, fun s' hs => (ih.mp (h s' hs)).1⟩, hQ, fun s' hs => (ih.mp (h s' hs)).2⟩
      · rintro ⟨⟨hP, h⟩, hQ, h'⟩
        exact ⟨⟨hP, hQ⟩, fun s' hs => ih.mpr ⟨h s' hs, h' s' hs⟩⟩

theorem throughout_nil {I : List ε → σ → Prop} {s : σ} : M.Throughout I s [] ↔ I [] s := by
  constructor
  · intro h
    exact h [] s (List.prefix_refl []) rfl
  · intro hi p t hp ht
    obtain rfl := List.prefix_nil.mp hp
    exact Option.some.inj ht ▸ hi

/-- Throughout a schedule whose first event is enabled. -/
theorem throughout_cons {I : List ε → σ → Prop} {s s' : σ} {e : ε} {es : List ε}
    (hs : M.step s e = some s') :
    M.Throughout I s (e :: es) ↔ I [] s ∧ M.Throughout (fun p => I (e :: p)) s' es := by
  constructor
  · intro h
    refine ⟨h [] s (List.nil_prefix ..) rfl, ?_⟩
    intro p t hp ht
    refine h (e :: p) t ((List.prefix_cons_inj e).mpr hp) ?_
    simp only [exec, hs, Option.bind_some, ht]
  · rintro ⟨hi, h⟩ p t hp ht
    rcases List.prefix_cons_iff.mp hp with rfl | ⟨q, rfl, hq⟩
    · exact Option.some.inj ht ▸ hi
    · simp only [exec, hs, Option.bind_some] at ht
      exact h q t hq ht

/-! ## Composing and splitting runs -/

theorem Run.append {s t u : σ} {es fs : List ε} (h : M.Run P s es t) (h' : M.Run P t fs u) :
    M.Run P s (es ++ fs) u := by
  induction h with
  | nil _ => exact h'
  | cons hP hs _ ih => exact .cons hP hs (ih h')

/-- A run under two policies is a run under the first along which the second holds. -/
theorem run_and {s t : σ} {es : List ε} :
    M.Run (fun s e => P s e ∧ Q s e) s es t ↔ M.Run P s es t ∧ M.Along Q s es := by
  constructor
  · intro h
    induction h with
    | nil s => exact ⟨.nil s, trivial⟩
    | cons hPQ hs _ ih =>
        exact ⟨.cons hPQ.1 hs ih.1, (along_cons hs).mpr ⟨hPQ.2, ih.2⟩⟩
  · rintro ⟨h, hQ⟩
    induction h with
    | nil s => exact .nil s
    | cons hP hs _ ih =>
        obtain ⟨hQ', hrest⟩ := (along_cons hs).mp hQ
        exact .cons ⟨hP, hQ'⟩ hs (ih hrest)

/-! ## Computing runs -/

theorem run_of_exec {t : σ} :
    ∀ {s : σ} {es : List ε}, M.exec s es = some t → M.Along P s es → M.Run P s es t
  | s, [], h, _ => by
      obtain rfl : s = t := Option.some.inj h
      exact .nil s
  | s, e :: es, h, hP => by
      obtain ⟨s', hs, ht⟩ := Option.bind_eq_some_iff.mp h
      exact .cons hP.1 hs (run_of_exec ht (hP.2 s' hs))

theorem along_of_mem : ∀ (s : σ) (es : List ε), (∀ e ∈ es, ∀ s, Q s e) → M.Along Q s es
  | _, [], _ => trivial
  | s, e :: es, h => ⟨h e List.mem_cons_self s, fun s' _ =>
      along_of_mem s' es fun e' he' => h e' (List.mem_cons_of_mem e he')⟩

/-- A schedule that computes is a run under no policy. -/
theorem run_of_computed {s t : σ} {es : List ε} (h : M.exec s es = some t) :
    M.Run (fun _ _ => True) s es t :=
  run_of_exec h (along_of_mem s es fun _ _ _ => trivial)

theorem exec_append (M : Machine σ ε) (s : σ) (es fs : List ε) :
    M.exec s (es ++ fs) = (M.exec s es).bind fun t => M.exec t fs := by
  induction es generalizing s with
  | nil => rfl
  | cons e es ih =>
      rw [List.cons_append, exec, exec, Option.bind_assoc]
      exact congrArg _ (funext ih)

/-- A schedule that computes and keeps to its policy is a run. -/
theorem exists_run (M : Machine σ ε) (P : σ → ε → Prop) (s : σ) (es : List ε)
    (h : (M.exec s es).isSome) (hP : M.Along P s es) :
    ∃ t, M.exec s es = some t ∧ M.Run P s es t := by
  obtain ⟨t, ht⟩ := Option.isSome_iff_exists.mp h
  exact ⟨t, ht, run_of_exec ht hP⟩

/-- The same, with what is observed at the end. -/
theorem exists_run_obs {α : Type} (M : Machine σ ε) (P : σ → ε → Prop) (s : σ) (es : List ε)
    (f : σ → α) (v : α) (h : (M.exec s es).map f = some v) (hP : M.Along P s es) :
    ∃ t, M.exec s es = some t ∧ M.Run P s es t ∧ f t = v := by
  obtain ⟨t, ht, hv⟩ := Option.map_eq_some_iff.mp h
  exact ⟨t, ht, run_of_exec ht hP, hv⟩

/-! ## Invariants -/

/-- What holds at the start and is preserved by every allowed step holds at the end. -/
theorem Run.invariant {I : σ → Prop} {s t : σ} {es : List ε} (h : M.Run P s es t)
    (hstep : ∀ {s s' : σ} {e : ε}, I s → P s e → M.step s e = some s' → I s') :
    I s → I t := by
  induction h with
  | nil s => exact id
  | cons hP hs _ ih => exact fun hi => ih (hstep hi hP hs)

/-- Every event of a run keeps to a policy about events. -/
theorem Run.events {R : ε → Prop} {s t : σ} {es : List ε} (h : M.Run (fun _ e => R e) s es t) :
    ∀ e ∈ es, R e := by
  induction h with
  | nil s => exact fun e he => by cases he
  | cons hR _ _ ih => exact List.forall_mem_cons.mpr ⟨hR, ih⟩

/-- The same, for what also depends on the past. -/
theorem Run.invariant_past {I : List (σ × ε) → σ → Prop} {s t : σ} {es : List ε}
    (h : M.Run P s es t)
    (hstep : ∀ {p : List (σ × ε)} {s s' : σ} {e : ε}, I p s → P s e → M.step s e = some s' →
      I ((s, e) :: p) s') {p : List (σ × ε)} : I p s → I (M.past p s es) t := by
  induction h generalizing p with
  | nil s => exact id
  | cons hP hs _ ih =>
      intro hi
      simp only [past, hs]
      exact ih (hstep hi hP hs)

/-- The events of what happened. -/
theorem Run.past_events {s t : σ} {es : List ε} (h : M.Run P s es t) (p : List (σ × ε)) :
    (M.past p s es).map Prod.snd = es.reverse ++ p.map Prod.snd := by
  induction h generalizing p with
  | nil s => rfl
  | cons _ hs _ ih =>
      simp only [past, hs]
      rw [ih, List.map_cons, List.reverse_cons, List.append_assoc, List.singleton_append]

/-- A condition is kept all along, if a breach of it leaves a mark that stays and the
end bears none. -/
theorem Run.along_or {I B : σ → Prop} {s t : σ} {es : List ε} (h : M.Run P s es t)
    (hinv : ∀ {s s' : σ} {e : ε}, I s → P s e → M.step s e = some s' → I s')
    (hmark : ∀ {s s' : σ} {e : ε}, I s → B s → P s e → M.step s e = some s' → B s')
    (hbreach : ∀ {s s' : σ} {e : ε}, I s → P s e → ¬ Q s e → M.step s e = some s' → B s') :
    I s → M.Along Q s es ∨ B t := by
  induction h with
  | nil s => exact fun _ => .inl trivial
  | @cons s s' t e es hP hs hrun ih =>
      intro hi
      have hi' := hinv hi hP hs
      by_cases hQ : Q s e
      · rcases ih hi' with halong | hm
        · exact .inl ((along_cons hs).mpr ⟨hQ, halong⟩)
        · exact .inr hm
      · refine .inr (hrun.invariant (I := fun s => I s ∧ B s) ?_
          ⟨hi', hbreach hi hP hQ hs⟩).2
        intro s s' e hw hP' hs'
        exact ⟨hinv hw.1 hP' hs', hmark hw.1 hw.2 hP' hs'⟩

/-- What an invariant says of every allowed step holds all along. -/
theorem Run.along {I : σ → Prop} {s t : σ} {es : List ε} (h : M.Run P s es t)
    (hinv : ∀ {s s' : σ} {e : ε}, I s → P s e → M.step s e = some s' → I s')
    (hQ : ∀ {s : σ} {e : ε}, I s → P s e → Q s e) : I s → M.Along Q s es := by
  induction h with
  | nil s => exact fun _ => trivial
  | cons hP hs _ ih =>
      intro hi
      exact (along_cons hs).mpr ⟨hQ hi hP, ih (hinv hi hP hs)⟩

/-- What some run brings nearer, as long as it is not reached, is reached. -/
theorem reaches_of_measure {I D : σ → Prop} (μ : σ → Nat)
    (hstep : ∀ s, I s → ¬ D s → ∃ es t, M.Run P s es t ∧ I t ∧ μ t < μ s) (s : σ) (hi : I s) :
    ∃ es t, M.Run P s es t ∧ I t ∧ D t := by
  induction hμ : μ s using Nat.strongRecOn generalizing s with
  | ind n ih =>
      by_cases hd : D s
      · exact ⟨[], s, .nil s, hi, hd⟩
      · obtain ⟨es, t, hrun, ht, hlt⟩ := hstep s hi hd
        obtain ⟨fs, u, hrun', hu⟩ := ih (μ t) (hμ ▸ hlt) t ht rfl
        exact ⟨es ++ fs, u, hrun.append hrun', hu⟩

/-- A run is a run under every policy that the invariant makes the steps keep to. -/
theorem Run.imp {I : σ → Prop} {s t : σ} {es : List ε} (h : M.Run P s es t)
    (hinv : ∀ {s s' : σ} {e : ε}, I s → P s e → M.step s e = some s' → I s')
    (hQ : ∀ {s : σ} {e : ε}, I s → P s e → Q s e) : I s → M.Run Q s es t := by
  induction h with
  | nil s => exact fun _ => .nil s
  | cons hP hs _ ih =>
      intro hi
      exact .cons (hQ hi hP) hs (ih (hinv hi hP hs))

end Machine
