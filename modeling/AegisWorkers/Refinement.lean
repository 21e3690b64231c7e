/-
# `AegisWorkers.Refinement` — what a machine does, told as steps of another

The upper level is a relation `N a x b`: from `a`, the action `x` may lead to `b`.  Its
runs are trails (`Trail`).  A machine refines it when each of its steps is a trail of the
upper level between the abstractions of its two states; the actions of the trails, put
together along a schedule, are the schedule's log.

    Trail N a xs b     the actions `xs` lead from `a` to `b`
    log tell s es     what `tell` says of the steps of the schedule `es`, the first first

`Run.refines` lifts a refinement from steps to runs, and `Run.invariant_log` is the rule
for an invariant that also reads the log.
-/
import AegisWorkers.Machine

/-- The labelled trails of the relation `N`. -/
inductive Trail {α l : Type} (N : α → l → α → Prop) : α → List l → α → Prop
  | nil (a : α) : Trail N a [] a
  | cons {a b d : α} {x : l} {xs : List l} : N a x b → Trail N b xs d → Trail N a (x :: xs) d

namespace Trail

variable {α l : Type} {N : α → l → α → Prop} {a b d : α} {x : l} {xs ys : List l}

theorem single (h : N a x b) : Trail N a [x] b := .cons h (.nil b)

theorem append (h : Trail N a xs b) (h' : Trail N b ys d) : Trail N a (xs ++ ys) d := by
  induction h with
  | nil _ => exact h'
  | cons hx _ ih => exact .cons hx (ih h')

/-- A trail in two parts. -/
theorem of_append (h : Trail N a (xs ++ ys) d) : ∃ b, Trail N a xs b ∧ Trail N b ys d := by
  induction xs generalizing a with
  | nil => exact ⟨a, .nil a, h⟩
  | cons x xs ih =>
      cases h with
      | cons hx hrest =>
          obtain ⟨b, h₁, h₂⟩ := ih hrest
          exact ⟨b, .cons hx h₁, h₂⟩

/-- What every action keeps to, a trail keeps to. -/
theorem rel {R : α → α → Prop} (hrefl : ∀ a, R a a) (htrans : ∀ {a b d}, R a b → R b d → R a d)
    (hstep : ∀ {a b x}, N a x b → R a b) (h : Trail N a xs b) : R a b := by
  induction h with
  | nil a => exact hrefl a
  | cons hx _ ih => exact htrans (hstep hx) ih

/-- The state an action of the trail is taken in, with what comes before and after. -/
theorem at_mem (h : Trail N a xs d) (hx : x ∈ xs) :
    ∃ before after s t, xs = before ++ x :: after ∧ Trail N a before s ∧ N s x t ∧
      Trail N t after d := by
  obtain ⟨before, after, rfl⟩ := List.append_of_mem hx
  obtain ⟨s, h₁, h₂⟩ := of_append h
  cases h₂ with
  | cons hs hrest => exact ⟨before, after, s, _, rfl, h₁, hs, hrest⟩

end Trail

namespace Machine

variable {σ ε α l : Type} {M : Machine σ ε} {P : σ → ε → Prop}

/-- The log of a schedule. -/
def log (M : Machine σ ε) (tell : σ → ε → List l) : σ → List ε → List l
  | _, [] => []
  | s, e :: es =>
      match M.step s e with
      | some s' => tell s e ++ log M tell s' es
      | none => []

section Log
variable {tell : σ → ε → List l} {s s' t : σ} {e : ε} {es fs : List ε}

theorem log_cons (hs : M.step s e = some s') :
    M.log tell s (e :: es) = tell s e ++ M.log tell s' es := by
  simp only [log, hs]

theorem Run.log_append (h : M.Run P s es t) :
    M.log tell s (es ++ fs) = M.log tell s es ++ M.log tell t fs := by
  induction h with
  | nil _ => rfl
  | cons _ hs _ ih => rw [List.cons_append, log_cons hs, log_cons hs, ih, List.append_assoc]

/-- A refinement by an abstraction function, from steps to runs. -/
theorem Run.refines {I : σ → Prop} {N : α → l → α → Prop} {view : σ → α} (h : M.Run P s es t)
    (hinv : ∀ {s s' : σ} {e : ε}, I s → P s e → M.step s e = some s' → I s')
    (hsim : ∀ {s s' : σ} {e : ε}, I s → P s e → M.step s e = some s' →
      Trail N (view s) (tell s e) (view s')) :
    I s → Trail N (view s) (M.log tell s es) (view t) := by
  induction h with
  | nil s => exact fun _ => .nil _
  | cons hP hs _ ih =>
      intro hi
      rw [log_cons hs]
      exact (hsim hi hP hs).append (ih (hinv hi hP hs))

/-- What depends on the state and on the log so far, and is preserved by every allowed step. -/
theorem Run.invariant_log {I : List l → σ → Prop} (h : M.Run P s es t) (tell : σ → ε → List l)
    (hstep : ∀ {p : List l} {s s' : σ} {e : ε}, I p s → P s e → M.step s e = some s' →
      I (p ++ tell s e) s') (p : List l) :
    I p s → I (p ++ M.log tell s es) t := by
  induction h generalizing p with
  | nil _ =>
      intro hi
      rw [log, List.append_nil]
      exact hi
  | cons hP hs _ ih =>
      intro hi
      rw [log_cons hs, ← List.append_assoc]
      exact ih _ (hstep hi hP hs)

end Log

end Machine
