import Sirius.Common.Run

/-!
# Runs and their traces

What a run has done is the list of its actions, so a property that speaks of what has happened
relates the actions so far to the state reached.

* `run_trace_invariant`: such a property holds of every run if it holds at the start and every
  step keeps it.
* `observed`: what the steps of a run show, in order.
* `Meets.decide`: whether the steps of a run meet a condition can be computed.
* `length_run_le`: a system whose steps all lower a measure has no run longer than the measure.
-/

namespace Sirius.Common

variable {σ α : Type*} {step : σ → α → Option σ}

theorem run_concat {s s' : σ} {as : List α} {a : α} :
    run step s (as ++ [a]) = some s' ↔ ∃ s₁, run step s as = some s₁ ∧ step s₁ a = some s' := by
  rw [run_append, Option.bind_eq_some_iff]
  simp only [run_cons, run_nil, Option.bind_fun_some]

/-- What the empty trace has and every step keeps, every trace has. -/
theorem run_trace_invariant {I : List α → σ → Prop} {s : σ} (h0 : I [] s)
    (hstep : ∀ as s₁ a s₂, run step s as = some s₁ → I as s₁ → step s₁ a = some s₂ →
      I (as ++ [a]) s₂) {as : List α} {s' : σ} (h : run step s as = some s') : I as s' := by
  induction as using List.reverseRecOn generalizing s' with
  | nil =>
    cases h
    exact h0
  | append_singleton as a ih =>
    obtain ⟨s₁, h₁, h₂⟩ := run_concat.mp h
    exact hstep as s₁ a s' h₁ (ih h₁) h₂

/-- What the steps of a run show, in order. -/
def observed {β : Type*} (step : σ → α → Option σ) (obs : σ → α → List β) : σ → List α → List β
  | _, [] => []
  | s, a :: as => obs s a ++ ((step s a).elim [] fun s₁ => observed step obs s₁ as)

instance Meets.decide (step : σ → α → Option σ) (ok : σ → α → Prop)
    [∀ s a, Decidable (ok s a)] : (s : σ) → (as : List α) → Decidable (Meets step ok s as)
  | _, [] => .isTrue trivial
  | s, a :: as =>
    if hok : ok s a then
      match h : step s a with
      | none => .isTrue ⟨hok, fun _ h' => nomatch h.symm.trans h'⟩
      | some s1 =>
        match Meets.decide step ok s1 as with
        | .isTrue hrest => .isTrue (Meets.cons hok h hrest)
        | .isFalse hrest => .isFalse fun hmeets => hrest (hmeets.2 s1 h)
    else .isFalse fun hmeets => hok hmeets.1

/-- A run is no longer than the measure that its steps lower. -/
theorem length_run_le (work : σ → ℕ) {I : σ → Prop}
    (hinv : ∀ s a s', I s → step s a = some s' → I s')
    (hwork : ∀ s a s', I s → step s a = some s' → work s' < work s) {s s' : σ} {as : List α}
    (h0 : I s) (h : run step s as = some s') : as.length + work s' ≤ work s := by
  induction as generalizing s with
  | nil =>
    cases h
    simp
  | cons a as ih =>
    obtain ⟨s₁, h₁, h₂⟩ := Option.bind_eq_some_iff.mp h
    have := ih (hinv s a s₁ h0 h₁) h₂
    have := hwork s a s₁ h0 h₁
    rw [List.length_cons]
    omega

end Sirius.Common
