import Mathlib

/-!
# Runs of an executable transition system

A system is a partial step function `step : σ → α → Option σ`: `step s a` is
the state after action `a`, or `none` when `a` is not possible in `s`. A run
is a list of actions. The actions carry every nondeterministic choice (which
thread moves, what the environment answers), so "for every interleaving" is
"for every list of actions".

* `run_invariant`: a property that holds at the start and that every step
  preserves holds at the end of every run.
* `guarded`: the same system restricted to the steps that meet a condition, so
  that a statement about the runs whose steps all meet it is a statement about
  the runs of `guarded step ok`.
* `Meets`: the steps of a given run all meet a condition, which need not be
  decidable.
-/

namespace Sirius.Common

variable {σ α : Type*}

/-- The state after the actions of a list, or `none` if one of them is not
    possible where it is taken. -/
def run (step : σ → α → Option σ) : σ → List α → Option σ
  | s, [] => some s
  | s, a :: as => (step s a).bind fun s' => run step s' as

variable {step : σ → α → Option σ}

@[simp] theorem run_nil (s : σ) : run step s [] = some s := rfl

@[simp] theorem run_cons (s : σ) (a : α) (as : List α) :
    run step s (a :: as) = (step s a).bind fun s' => run step s' as := rfl

theorem run_append (s : σ) (as bs : List α) :
    run step s (as ++ bs) = (run step s as).bind fun s' => run step s' bs := by
  induction as generalizing s with
  | nil => rfl
  | cons a as ih =>
    rw [List.cons_append, run_cons, run_cons]
    cases step s a with
    | none => rfl
    | some s' => exact ih s'

/-- Two runs one after the other. -/
theorem run_trans {s s' s'' : σ} {as bs : List α} (h1 : run step s as = some s')
    (h2 : run step s' bs = some s'') : run step s (as ++ bs) = some s'' := by
  rw [run_append, h1]
  exact h2

/-- What every step preserves, every run preserves. -/
theorem run_invariant {I : σ → Prop} (hstep : ∀ s a s', I s → step s a = some s' → I s')
    {s s' : σ} {as : List α} (h0 : I s) (h : run step s as = some s') : I s' := by
  induction as generalizing s with
  | nil => cases h; exact h0
  | cons a as ih =>
    obtain ⟨s1, h1, h2⟩ := Option.bind_eq_some_iff.mp h
    exact ih (hstep s a s1 h0 h1) h2

/-- The system `step` restricted to the steps that meet `ok`. -/
def guarded (step : σ → α → Option σ) (ok : σ → α → Prop) [∀ s a, Decidable (ok s a)] (s : σ)
    (a : α) : Option σ :=
  if ok s a then step s a else none

variable {ok : σ → α → Prop}

theorem guarded_eq_some [∀ s a, Decidable (ok s a)] {s s' : σ} {a : α} :
    guarded step ok s a = some s' ↔ ok s a ∧ step s a = some s' := by
  unfold guarded
  split_ifs with h <;> simp [h]

/-- Every action of the list meets `ok` in the state in which it is taken. -/
def Meets (step : σ → α → Option σ) (ok : σ → α → Prop) : σ → List α → Prop
  | _, [] => True
  | s, a :: as => ok s a ∧ ∀ s', step s a = some s' → Meets step ok s' as

theorem Meets.cons {s s1 : σ} {a : α} {as : List α} (hok : ok s a) (h : step s a = some s1)
    (hrest : Meets step ok s1 as) : Meets step ok s (a :: as) := by
  refine ⟨hok, fun s' h' => ?_⟩
  rw [h] at h'
  cases h'
  exact hrest

/-- What every step that meets `ok` preserves, every run of such steps preserves. -/
theorem Meets.run_invariant {I : σ → Prop}
    (hstep : ∀ s a s', I s → ok s a → step s a = some s' → I s') {s s' : σ} {as : List α}
    (hok : Meets step ok s as) (h0 : I s) (h : run step s as = some s') : I s' := by
  induction as generalizing s with
  | nil => cases h; exact h0
  | cons a as ih =>
    obtain ⟨s1, h1, h2⟩ := Option.bind_eq_some_iff.mp h
    exact ih (hok.2 s1 h1) (hstep s a s1 h0 hok.1 h1) h2

/-- Run a list of actions for each of `0, …, N - 1`. -/
theorem run_range (step : σ → α → Option σ) (as : ℕ → List α) {P : ℕ → σ → Prop} (N : ℕ)
    (hstep : ∀ n s, n < N → P n s → ∃ s', run step s (as n) = some s' ∧ P (n + 1) s') {s : σ}
    (h0 : P 0 s) : ∃ s', run step s ((List.range N).flatMap as) = some s' ∧ P N s' := by
  induction N with
  | zero => exact ⟨s, rfl, h0⟩
  | succ N ih =>
    obtain ⟨s1, h1, hp1⟩ := ih fun n s hn => hstep n s (by omega)
    obtain ⟨s2, h2, hp2⟩ := hstep N s1 (by omega) hp1
    refine ⟨s2, ?_, hp2⟩
    rw [List.range_succ, List.flatMap_append, List.flatMap_singleton]
    exact run_trans h1 h2

end Sirius.Common
