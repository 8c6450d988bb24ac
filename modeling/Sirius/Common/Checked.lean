import Mathlib

/-!
# Computations that may throw

What a successful `Except` computation says about its steps. Each lemma turns an
equation `… = .ok b` into the same equation for a part of the computation, so
that a guard sequence is taken apart with `simp only` and read as the conjunction
of its conditions.
-/

namespace Sirius.Common

universe u v

variable {ε : Type u} {α β : Type v}

variable {f : α → Except ε β}

theorem bind_eq_ok {x : Except ε α} {b : β} : (x >>= f) = .ok b ↔ ∃ a, x = .ok a ∧ f a = .ok b := by
  cases x with
  | error e => simp [bind, Except.bind]
  | ok a => simp [bind, Except.bind]

/-- A step that returned. -/
theorem ok_bind (a : α) (f : α → Except ε β) : ((.ok a : Except ε α) >>= f) = f a := rfl

theorem pure_eq_ok {a b : α} : (pure a : Except ε α) = .ok b ↔ a = b := by
  simp [pure, Except.pure]

/-- A guard that throws. -/
theorem ite_error_eq_ok {p : Prop} [Decidable p] {e : ε} {x : Except ε α} {b : α} :
    (if p then .error e else x) = .ok b ↔ ¬p ∧ x = .ok b := by
  by_cases hp : p <;> simp [hp]

variable {σ : Type v} {xs : List α}

/-- A loop that throws does nothing else when it does not throw. -/
theorem foldlM_eq_ok {f : σ → α → Except ε σ} {g : σ → α → σ}
    (h : ∀ s, ∀ x ∈ xs, f s x = .ok (g s x)) (s : σ) : xs.foldlM f s = .ok (xs.foldl g s) := by
  induction xs generalizing s with
  | nil => rfl
  | cons x xs ih =>
    rw [List.foldlM_cons, h s x List.mem_cons_self]
    exact ih (fun s y hy => h s y (List.mem_cons_of_mem x hy)) (g s x)

/-- An invariant of a loop that returned. -/
theorem foldlM_invariant {I : σ → Prop} {f : σ → α → Except ε σ}
    (hf : ∀ s, ∀ x ∈ xs, ∀ s', f s x = .ok s' → I s → I s') {s t : σ} (hs : I s)
    (h : xs.foldlM f s = .ok t) : I t := by
  induction xs generalizing s with
  | nil =>
    obtain rfl := pure_eq_ok.mp h
    exact hs
  | cons x xs ih =>
    rw [List.foldlM_cons] at h
    obtain ⟨s', hx, h⟩ := bind_eq_ok.mp h
    exact ih (fun s y hy => hf s y (List.mem_cons_of_mem x hy))
      (hf s x List.mem_cons_self s' hx hs) h

/-- What each round of a loop establishes, when the later rounds keep it. -/
theorem foldlM_forall {P : σ → α → Prop} {f : σ → α → Except ε σ}
    (hstep : ∀ s, ∀ x ∈ xs, ∀ s', f s x = .ok s' → P s' x)
    (hkeep : ∀ s, ∀ x ∈ xs, ∀ s', f s x = .ok s' → ∀ y, P s y → P s' y) {s t : σ}
    (h : xs.foldlM f s = .ok t) : ∀ x ∈ xs, P t x := by
  induction xs generalizing s with
  | nil => simp
  | cons x xs ih =>
    rw [List.foldlM_cons] at h
    obtain ⟨s', hx, hrest⟩ := bind_eq_ok.mp h
    have hkeep' := fun s y hy => hkeep s y (List.mem_cons_of_mem x hy)
    intro y hy
    rcases List.mem_cons.mp hy with rfl | hy
    · exact foldlM_invariant (fun s z hz s'' hs => hkeep' s z hz s'' hs y)
        (hstep s y List.mem_cons_self s' hx) hrest
    · exact ih (fun s y hy => hstep s y (List.mem_cons_of_mem x hy)) hkeep' hrest y hy

/-- A loop of checks that returned. -/
theorem forall_of_forM_eq_ok {f : α → Except ε PUnit} (h : xs.forM f = .ok ⟨⟩) :
    ∀ x ∈ xs, f x = .ok ⟨⟩ := by
  induction xs with
  | nil => simp
  | cons x xs ih =>
    rw [List.forM] at h
    obtain ⟨_, hx, hrest⟩ := bind_eq_ok.mp h
    intro y hy
    rcases List.mem_cons.mp hy with rfl | hy
    · exact hx
    · exact ih hrest y hy

/-- A loop of checks that all pass. -/
theorem forM_eq_ok {f : α → Except ε PUnit} (h : ∀ x ∈ xs, f x = .ok ⟨⟩) : xs.forM f = .ok ⟨⟩ := by
  induction xs with
  | nil => rfl
  | cons x xs ih =>
    rw [List.forM, h x List.mem_cons_self]
    exact ih fun y hy => h y (List.mem_cons_of_mem x hy)

variable {ys : List β}

/-- A `mapM` that returns pairs every element with its result. -/
theorem forall₂_of_mapM_eq_ok
    (h : xs.mapM f = .ok ys) : List.Forall₂ (fun x y => f x = .ok y) xs ys := by
  induction xs generalizing ys with
  | nil =>
    obtain ⟨rfl⟩ := h
    exact .nil
  | cons x xs ih =>
    rw [List.mapM_cons] at h
    simp only [bind_eq_ok, pure_eq_ok] at h
    obtain ⟨y, hy, ys, hys, rfl⟩ := h
    exact .cons hy (ih hys)

theorem exists_of_forall₂ {α β : Type*} {R : α → β → Prop} {xs : List α} {ys : List β}
    (h : List.Forall₂ R xs ys) : ∀ x ∈ xs, ∃ y ∈ ys, R x y := by
  induction h with
  | nil => simp
  | cons hxy _ ih =>
    intro z hz
    rcases List.mem_cons.mp hz with rfl | hz
    · exact ⟨_, List.mem_cons_self, hxy⟩
    · obtain ⟨y, hy, hz⟩ := ih z hz
      exact ⟨y, List.mem_cons_of_mem _ hy, hz⟩

/-- Every result of a `mapM` comes from an element. -/
theorem exists_of_mapM_eq_ok (h : xs.mapM f = .ok ys) : ∀ y ∈ ys, ∃ x ∈ xs, f x = .ok y :=
  exists_of_forall₂ (forall₂_of_mapM_eq_ok h).flip

/-- Every element of a `mapM` has a result. -/
theorem exists_of_mem_mapM (h : xs.mapM f = .ok ys) : ∀ x ∈ xs, ∃ y ∈ ys, f x = .ok y :=
  exists_of_forall₂ (forall₂_of_mapM_eq_ok h)

theorem forall₂_getElem? {R : α → β → Prop} (h : List.Forall₂ R xs ys) {i : ℕ} {x : α}
    (hx : xs[i]? = some x) : ∃ y, ys[i]? = some y ∧ R x y := by
  induction h generalizing i with
  | nil => cases hx
  | @cons a b xs ys hab _ ih =>
    cases i with
    | zero =>
      obtain rfl := Option.some.inj hx
      exact ⟨b, rfl, hab⟩
    | succ i => exact ih hx

theorem map_eq_of_forall₂ {γ : Type*} {R : α → β → Prop} {f : α → γ} {g : β → γ}
    (h : List.Forall₂ R xs ys) (hfg : ∀ x y, R x y → g y = f x) : ys.map g = xs.map f := by
  induction h with
  | nil => rfl
  | cons hxy _ ih => rw [List.map_cons, List.map_cons, hfg _ _ hxy, ih]

theorem mapM_eq_ok_of_forall₂
    (h : List.Forall₂ (fun x y => f x = .ok y) xs ys) : xs.mapM f = .ok ys := by
  induction h with
  | nil => rfl
  | cons hxy _ ih => rw [List.mapM_cons, hxy, ok_bind, ih, ok_bind]; rfl

theorem length_of_mapM_eq_ok (h : xs.mapM f = .ok ys) : xs.length = ys.length :=
  (forall₂_of_mapM_eq_ok h).length_eq

/-- A loop over the indices of a list that reads the list at each index. -/
theorem foldlM_range_eq {f : σ → ℕ → Except ε σ} {g : σ → α → Except ε σ}
    (h : ∀ s (i : ℕ) (hi : i < xs.length), f s i = g s xs[i]) (s : σ) :
    (List.range xs.length).foldlM f s = xs.foldlM g s := by
  induction xs generalizing f s with
  | nil => rfl
  | cons x xs ih =>
    rw [List.length_cons, List.range_succ_eq_map, List.foldlM_cons, List.foldlM_cons,
      h s 0 (Nat.succ_pos _), List.getElem_cons_zero]
    congr 1
    funext s'
    rw [List.foldlM_map]
    exact ih (fun s i hi => h s (i + 1) (Nat.succ_lt_succ hi)) s'

/-! ## Computations that end well

`Ends bad Q x` says that `x` returns a value that meets `Q`, or throws an error that
is not `bad`. The rules follow the shape of the computation. -/

/-- The computation returns a value that meets `Q`, or throws an error that is not `bad`. -/
inductive Ends (bad : ε → Prop) (Q : α → Prop) : Except ε α → Prop
  | ok {a : α} (h : Q a) : Ends bad Q (.ok a)
  | error {e : ε} (h : ¬bad e) : Ends bad Q (.error e)

section Ends

variable {bad : ε → Prop} {P : α → Prop} {Q : β → Prop}

variable {x : Except ε α}

theorem Ends.bind {f : α → Except ε β} (hx : Ends bad P x)
    (hf : ∀ a, P a → Ends bad Q (f a)) : Ends bad Q (x >>= f) := by
  cases hx with
  | ok h => exact hf _ h
  | error h => exact .error h

/-- A guard that throws. -/
theorem Ends.guard {p : Prop} [Decidable p] {e : ε} {x : Except ε β} (he : ¬bad e)
    (hx : ¬p → Ends bad Q x) : Ends bad Q (if p then .error e else x) := by
  split_ifs with hp
  · exact .error he
  · exact hx hp

theorem Ends.ite {p : Prop} [Decidable p] {x y : Except ε β} (hx : p → Ends bad Q x)
    (hy : ¬p → Ends bad Q y) : Ends bad Q (if p then x else y) := by
  split_ifs with hp
  · exact hx hp
  · exact hy hp

theorem Ends.mono {R : α → Prop} (hx : Ends bad P x) (h : ∀ a, P a → R a) : Ends bad R x := by
  cases hx with
  | ok ha => exact .ok (h _ ha)
  | error he => exact .error he

/-- A loop keeps its invariant. -/
theorem Ends.foldlM {σ : Type v} {I : σ → Prop} {f : σ → α → Except ε σ} {xs : List α}
    (hf : ∀ s, ∀ x ∈ xs, I s → Ends bad I (f s x)) {s : σ} (hs : I s) :
    Ends bad I (xs.foldlM f s) := by
  induction xs generalizing s with
  | nil => exact .ok hs
  | cons x xs ih =>
    rw [List.foldlM_cons]
    exact (hf s x List.mem_cons_self hs).bind
      fun s' hs' => ih (fun s y hy => hf s y (List.mem_cons_of_mem x hy)) hs'

/-- A computation that does not throw `bad` ends with what it returns. -/
theorem Ends.self (h : ∀ e, x = .error e → ¬bad e) : Ends bad (fun a => x = .ok a) x := by
  cases x with
  | error e => exact .error (h e rfl)
  | ok a => exact .ok rfl

theorem Ends.mapM {R : α → β → Prop} {f : α → Except ε β} {xs : List α}
    (hf : ∀ x ∈ xs, Ends bad (R x) (f x)) :
    Ends bad (fun ys => List.Forall₂ R xs ys) (xs.mapM f) := by
  induction xs with
  | nil => exact .ok .nil
  | cons x xs ih =>
    rw [List.mapM_cons]
    refine (hf x List.mem_cons_self).bind fun y hy => ?_
    refine (ih fun z hz => hf z (List.mem_cons_of_mem x hz)).bind fun ys hys => ?_
    exact .ok (.cons hy hys)

/-- What a computation that ends well returns. -/
theorem Ends.of_eq_ok {a : α} (hx : Ends bad P x) (h : x = .ok a) : P a := by
  subst h
  cases hx with
  | ok ha => exact ha

end Ends

end Sirius.Common
