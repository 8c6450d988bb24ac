import Mathlib

/-!
# Sums over actors

A system of threads keeps the place of each thread in a list. A counter of the system is compared
with a sum over that list, `total w`: what the threads count for, each by its place. A step of
one thread replaces one place, `total_set`.
-/

namespace Sirius.Common

variable {P : Type*} {w : P → ℕ} {l : List P} {a b : P} {i : ℕ}

/-- What the places in a list count for. -/
def total (w : P → ℕ) (l : List P) : ℕ := (l.map w).sum

@[simp] theorem total_nil : total w [] = 0 := rfl

@[simp] theorem total_cons : total w (a :: l) = w a + total w l := by
  simp [total]

@[simp] theorem total_append (l l' : List P) : total w (l ++ l') = total w l + total w l' := by
  simp [total]

/-- A thread moves from `a` to `b`. -/
theorem total_set (h : l[i]? = some a) (b : P) :
    total w (l.set i b) + w a = total w l + w b := by
  induction l generalizing i with
  | nil => simp at h
  | cons x l ih =>
    cases i with
    | zero =>
      rw [List.getElem?_cons_zero, Option.some.injEq] at h
      subst h
      rw [List.set_cons_zero, total_cons, total_cons]
      omega
    | succ i =>
      rw [List.getElem?_cons_succ] at h
      have := ih h
      rw [List.set_cons_succ, total_cons, total_cons]
      omega

/-- An element leaves the list. -/
theorem total_eraseIdx (h : l[i]? = some a) : total w (l.eraseIdx i) + w a = total w l := by
  induction l generalizing i with
  | nil => simp at h
  | cons x l ih =>
    cases i with
    | zero =>
      rw [List.getElem?_cons_zero, Option.some.injEq] at h
      subst h
      rw [List.eraseIdx_cons_zero, total_cons, add_comm]
    | succ i =>
      rw [List.getElem?_cons_succ] at h
      have := ih h
      rw [List.eraseIdx_cons_succ, total_cons, total_cons]
      omega

theorem weight_le_total (h : a ∈ l) : w a ≤ total w l :=
  List.single_le_sum (fun _ _ => Nat.zero_le _) _ (List.mem_map_of_mem h)

theorem exists_of_total_pos (h : 0 < total w l) : ∃ (i : ℕ) (a : P), l[i]? = some a ∧ 0 < w a := by
  induction l with
  | nil => exact absurd h (lt_irrefl 0)
  | cons x l ih =>
    by_cases hx : 0 < w x
    · exact ⟨0, x, rfl, hx⟩
    · rw [total_cons] at h
      obtain ⟨i, a, hi, ha⟩ := ih (by omega)
      exact ⟨i + 1, a, hi, ha⟩

theorem total_eq_zero (h : ∀ a ∈ l, w a = 0) : total w l = 0 := by
  by_contra hne
  obtain ⟨i, a, hi, ha⟩ := exists_of_total_pos (Nat.pos_of_ne_zero hne)
  exact ha.ne' (h a (List.mem_of_getElem? hi))

theorem total_le_total {v : P → ℕ} (h : ∀ a, w a ≤ v a) : total w l ≤ total v l := by
  induction l with
  | nil => exact le_rfl
  | cons a l ih =>
    have := h a
    rw [total_cons, total_cons]
    omega

theorem total_add {v : P → ℕ} : total (fun a => w a + v a) l = total w l + total v l := by
  induction l with
  | nil => rfl
  | cons a l ih =>
    rw [total_cons, total_cons, total_cons, ih]
    omega

theorem total_le_length (h : ∀ a ∈ l, w a ≤ 1) : total w l ≤ l.length := by
  simpa [total] using List.sum_le_card_nsmul (l.map w) 1 (by simpa using h)

/-- Where nobody counts for more than one, everybody counts for one. -/
theorem total_eq_length_iff (h : ∀ a ∈ l, w a ≤ 1) :
    total w l = l.length ↔ ∀ a ∈ l, w a = 1 := by
  induction l with
  | nil => simp
  | cons x l ih =>
    rw [List.forall_mem_cons] at h ⊢
    have hle := total_le_length h.2
    rw [total_cons, List.length_cons, ← ih h.2]
    omega

/-- A set whose elements each have a thread of their own that counts. -/
theorem card_le_total {β : Type*} {F : Finset β} (place : β → P) (hinj : Function.Injective place)
    (hmem : ∀ x ∈ F, place x ∈ l) (hw : ∀ x, 1 ≤ w (place x)) : F.card ≤ total w l := by
  classical
  have hlength : ∀ l : List P, (l.filter fun a => 1 ≤ w a).length ≤ total w l := by
    intro l
    induction l with
    | nil => exact le_rfl
    | cons a l ih =>
      rw [List.filter_cons, total_cons]
      split_ifs with ha
      · have : 1 ≤ w a := of_decide_eq_true ha
        rw [List.length_cons]
        omega
      · omega
  have hsub : F.image place ⊆ (l.filter fun a => 1 ≤ w a).toFinset := by
    intro a ha
    obtain ⟨x, hx, rfl⟩ := Finset.mem_image.mp ha
    exact List.mem_toFinset.mpr (List.mem_filter.mpr ⟨hmem x hx, decide_eq_true (hw x)⟩)
  calc F.card = (F.image place).card := (Finset.card_image_of_injective F hinj).symm
    _ ≤ (l.filter fun a => 1 ≤ w a).toFinset.card := Finset.card_le_card hsub
    _ ≤ (l.filter fun a => 1 ≤ w a).length := List.toFinset_card_le _
    _ ≤ total w l := hlength l

end Sirius.Common
