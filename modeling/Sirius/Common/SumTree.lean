import Mathlib

/-!
# Sums in a fixed width

A sum of several numbers is formed in some order and some grouping, which is a binary tree over the
indices of the numbers. The sum is safe in a fixed width when no sum on the way leaves the width.

* `InWidth`: the two's complement numbers of a width.
* `SumTree.Fits`: every sum on the way is in the width.
* `SumTree.fits_of_sum_lt`: a bound on the magnitudes of all numbers is enough, for every tree.
-/

namespace Sirius.Common

/-- The numbers that `bits` bits hold in two's complement. -/
def InWidth (bits : ℕ) (v : ℤ) : Prop := -2 ^ (bits - 1) ≤ v ∧ v < 2 ^ (bits - 1)

instance (bits : ℕ) (v : ℤ) : Decidable (InWidth bits v) :=
  inferInstanceAs (Decidable (_ ∧ _))

theorem inWidth_of_abs_lt {bits : ℕ} {v : ℤ} (h : |v| < 2 ^ (bits - 1)) : InWidth bits v := by
  obtain ⟨hlow, hhigh⟩ := abs_lt.mp h
  exact ⟨hlow.le, hhigh⟩

theorem abs_le_of_inWidth {bits : ℕ} {v : ℤ} (h : InWidth bits v) : |v| ≤ 2 ^ (bits - 1) :=
  abs_le.mpr ⟨h.1, h.2.le⟩

/-- An order and a grouping of a sum over indices of `ι`. -/
inductive SumTree (ι : Type*) where
  | leaf (i : ι)
  | node (left right : SumTree ι)

namespace SumTree

variable {ι : Type*} {f : ι → ℤ} {bits : ℕ}

/-- The leaves, from left to right. -/
def leaves : SumTree ι → List ι
  | leaf i => [i]
  | node left right => left.leaves ++ right.leaves

/-- The sum over the leaves. -/
def total (f : ι → ℤ) : SumTree ι → ℤ
  | leaf i => f i
  | node left right => left.total f + right.total f

/-- No sum on the way leaves the width. -/
def Fits (bits : ℕ) (f : ι → ℤ) : SumTree ι → Prop
  | leaf i => InWidth bits (f i)
  | node left right =>
    left.Fits bits f ∧ right.Fits bits f ∧ InWidth bits (left.total f + right.total f)

theorem abs_total_le (t : SumTree ι) : |t.total f| ≤ (t.leaves.map fun i => |f i|).sum := by
  induction t with
  | leaf i => simp [total, leaves]
  | node left right ihl ihr =>
    rw [total, leaves, List.map_append, List.sum_append]
    exact (abs_add_le _ _).trans (add_le_add ihl ihr)

theorem fits_of_leaves_lt {t : SumTree ι}
    (h : (t.leaves.map fun i => |f i|).sum < 2 ^ (bits - 1)) : t.Fits bits f := by
  induction t with
  | leaf i =>
    apply inWidth_of_abs_lt
    simpa [leaves] using h
  | node left right ihl ihr =>
    have habs := (abs_total_le (f := f) (node left right)).trans_lt h
    rw [leaves, List.map_append, List.sum_append] at h
    have hl : 0 ≤ (left.leaves.map fun i => |f i|).sum := (abs_nonneg _).trans (abs_total_le left)
    have hr : 0 ≤ (right.leaves.map fun i => |f i|).sum := (abs_nonneg _).trans (abs_total_le right)
    exact ⟨ihl (by omega), ihr (by omega), inWidth_of_abs_lt habs⟩

/-- The magnitudes of all numbers together bound every sum of some of them. -/
theorem fits_of_sum_lt [DecidableEq ι] {t : SumTree ι} {s : Finset ι} (hn : t.leaves.Nodup)
    (hs : ∀ i ∈ t.leaves, i ∈ s) (h : ∑ i ∈ s, |f i| < 2 ^ (bits - 1)) : t.Fits bits f := by
  apply fits_of_leaves_lt
  rw [← List.sum_toFinset _ hn]
  have hsub : t.leaves.toFinset ⊆ s := fun i hi => hs i (List.mem_toFinset.mp hi)
  exact (Finset.sum_le_sum_of_subset_of_nonneg hsub fun i _ _ => abs_nonneg (f i)).trans_lt h

end SumTree

end Sirius.Common
