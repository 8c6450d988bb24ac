import Mathlib

/-!
# Keep-masks

`retained xs mask` are the elements whose bit is set, in order. A mask that comes
from a predicate on indices is a filter of the indices, whatever column the
indices are read through. `IsRetentionMask` is what a kernel that compacts a column
by a mask documents.
-/

namespace Sirius.Common

variable {α β ι : Type}

/-- The elements of `xs` whose bit is set, in order. -/
def retained (xs : List α) (mask : List Bool) : List α :=
  ((xs.zip mask).filter Prod.snd).map Prod.fst

/-- The kernel copies element `i` if bit `i` of the mask is set, and is stable. Nothing is
    said of a mask of another length. -/
def IsRetentionMask (applyRetentionMask : List α → List Bool → List α) : Prop :=
  ∀ xs mask, mask.length = xs.length → applyRetentionMask xs mask = retained xs mask

theorem retained_map (ids : List ι) (g : ι → α) (p : ι → Bool) :
    retained (ids.map g) (ids.map p) = (ids.filter p).map g := by
  unfold retained
  induction ids with
  | nil => rfl
  | cons i ids ih =>
    simp only [List.map_cons, List.zip_cons_cons, List.filter_cons]
    cases hp : p i with
    | true => simpa using ih
    | false => simpa using ih

theorem retained_true (xs : List α) :
    retained xs (List.replicate xs.length true) = xs := by
  induction xs with
  | nil => rfl
  | cons x xs ih =>
    unfold retained at ih ⊢
    simpa [List.replicate_succ] using ih

/-- The number of kept elements does not depend on the elements. -/
theorem length_retained {xs : List α} {ys : List β} (h : xs.length = ys.length)
    (mask : List Bool) : (retained xs mask).length = (retained ys mask).length := by
  induction xs generalizing ys mask with
  | nil =>
    cases ys with
    | nil => rfl
    | cons y ys => cases h
  | cons x xs ih =>
    cases ys with
    | nil => cases h
    | cons y ys =>
      cases mask with
      | nil => rfl
      | cons b mask =>
        have := ih (by simpa using h) mask
        unfold retained at this ⊢
        cases b with
        | true => simpa using this
        | false => simpa using this

namespace IsRetentionMask

variable {apply : List α → List Bool → List α}

theorem map (h : IsRetentionMask apply) (ids : List ι) (g : ι → α) (p : ι → Bool) :
    apply (ids.map g) (ids.map p) = (ids.filter p).map g := by
  rw [h _ _ (by simp), retained_map]

theorem filter (h : IsRetentionMask apply) (xs : List α) (p : α → Bool) :
    apply xs (xs.map p) = xs.filter p := by
  have hmap := h.map xs id p
  rwa [List.map_id, List.map_id] at hmap

end IsRetentionMask

end Sirius.Common
