import Mathlib

/-!
# Packing a sequence into batches

A coalescer appends what it is given to an open batch as long as it fits, and closes the batch
before the first element that does not. Whether an element fits may depend on all of the batch.

* `Packed`: a batch whose every element fits behind those before it.
* `batches`: the batches of a sequence, behind an open batch. They do not depend on how the sequence
  is fed (`batches_keep`, `batches_cut`).
-/

namespace Sirius.Common.Coalescing

variable {α : Type*} (fits : List α → α → Bool)

/-- Every element of the batch but the first fits behind those before it. -/
def Packed (b : List α) : Prop := ∀ l x r, b = l ++ x :: r → l ≠ [] → fits l x = true

/-- The batches of a sequence behind an open one. -/
def batches : List α → List α → List (List α)
  | acc, [] => if acc.isEmpty then [] else [acc]
  | acc, x :: xs =>
    if acc.isEmpty || fits acc x then batches (acc ++ [x]) xs else acc :: batches [x] xs

variable {fits} {b acc xs : List α} {x : α}

theorem packed_nil : Packed fits [] := by
  intro l x r h
  simp at h

theorem Packed.concat (h : Packed fits b) (hx : b ≠ [] → fits b x = true) :
    Packed fits (b ++ [x]) := by
  intro l y r heq hl
  rcases List.eq_nil_or_concat r with rfl | ⟨r, z, rfl⟩
  · obtain ⟨rfl, hxy⟩ := List.append_inj' heq rfl
    rw [← (List.cons.inj hxy).1]
    exact hx hl
  · rw [List.concat_eq_append, ← List.cons_append, ← List.append_assoc] at heq
    exact h l y r (List.append_inj' heq rfl).1 hl

theorem Packed.last (h : Packed fits (b ++ [x])) (hb : b ≠ []) : fits b x = true :=
  h b x [] rfl hb

theorem batches_keep (h : acc ≠ [] → fits acc x = true) :
    batches fits acc (x :: xs) = batches fits (acc ++ [x]) xs := by
  rw [batches, if_pos]
  by_cases hacc : acc = []
  · simp [hacc]
  · simp [h hacc]

/-- The open batch is closed before an element that does not fit. -/
theorem batches_cut (hacc : acc ≠ []) (h : fits acc x = false) :
    batches fits acc (x :: xs) = acc :: batches fits [] (x :: xs) := by
  have hstart : batches fits [] (x :: xs) = batches fits [x] xs := by
    rw [batches, if_pos (by simp), List.nil_append]
  rw [batches, if_neg (by simp [hacc, h]), hstart]

theorem batches_nil_eq : batches fits acc [] = if acc.isEmpty then [] else [acc] := rfl

end Sirius.Common.Coalescing
