import Mathlib

/-!
# Association lists

A map of the code is a list of keys with their values, read with `List.lookup`.

* `lookup_of_nodup`: with distinct keys, what is in the list is found.
* `lookup_concat`, `lookup_map`: what is found after an insertion and after a change of the values.
-/

namespace Sirius.Common

variable {α β γ : Type*} {l : List (α × β)} {a : α} {b : β}

section Lawful

variable [BEq α] [LawfulBEq α]

theorem lookup_of_nodup (hl : (l.map Prod.fst).Nodup) (h : (a, b) ∈ l) : l.lookup a = some b := by
  induction l with
  | nil => cases h
  | cons x l ih =>
    rw [List.map_cons, List.nodup_cons] at hl
    rw [List.lookup_cons]
    rcases List.mem_cons.mp h with rfl | hmem
    · simp
    · have hne : a ≠ x.1 := by
        rintro rfl
        exact hl.1 (List.mem_map.mpr ⟨_, hmem, rfl⟩)
      rw [beq_false_of_ne hne]
      exact ih hl.2 hmem

theorem mem_of_lookup (h : l.lookup a = some b) : (a, b) ∈ l := by
  obtain ⟨l₁, l₂, heq, -⟩ := List.lookup_eq_some_iff.mp h
  rw [heq]
  simp

theorem mem_keys_iff : a ∈ l.map Prod.fst ↔ (l.lookup a).isSome := by
  constructor
  · intro h
    obtain ⟨⟨_, b⟩, hmem, rfl⟩ := List.mem_map.mp h
    by_contra hnone
    rw [Bool.not_eq_true, Option.isSome_eq_false_iff, Option.isNone_iff_eq_none,
      List.lookup_eq_none_iff] at hnone
    simpa using hnone _ hmem
  · intro h
    obtain ⟨b, hb⟩ := Option.isSome_iff_exists.mp h
    exact List.mem_map_of_mem (mem_of_lookup hb)

end Lawful

theorem lookup_concat [DecidableEq α] (l : List (α × β)) (a b : α) (x : β) :
    (l ++ [(a, x)]).lookup b = (l.lookup b).or (if b = a then some x else none) := by
  induction l with
  | nil =>
    rw [List.nil_append, List.lookup_cons]
    split_ifs with h
    · simp [h]
    · simp [beq_false_of_ne h]
  | cons y l ih =>
    rw [List.cons_append, List.lookup_cons, List.lookup_cons, ih]
    cases b == y.1 <;> rfl

/-- A change of the values. -/
theorem lookup_map [BEq α] (f : β → γ) (l : List (α × β)) (a : α) :
    (l.map fun p => (p.1, f p.2)).lookup a = (l.lookup a).map f := by
  induction l with
  | nil => rfl
  | cons x l ih =>
    rw [List.map_cons, List.lookup_cons, List.lookup_cons, ih]
    cases a == x.1 <;> rfl

end Sirius.Common
