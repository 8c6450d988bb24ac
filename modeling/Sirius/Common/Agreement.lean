import Mathlib.Data.List.Forall2

/-!
# Tables that agree except in one column

Two runs of a table operator are compared row by row: `AgreeExcept p` relates rows that
differ at most at position `p`, `TablesAgree p` tables of such rows. An operator that only
looks at other positions selects, gathers and joins the same rows in both runs.

* `TablesAgree.filter`, `TablesAgree.gather`, `TablesAgree.buckets`: operators that choose
  rows by what the two runs have in common.
* `AgreeExcept.project`: a projection that copies `p` to one place at most.
-/

namespace Sirius.Common

variable {V : Type*} {p q : ℕ}

/-- Rows of one length that differ at most at position `p`. -/
def AgreeExcept (p : ℕ) (r r' : List V) : Prop :=
  r.length = r'.length ∧ ∀ i, i ≠ p → r[i]? = r'[i]?

/-- Tables of as many rows, which differ at most at position `p`. -/
def TablesAgree (p : ℕ) (t t' : List (List V)) : Prop := List.Forall₂ (AgreeExcept p) t t'

theorem AgreeExcept.refl (p : ℕ) (r : List V) : AgreeExcept p r r := ⟨rfl, fun _ _ => rfl⟩

/-- The values at other positions, as a key. -/
theorem AgreeExcept.values {r r' : List V} (h : AgreeExcept p r r') {cols : List ℕ}
    (hp : p ∉ cols) (null : V) :
    (cols.map fun i => r[i]?.getD null) = cols.map fun i => r'[i]?.getD null := by
  refine List.map_congr_left fun i hi => ?_
  rw [h.2 i fun heq => hp (heq ▸ hi)]

/-- A projection whose outputs agree everywhere but at `q`. -/
theorem AgreeExcept.project {α : Type*} {f f' : α → V} (outs : List α)
    (h : ∀ i a, outs[i]? = some a → i ≠ q → f a = f' a) :
    AgreeExcept q (outs.map f) (outs.map f') := by
  refine ⟨by simp, fun i hi => ?_⟩
  rw [List.getElem?_map, List.getElem?_map]
  cases ha : outs[i]? with
  | none => rfl
  | some a => rw [Option.map_some, Option.map_some, h i a ha hi]

theorem AgreeExcept.append_left {l r r' : List V} (h : AgreeExcept q r r') :
    AgreeExcept (l.length + q) (l ++ r) (l ++ r') := by
  refine ⟨by simp [h.1], fun i hi => ?_⟩
  by_cases hlt : i < l.length
  · rw [List.getElem?_append_left hlt, List.getElem?_append_left hlt]
  · have hle : l.length ≤ i := by omega
    rw [List.getElem?_append_right hle, List.getElem?_append_right hle]
    exact h.2 _ (by omega)

theorem AgreeExcept.append_right {l l' r : List V} (h : AgreeExcept q l l') :
    AgreeExcept q (l ++ r) (l' ++ r) := by
  refine ⟨by simp [h.1], fun i hi => ?_⟩
  by_cases hlt : i < l.length
  · rw [List.getElem?_append_left hlt, List.getElem?_append_left (h.1 ▸ hlt)]
    exact h.2 i hi
  · have hle : l.length ≤ i := by omega
    rw [List.getElem?_append_right hle, List.getElem?_append_right (h.1 ▸ hle), h.1]

section Tables

variable {t t' : List (List V)}

theorem TablesAgree.filter (h : TablesAgree p t t') {keep keep' : List V → Bool}
    (hkeep : ∀ r r', AgreeExcept p r r' → keep r = keep' r') :
    TablesAgree p (t.filter keep) (t'.filter keep') := by
  induction h with
  | nil => exact List.Forall₂.nil
  | @cons r r' t t' hr _ ih =>
    have heq := hkeep r r' hr
    by_cases hk : keep r = true
    · rw [List.filter_cons_of_pos hk, List.filter_cons_of_pos (heq ▸ hk)]
      exact List.Forall₂.cons hr ih
    · rw [List.filter_cons_of_neg hk, List.filter_cons_of_neg (heq ▸ hk)]
      exact ih

/-- Rows placed in buckets, bucket after bucket. -/
theorem TablesAgree.buckets (h : TablesAgree p t t') {bucket bucket' : List V → ℕ}
    (hbucket : ∀ r r', AgreeExcept p r r' → bucket r = bucket' r') (bs : List ℕ) :
    TablesAgree p (bs.flatMap fun b => t.filter fun r => bucket r == b)
      (bs.flatMap fun b => t'.filter fun r => bucket' r == b) := by
  induction bs with
  | nil => exact List.Forall₂.nil
  | cons b bs ih =>
    rw [List.flatMap_cons, List.flatMap_cons]
    exact List.rel_append (h.filter fun r r' hr => by rw [hbucket r r' hr]) ih

theorem TablesAgree.getElem? (h : TablesAgree p t t') (i : ℕ) :
    (t[i]? = none ∧ t'[i]? = none) ∨
      ∃ r r', t[i]? = some r ∧ t'[i]? = some r' ∧ AgreeExcept p r r' := by
  induction h generalizing i with
  | nil => exact .inl ⟨rfl, rfl⟩
  | @cons r r' t t' hr _ ih =>
    cases i with
    | zero => exact .inr ⟨r, r', rfl, rfl, hr⟩
    | succ i => exact ih i

/-- The row at an index, or a default one. -/
theorem TablesAgree.getD (h : TablesAgree p t t') (i : ℕ) :
    AgreeExcept p (t[i]?.getD []) (t'[i]?.getD []) := by
  rcases h.getElem? i with ⟨hn, hn'⟩ | ⟨r, r', hr, hr', hagree⟩
  · rw [hn, hn']
    exact AgreeExcept.refl p []
  · rw [hr, hr']
    exact hagree

/-- Rows gathered by index. -/
theorem TablesAgree.gather (h : TablesAgree p t t') (rows : List ℕ) :
    TablesAgree p (rows.filterMap fun i => t[i]?) (rows.filterMap fun i => t'[i]?) := by
  induction rows with
  | nil => exact List.Forall₂.nil
  | cons i rows ih =>
    rcases h.getElem? i with ⟨hn, hn'⟩ | ⟨r, r', hr, hr', hagree⟩
    · rw [List.filterMap_cons_none hn, List.filterMap_cons_none hn']
      exact ih
    · rw [List.filterMap_cons_some hr, List.filterMap_cons_some hr']
      exact List.Forall₂.cons hagree ih

/-- What a key of other positions makes of each row is the same in both runs. -/
theorem TablesAgree.map_eq {β : Type*} (h : TablesAgree p t t') {f f' : List V → β}
    (hf : ∀ r r', AgreeExcept p r r' → f r = f' r') : t.map f = t'.map f' := by
  induction h with
  | nil => rfl
  | @cons r r' t t' hr _ ih => rw [List.map_cons, List.map_cons, hf r r' hr, ih]

/-- Row-wise operators. -/
theorem TablesAgree.map (h : TablesAgree p t t') {f f' : List V → List V}
    (hf : ∀ r r', AgreeExcept p r r' → AgreeExcept q (f r) (f' r')) :
    TablesAgree q (t.map f) (t'.map f') := by
  induction h with
  | nil => exact List.Forall₂.nil
  | @cons r r' t t' hr _ ih => exact List.Forall₂.cons (hf r r' hr) ih

end Tables

end Sirius.Common
