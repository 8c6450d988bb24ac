import Mathlib

/-!
# Finite tables and sums over them

A table is a finite map, `AList` of Mathlib. `total f t` is the sum of `f` over
its entries. The lemmas say how a sum moves when one entry is added, changed or
removed, so that a counter can be compared with the sum it stands for.
-/

namespace Sirius.Common

/-- A finite map. -/
abbrev Table (κ ν : Type*) := AList fun _ : κ => ν

namespace Table

variable {κ ν : Type*}

/-- The sum of `f` over the entries. -/
def total (f : κ → ν → ℕ) (t : Table κ ν) : ℕ := (t.entries.map fun e => f e.1 e.2).sum

/-- The number of entries. -/
def size (t : Table κ ν) : ℕ := t.entries.length

@[simp] theorem total_empty (f : κ → ν → ℕ) : total f (∅ : Table κ ν) = 0 := rfl

theorem size_eq_total (t : Table κ ν) : t.size = total (fun _ _ => 1) t := by
  simp [size, total]

variable [DecidableEq κ] {f : κ → ν → ℕ} {t : Table κ ν} {k : κ} {v : ν}

theorem mem_entries : (⟨k, v⟩ : Sigma fun _ : κ => ν) ∈ t.entries ↔ t.lookup k = some v :=
  AList.mem_lookup_iff.symm

theorem total_insert : total f (t.insert k v) = f k v + total f (t.erase k) := by
  simp [total, AList.insert, AList.erase, List.kinsert_def]

theorem total_of_lookup (h : t.lookup k = some v) :
    total f t = f k v + total f (t.erase k) := by
  have hk : k ∈ t.entries.keys := by
    rw [← AList.keys, ← AList.mem_keys, ← AList.lookup_isSome, h]
    rfl
  obtain ⟨v', l₁, l₂, -, hl, he⟩ := List.exists_of_kerase hk
  have hv : v' = v := by
    have hmem : (⟨k, v'⟩ : Sigma fun _ : κ => ν) ∈ t.entries := by
      rw [hl]
      simp
    rw [mem_entries, h] at hmem
    exact (Option.some.inj hmem).symm
  subst hv
  simp only [total, AList.erase, he]
  rw [hl]
  simp only [List.map_append, List.map_cons, List.sum_append, List.sum_cons]
  omega

theorem erase_of_lookup (h : t.lookup k = none) : t.erase k = t := by
  apply AList.ext
  exact List.kerase_of_notMem_keys (AList.lookup_eq_none.mp h)

/-- A new entry. -/
theorem total_insert_new (h : t.lookup k = none) :
    total f (t.insert k v) = f k v + total f t := by
  rw [total_insert, erase_of_lookup h]

/-- A changed entry. -/
theorem total_insert_old {v' : ν} (h : t.lookup k = some v') :
    total f (t.insert k v) + f k v' = total f t + f k v := by
  rw [total_insert, total_of_lookup h]
  omega

/-- A changed entry that counts the same. -/
theorem total_insert_same {v' : ν} (h : t.lookup k = some v') (hf : f k v = f k v') :
    total f (t.insert k v) = total f t := by
  have := total_insert_old (f := f) (v := v) h
  omega

theorem size_insert_old {v' : ν} (h : t.lookup k = some v') : size (t.insert k v) = t.size := by
  rw [size_eq_total, size_eq_total]
  exact total_insert_same h rfl

theorem size_insert_new (h : t.lookup k = none) : size (t.insert k v) = t.size + 1 := by
  rw [size_eq_total, size_eq_total, total_insert_new h]
  omega

theorem size_of_lookup (h : t.lookup k = some v) : t.size = size (t.erase k) + 1 := by
  rw [size_eq_total, size_eq_total, total_of_lookup h]
  omega

/-- Tables that hold the same have as many entries. -/
theorem size_congr {t' : Table κ ν} (h : ∀ k, t'.lookup k = t.lookup k) : t'.size = t.size := by
  refine List.Perm.length_eq (List.lookup_ext t'.nodupKeys t.nodupKeys fun k v => ?_)
  have hk := h k
  simp only [AList.lookup] at hk
  rw [hk]

theorem le_total (h : t.lookup k = some v) : f k v ≤ total f t := by
  rw [total_of_lookup h]
  exact Nat.le_add_right _ _

theorem total_congr {g : κ → ν → ℕ} (h : ∀ k v, t.lookup k = some v → f k v = g k v) :
    total f t = total g t := by
  unfold total
  congr 1
  apply List.map_congr_left
  rintro ⟨k, v⟩ he
  exact h k v (mem_entries.mp he)

theorem total_le_mul {c : ℕ} (h : ∀ k v, t.lookup k = some v → f k v ≤ c) :
    total f t ≤ t.size * c := by
  unfold total size
  rw [← List.length_map fun e : Sigma fun _ : κ => ν => f e.1 e.2]
  refine (List.sum_le_card_nsmul _ c ?_).trans_eq (smul_eq_mul _ _)
  intro n hn
  obtain ⟨⟨k, v⟩, he, rfl⟩ := List.mem_map.mp hn
  exact h k v (mem_entries.mp he)

omit [DecidableEq κ] in
theorem total_add {g : κ → ν → ℕ} :
    total (fun k v => f k v + g k v) t = total f t + total g t := by
  unfold total
  rw [List.sum_map_add]

theorem exists_of_total_pos (h : 0 < total f t) : ∃ k v, t.lookup k = some v ∧ 0 < f k v := by
  obtain ⟨n, hn, hpos⟩ := List.exists_mem_ne_zero_of_sum_ne_zero (Nat.pos_iff_ne_zero.mp h)
  obtain ⟨⟨k, v⟩, he, rfl⟩ := List.mem_map.mp hn
  exact ⟨k, v, mem_entries.mp he, Nat.pos_of_ne_zero hpos⟩

theorem total_eq_zero (h : ∀ k v, t.lookup k = some v → f k v = 0) : total f t = 0 := by
  by_contra hne
  obtain ⟨k, v, hl, hpos⟩ := exists_of_total_pos (Nat.pos_of_ne_zero hne)
  rw [h k v hl] at hpos
  exact lt_irrefl 0 hpos

theorem eq_empty (h : ∀ k, t.lookup k = none) : t = ∅ := by
  apply AList.ext
  apply List.eq_nil_iff_forall_not_mem.mpr
  rintro ⟨k, v⟩ he
  have := mem_entries.mp he
  rw [h k] at this
  cases this

variable {k' : κ} {w : ν}

theorem lookup_insert_eq :
    (t.insert k v).lookup k' = if k' = k then some v else t.lookup k' := by
  split_ifs with h
  · subst h
    exact AList.lookup_insert t
  · exact AList.lookup_insert_ne h

theorem lookup_erase_eq :
    (t.erase k).lookup k' = if k' = k then none else t.lookup k' := by
  split_ifs with h
  · subst h
    exact AList.lookup_erase k' t
  · exact AList.lookup_erase_ne h

/-- An entry of a table after an insertion is the new one or an old one. -/
theorem lookup_insert_cases (h : (t.insert k v).lookup k' = some w) :
    k' = k ∧ w = v ∨ k' ≠ k ∧ t.lookup k' = some w := by
  rw [lookup_insert_eq] at h
  split_ifs at h with hk
  · exact Or.inl ⟨hk, (Option.some.inj h).symm⟩
  · exact Or.inr ⟨hk, h⟩

theorem forall_lookup_insert {P : κ → ν → Prop} (hnew : P k v)
    (hold : ∀ k' w, t.lookup k' = some w → P k' w) (k' : κ) (w : ν)
    (h : (t.insert k v).lookup k' = some w) : P k' w := by
  rcases lookup_insert_cases h with ⟨rfl, rfl⟩ | ⟨-, h⟩
  · exact hnew
  · exact hold k' w h

theorem lookup_of_erase (h : (t.erase k).lookup k' = some w) : k' ≠ k ∧ t.lookup k' = some w := by
  rw [lookup_erase_eq] at h
  split_ifs at h with hk
  exact ⟨hk, h⟩

theorem isSome_lookup_insert (h : (t.lookup k').isSome) : ((t.insert k v).lookup k').isSome := by
  rw [lookup_insert_eq]
  split_ifs
  · rfl
  · exact h

/-- What an entry has, a table has after an insertion that keeps it. -/
theorem exists_lookup_insert {P : ν → Prop} {u : ν} (hk : t.lookup k = some u) (hP : P u → P v)
    (h : ∃ w, t.lookup k' = some w ∧ P w) : ∃ w, (t.insert k v).lookup k' = some w ∧ P w := by
  obtain ⟨w, hw, hp⟩ := h
  rw [lookup_insert_eq]
  split_ifs with hkk
  · rw [hkk, hk] at hw
    cases hw
    exact ⟨v, rfl, hP hp⟩
  · exact ⟨w, hw, hp⟩

end Table

end Sirius.Common
