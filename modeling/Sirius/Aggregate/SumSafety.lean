import Sirius.Aggregate.SumWidths

/-!
# The widths of SUM are safe

What the checks of src/op/aggregate/aggregate_op_util.cpp let through does not leave the width it is
summed in. Each round of a loop is inverted once; what a round establishes for its column is kept by
the later rounds, because the set of columns only grows.

* `WidenSafe`, `NarrowSafe`, `PartialsFit`: what is promised of the results.
* `sumsToWiden_safe`, `decimalSumsToNarrow_safe`, `requireDecimal128PartialSumsInRange_safe`: the
  three functions keep it.
* `sum_widths_safe`: no sum leaves its width.
-/

namespace Sirius.Aggregate.SumWidths

open Sirius.Common

/-! ## Widening is safe -/

/-- What cuDF documents for `minmax`: the extremes of the valid values, and two invalid scalars when
    there is no valid value. -/
structure IsMinmax (minmax : Column → Option (ℤ × ℤ)) : Prop where
  none_iff : ∀ column, minmax column = none ↔ ∀ v, some v ∉ column.values
  some_imp : ∀ column lo hi, minmax column = some (lo, hi) →
    some lo ∈ column.values ∧ some hi ∈ column.values ∧
      ∀ v, some v ∈ column.values → lo ≤ v ∧ v ≤ hi

/-- A column that is not widened fits its own width. -/
def Kept (table : Table) (widen : Finset ℕ) (c : ℕ) : Prop :=
  ∀ column, table.column c = .ok column → c ∉ widen → column.SumsFit column.type.id.bits

/-- The columns that are widened fit the wider type. -/
def Widened (table : Table) (widen : Finset ℕ) : Prop :=
  ∀ c ∈ widen, ∃ column wide, table.column c = .ok column ∧
    widenedSumType column.type = some wide ∧ column.SumsFit wide.id.bits

section Safe

variable {minmax : Column → Option (ℤ × ℤ)} {table : Table} {column : Column}
  {candidates : List SumCandidate} {widen widen' narrow narrow' : Finset ℕ} {c : ℕ}

theorem size_of_column (h : table.column c = .ok column) : column.size = table.numRows := by
  unfold Table.column at h
  split at h
  · rename_i column' hget
    obtain rfl := Except.ok.inj h
    exact table.size_eq _ (List.mem_of_getElem? hget)
  · cases h

theorem boundedBy_of_minmax {lo hi : ℤ} (hminmax : IsMinmax minmax)
    (h : minmax column = some (lo, hi)) : column.BoundedBy (max lo.natAbs hi.natAbs) := by
  obtain ⟨-, -, hall⟩ := hminmax.some_imp column lo hi h
  intro v hv
  obtain ⟨hlow, hhigh⟩ := hall v hv
  omega

theorem boundedBy_of_invalid (hminmax : IsMinmax minmax) (h : minmax column = none) :
    column.BoundedBy 0 :=
  fun v hv => absurd hv ((hminmax.none_iff column).mp h v)

theorem Kept.mono (h : Kept table widen c) (hsub : widen ⊆ widen') : Kept table widen' c :=
  fun column hcolumn hc => h column hcolumn fun hmem => hc (hsub hmem)

theorem Widened.insert_of_sumMayOverflow {m : UInt64} {overflow : Bool} {n : ℕ}
    (h : Widened table widen) (hcolumn : table.column c = .ok column)
    (hoverflow : sumMayOverflow column.type n m = .ok overflow) :
    Widened table (insert c widen) := by
  intro i hi
  rcases Finset.mem_insert.mp hi with rfl | hi
  · obtain ⟨wide, hwide⟩ := exists_widened_of_sumMayOverflow hoverflow
    exact ⟨column, wide, hcolumn, hwide, sumsFit_widened hwide⟩
  · exact h i hi

/-- A column with a bound that the check accepts needs no widening. -/
theorem sumsFit_of_not_sumMayOverflow {m : UInt64} (hcolumn : table.column c = .ok column)
    (hbound : column.BoundedBy m.toNat)
    (hoverflow : sumMayOverflow column.type table.numRows m = .ok false) :
    column.SumsFit column.type.id.bits := by
  apply sumsFit_of_boundedBy hbound
  rw [← size_of_column hcolumn] at hoverflow
  exact not_sumMayOverflow (size_lt column) hoverflow

/-- One round of the measurement. -/
theorem measureSum_cases (h : measureSum minmax table widen c = .ok widen') :
    ∃ column, table.column c = .ok column ∧ ((minmax column = none ∧ widen' = widen) ∨
      ∃ lo hi overflow, minmax column = some (lo, hi) ∧
        sumMayOverflow column.type table.numRows (max (decimalMagnitude lo) (decimalMagnitude hi))
          = .ok overflow ∧ widen' = if overflow then insert c widen else widen) := by
  unfold measureSum at h
  obtain ⟨column, hcolumn, h⟩ := bind_eq_ok.mp h
  refine ⟨column, hcolumn, ?_⟩
  cases hm : minmax column with
  | none =>
    rw [hm] at h
    exact .inl ⟨rfl, (pure_eq_ok.mp h).symm⟩
  | some extremes =>
    obtain ⟨lo, hi⟩ := extremes
    simp only [hm] at h
    obtain ⟨overflow, hoverflow, h⟩ := bind_eq_ok.mp h
    exact .inr ⟨lo, hi, overflow, rfl, hoverflow, (pure_eq_ok.mp h).symm⟩

theorem subset_measureSum (h : measureSum minmax table widen c = .ok widen') : widen ⊆ widen' := by
  obtain ⟨column, -, ⟨-, rfl⟩ | ⟨lo, hi, overflow, -, -, rfl⟩⟩ := measureSum_cases h
  · exact Finset.Subset.refl _
  · split_ifs
    · exact Finset.subset_insert c widen
    · exact Finset.Subset.refl _

theorem kept_measureSum (hminmax : IsMinmax minmax) (hwide : ∀ column, table.column c = .ok column →
    column.type.id ≠ .decimal128) (h : measureSum minmax table widen c = .ok widen') :
    Kept table widen' c := by
  obtain ⟨column, hcolumn, hcases⟩ := measureSum_cases h
  intro column' hcolumn' hc
  obtain rfl := Except.ok.inj (hcolumn.symm.trans hcolumn')
  rcases hcases with ⟨hm, rfl⟩ | ⟨lo, hi, overflow, hm, hoverflow, rfl⟩
  · exact sumsFit_of_boundedBy (boundedBy_of_invalid hminmax hm) (by simp)
  · obtain rfl : overflow = false := by
      by_contra htrue
      rw [Bool.not_eq_false] at htrue
      rw [if_pos htrue] at hc
      exact hc (Finset.mem_insert_self c widen)
    apply sumsFit_of_not_sumMayOverflow hcolumn ?_ hoverflow
    -- the magnitudes of 64-bit values are exact, the most negative one's included
    obtain ⟨hlo, hhi, -⟩ := hminmax.some_imp column lo hi hm
    have hin : ∀ v, some v ∈ column.values → InWidth 64 v := by
      intro v hv
      have hstored := column.stored v hv
      have hbits : column.type.id.bits = 32 ∨ column.type.id.bits = 64 := by
        have := hwide column hcolumn
        cases htype : column.type.id <;> simp_all [TypeId.bits]
      unfold InWidth at *
      rcases hbits with hbits | hbits <;> rw [hbits] at hstored <;> norm_num at hstored ⊢ <;> omega
    refine (boundedBy_of_minmax hminmax hm).mono ?_
    rw [toNat_max, decimalMagnitude_eq (hin lo hlo), decimalMagnitude_eq (hin hi hhi)]

theorem widened_measureSum (hw : Widened table widen)
    (h : measureSum minmax table widen c = .ok widen') : Widened table widen' := by
  obtain ⟨column, hcolumn, ⟨-, rfl⟩ | ⟨lo, hi, overflow, -, hoverflow, rfl⟩⟩ := measureSum_cases h
  · exact hw
  · split_ifs
    · exact hw.insert_of_sumMayOverflow hcolumn hoverflow
    · exact hw

theorem checkWidens_eq_ok {u : PUnit} (h : checkWidens table c = .ok u) :
    ∀ column, table.column c = .ok column → column.type.id ≠ .decimal128 := by
  unfold checkWidens at h
  obtain ⟨column, hcolumn, h⟩ := bind_eq_ok.mp h
  obtain ⟨hwide, -⟩ := ite_error_eq_ok.mp h
  intro column' hcolumn' htype
  obtain rfl := Except.ok.inj (hcolumn.symm.trans hcolumn')
  apply hwide
  simp [widenedSumType, widenedDecimalSumType, htype]

/-- An empty batch has no sums. -/
theorem sumsFit_of_empty {bits : ℕ} (h : table.numRows = 0) (hcolumn : table.column c = .ok column) :
    column.SumsFit bits := by
  apply sumsFit_of_boundedBy (boundedBy_stored column)
  rw [size_of_column hcolumn, h]
  simp

theorem sumsNeedingWidening_safe {columns : List ℕ} (hminmax : IsMinmax minmax)
    (h : sumsNeedingWidening minmax table columns = .ok widen) :
    (∀ c ∈ columns, Kept table widen c) ∧ Widened table widen ∧ ∀ c ∈ widen, c ∈ columns := by
  unfold sumsNeedingWidening at h
  obtain ⟨⟨⟩, hchecks, h⟩ := bind_eq_ok.mp h
  split_ifs at h with hempty
  · obtain rfl := pure_eq_ok.mp h
    refine ⟨fun c hc column hcolumn _ => ?_, by simp [Widened], by simp⟩
    rcases hempty with hrows | rfl
    · exact sumsFit_of_empty hrows hcolumn
    · cases hc
  · have hwide : ∀ c ∈ columns, ∀ column, table.column c = .ok column →
        column.type.id ≠ .decimal128 :=
      fun c hc => checkWidens_eq_ok (forall_of_forM_eq_ok hchecks c hc)
    refine ⟨foldlM_forall (fun s c hc s' hs => kept_measureSum hminmax (hwide c hc) hs)
      (fun s c _ s' hs d hd => hd.mono (subset_measureSum hs)) h, ?_, ?_⟩
    · apply foldlM_invariant (fun s c _ s' hs hw => widened_measureSum hw hs) ?_ h
      simp [Widened]
    · apply foldlM_invariant (I := fun s => ∀ c ∈ s, c ∈ columns) ?_ (by simp) h
      intro s c hc s' hs hsub d hd
      obtain ⟨column, -, ⟨-, rfl⟩ | ⟨lo, hi, overflow, -, -, rfl⟩⟩ := measureSum_cases hs
      · exact hsub d hd
      · split_ifs at hd
        · rcases Finset.mem_insert.mp hd with rfl | hd
          · exact hc
          · exact hsub d hd
        · exact hsub d hd

/-- One round of `sums_to_widen` or of `decimal_sums_to_narrow` either leaves the column to be
    measured or decides it. -/
theorem decideWiden_cases {decided decided' : Finset ℕ × List ℕ} {bound : SumCandidate}
    (h : decideWiden table decided bound = .ok decided') :
    (bound.maxAbs = none ∧ decided' = (decided.1, decided.2 ++ [bound.column])) ∨
      ∃ m column overflow, bound.maxAbs = some m ∧ table.column bound.column = .ok column ∧
        sumMayOverflow column.type table.numRows m = .ok overflow ∧
        decided' = if overflow then (insert bound.column decided.1, decided.2) else decided := by
  unfold decideWiden at h
  cases hm : bound.maxAbs with
  | none =>
    simp only [hm] at h
    exact .inl ⟨rfl, (pure_eq_ok.mp h).symm⟩
  | some m =>
    simp only [hm] at h
    obtain ⟨column, hcolumn, h⟩ := bind_eq_ok.mp h
    obtain ⟨overflow, hoverflow, h⟩ := bind_eq_ok.mp h
    exact .inr ⟨m, column, overflow, rfl, hcolumn, hoverflow, (pure_eq_ok.mp h).symm⟩

/-- The columns that the planner's bounds decide. -/
theorem decideWiden_safe {bounds : List SumCandidate} {decided : Finset ℕ × List ℕ}
    (hbounds : BoundsHold table bounds)
    (h : bounds.foldlM (decideWiden table) (∅, []) = .ok decided) :
    (∀ bound ∈ bounds, bound.column ∈ decided.2 ∨ Kept table decided.1 bound.column) ∧
      Widened table decided.1 ∧
      ∀ c, c ∈ decided.1 ∨ c ∈ decided.2 → c ∈ bounds.map SumCandidate.column := by
  refine ⟨?_, ?_, ?_⟩
  · apply foldlM_forall (P := fun s bound => bound.column ∈ s.2 ∨ Kept table s.1 bound.column) ?_ ?_ h
    · intro s bound hbound s' hs
      obtain ⟨-, rfl⟩ | ⟨m, column, overflow, hm, hcolumn, hoverflow, rfl⟩ := decideWiden_cases hs
      · exact .inl (by simp)
      · right
        intro column' hcolumn' hc
        obtain rfl := Except.ok.inj (hcolumn.symm.trans hcolumn')
        cases overflow with
        | true => exact absurd (Finset.mem_insert_self _ _) hc
        | false =>
          exact sumsFit_of_not_sumMayOverflow hcolumn (hbounds bound hbound m hm column hcolumn)
            hoverflow
    · intro s bound _ s' hs other hother
      obtain ⟨-, rfl⟩ | ⟨m, column, overflow, -, -, -, rfl⟩ := decideWiden_cases hs
      · exact hother.imp_left (List.mem_append_left _)
      · split_ifs
        · exact hother.imp_right fun hkept => hkept.mono (Finset.subset_insert _ _)
        · exact hother
  · apply foldlM_invariant (I := fun s => Widened table s.1) ?_ (by simp [Widened]) h
    intro s bound _ s' hs hw
    obtain ⟨-, rfl⟩ | ⟨m, column, overflow, -, hcolumn, hoverflow, rfl⟩ := decideWiden_cases hs
    · exact hw
    · split_ifs
      · exact hw.insert_of_sumMayOverflow hcolumn hoverflow
      · exact hw
  · apply foldlM_invariant
      (I := fun s => ∀ c, c ∈ s.1 ∨ c ∈ s.2 → c ∈ bounds.map SumCandidate.column) ?_ (by simp) h
    intro s bound hbound s' hs hsub c hc
    have hmem := List.mem_map_of_mem (f := SumCandidate.column) hbound
    obtain ⟨-, rfl⟩ | ⟨m, column, overflow, -, -, -, rfl⟩ := decideWiden_cases hs
    · grind
    · grind

/-- What holds of the columns of the combined bounds holds of those of the candidates. -/
theorem forall_candidates {P : ℕ → Prop}
    (h : ∀ bound ∈ combineCandidateBounds candidates, P bound.column) :
    ∀ candidate ∈ candidates, P candidate.column := by
  intro candidate hc
  obtain ⟨bound, hbound, heq⟩ := List.mem_map.mp ((mem_columns_combineCandidateBounds
    candidate.column).mpr (List.mem_map_of_mem hc))
  exact heq ▸ h bound hbound

/-- **What is widened, and what is not.** -/
structure WidenSafe (table : Table) (candidates : List SumCandidate) (widen : Finset ℕ) : Prop where
  candidate : ∀ c ∈ widen, c ∈ candidates.map SumCandidate.column
  kept : ∀ candidate ∈ candidates, candidate.column ∉ widen →
    ∀ column, table.column candidate.column = .ok column → column.SumsFit column.type.id.bits
  widened : ∀ c ∈ widen, ∃ column wide, table.column c = .ok column ∧
    widenedSumType column.type = some wide ∧ column.SumsFit wide.id.bits

theorem sumsToWiden_safe (hminmax : IsMinmax minmax) (hbounds : BoundsHold table candidates)
    (h : sumsToWiden minmax table candidates = .ok widen) : WidenSafe table candidates widen := by
  unfold sumsToWiden at h
  split_ifs at h with hempty
  · obtain rfl := pure_eq_ok.mp h
    refine ⟨by simp, fun candidate hc _ column hcolumn => ?_, by simp⟩
    rcases hempty with rfl | hrows
    · cases hc
    · exact sumsFit_of_empty hrows hcolumn
  · obtain ⟨decided, hdecided, h⟩ := bind_eq_ok.mp h
    obtain ⟨hkept, hwidened, hsub⟩ :=
      decideWiden_safe (boundsHold_combineCandidateBounds hbounds) hdecided
    simp only [mem_columns_combineCandidateBounds] at hsub
    have hentry := forall_candidates (P := fun c => c ∈ decided.2 ∨ Kept table decided.1 c) hkept
    split_ifs at h with hmeasured
    · obtain rfl := pure_eq_ok.mp h
      refine ⟨fun c hc => hsub c (.inl hc), fun candidate hc hnot column hcolumn => ?_, hwidened⟩
      rcases hentry candidate hc with hmem | hk
      · rw [hmeasured] at hmem
        cases hmem
      · exact hk column hcolumn hnot
    · obtain ⟨measured, hm, h⟩ := bind_eq_ok.mp h
      obtain rfl := pure_eq_ok.mp h
      obtain ⟨hkept', hwidened', hsub'⟩ := sumsNeedingWidening_safe hminmax hm
      refine ⟨fun c hc => ?_, fun candidate hc hnot column hcolumn => ?_, fun c hc => ?_⟩
      · rcases Finset.mem_union.mp hc with hc | hc
        · exact hsub c (.inl hc)
        · exact hsub c (.inr (hsub' c hc))
      · rw [Finset.mem_union, not_or] at hnot
        rcases hentry candidate hc with hmem | hk
        · exact hkept' _ hmem column hcolumn hnot.2
        · exact hk column hcolumn hnot.1
      · rcases Finset.mem_union.mp hc with hc | hc
        · exact hwidened c hc
        · exact hwidened' c hc

/-! ## Narrowing is safe -/

/-- The columns that are narrowed fit 64 bits. -/
def Narrowed (table : Table) (narrow : Finset ℕ) : Prop :=
  ∀ c ∈ narrow, ∀ column, table.column c = .ok column → column.SumsFit 64

/-- The sums of a column fit 128 bits. -/
def Fits128 (table : Table) (c : ℕ) : Prop :=
  ∀ column, table.column c = .ok column → column.SumsFit 128

theorem Narrowed.insert (h : Narrowed table narrow)
    (hc : ∀ column, table.column c = .ok column → column.SumsFit 64) :
    Narrowed table (insert c narrow) := by
  intro i hi
  rcases Finset.mem_insert.mp hi with rfl | hi
  · exact hc
  · exact h i hi

theorem sumsFit_of_fitsInt64 {m : ℕ} (hcolumn : table.column c = .ok column)
    (hbound : column.BoundedBy m) (h : decimalSumFitsInt64 table.numRows m = .ok true) :
    column.SumsFit 64 := by
  apply sumsFit_of_boundedBy hbound
  rw [← size_of_column hcolumn] at h
  exact decimalSumFitsInt64_lt (size_lt column) h

/-- One round of the measurement of 128-bit columns. -/
theorem measureNarrow_cases (h : measureNarrow minmax table narrow c = .ok narrow') :
    ∃ column, table.column c = .ok column ∧ ((minmax column = none ∧ narrow' = insert c narrow) ∨
      ∃ lo hi fits, minmax column = some (lo, hi) ∧
        decimal128SumMayOverflow table.numRows
          (max (decimal128Magnitude lo) (decimal128Magnitude hi)) = false ∧
        decimalSumFitsInt64 table.numRows
          (max (decimal128Magnitude lo) (decimal128Magnitude hi)) = .ok fits ∧
        narrow' = if fits then insert c narrow else narrow) := by
  unfold measureNarrow at h
  obtain ⟨column, hcolumn, h⟩ := bind_eq_ok.mp h
  refine ⟨column, hcolumn, ?_⟩
  cases hm : minmax column with
  | none =>
    rw [hm] at h
    exact .inl ⟨rfl, (pure_eq_ok.mp h).symm⟩
  | some extremes =>
    obtain ⟨lo, hi⟩ := extremes
    simp only [hm] at h
    obtain ⟨hoverflow, h⟩ := ite_error_eq_ok.mp h
    obtain ⟨fits, hfits, h⟩ := bind_eq_ok.mp h
    exact .inr ⟨lo, hi, fits, rfl, eq_false_of_ne_true hoverflow, hfits, (pure_eq_ok.mp h).symm⟩

/-- The magnitudes of the extremes bound a 128-bit column. -/
theorem boundedBy_magnitude128 {lo hi : ℤ} (hminmax : IsMinmax minmax)
    (h : minmax column = some (lo, hi)) :
    column.BoundedBy (max (decimal128Magnitude lo) (decimal128Magnitude hi)) := by
  obtain ⟨hlo, hhi, -⟩ := hminmax.some_imp column lo hi h
  have hin : ∀ v, some v ∈ column.values → InWidth 128 v := by
    intro v hv
    have hstored := column.stored v hv
    unfold InWidth at *
    cases htype : column.type.id <;> rw [htype] at hstored <;>
      norm_num [TypeId.bits] at hstored ⊢ <;> omega
  refine (boundedBy_of_minmax hminmax h).mono ?_
  rw [decimal128Magnitude, decimal128Magnitude, magnitude_eq (by decide) (hin lo hlo),
    magnitude_eq (by decide) (hin hi hhi)]

theorem measureNarrow_safe (hminmax : IsMinmax minmax)
    (h : measureNarrow minmax table narrow c = .ok narrow') :
    Fits128 table c ∧ (Narrowed table narrow → Narrowed table narrow') := by
  obtain ⟨column, hcolumn, hcases⟩ := measureNarrow_cases h
  have honly : ∀ {P : Column → Prop}, P column → ∀ column', table.column c = .ok column' →
      P column' := by
    intro P hP column' hcolumn'
    obtain rfl := Except.ok.inj (hcolumn.symm.trans hcolumn')
    exact hP
  rcases hcases with ⟨hm, rfl⟩ | ⟨lo, hi, fits, hm, hoverflow, hfits, rfl⟩
  · have hbound := boundedBy_of_invalid hminmax hm
    exact ⟨honly (sumsFit_of_boundedBy hbound (by simp)),
      fun hn => hn.insert (honly (sumsFit_of_boundedBy hbound (by simp)))⟩
  · have hbound := boundedBy_magnitude128 hminmax hm
    constructor
    · have hlt : column.size * max (decimal128Magnitude lo) (decimal128Magnitude hi)
          < 2 ^ (128 - 1) := by
        rw [size_of_column hcolumn]
        exact (mul_le_limit128 hoverflow).trans_lt (by decide)
      have hsums := sumsFit_of_boundedBy hbound hlt
      exact honly hsums
    · intro hn
      cases fits with
      | true => exact hn.insert (honly (sumsFit_of_fitsInt64 hcolumn hbound hfits))
      | false => exact hn

theorem decimal128SumsMeasuredNarrow_safe {columns : List ℕ} (hminmax : IsMinmax minmax)
    (h : decimal128SumsMeasuredNarrow minmax table columns = .ok narrow) :
    (∀ c ∈ columns, Fits128 table c) ∧ Narrowed table narrow ∧ ∀ c ∈ narrow, c ∈ columns := by
  refine ⟨?_, ?_, ?_⟩
  · exact foldlM_forall (P := fun _ c => Fits128 table c)
      (fun s c _ s' hs => (measureNarrow_safe hminmax hs).1) (fun _ _ _ _ _ _ hd => hd) h
  · exact foldlM_invariant (fun s c _ s' hs => (measureNarrow_safe hminmax hs).2)
      (by simp [Narrowed]) h
  · apply foldlM_invariant (I := fun s => ∀ c ∈ s, c ∈ columns) ?_ (by simp) h
    intro s c hc s' hs hsub d hd
    obtain ⟨column, -, ⟨-, rfl⟩ | ⟨lo, hi, fits, -, -, -, rfl⟩⟩ := measureNarrow_cases hs
    · grind
    · grind

theorem decideNarrow_cases {decided decided' : Finset ℕ × List ℕ} {bound : SumCandidate}
    (h : decideNarrow table decided bound = .ok decided') :
    (bound.maxAbs = none ∧ decided' = (decided.1, decided.2 ++ [bound.column])) ∨
      ∃ m fits, bound.maxAbs = some m ∧
        decimalSumFitsInt64 table.numRows m.toNat = .ok fits ∧
        decided' = if fits then (insert bound.column decided.1, decided.2) else decided := by
  unfold decideNarrow at h
  cases hm : bound.maxAbs with
  | none =>
    simp only [hm] at h
    exact .inl ⟨rfl, (pure_eq_ok.mp h).symm⟩
  | some m =>
    simp only [hm] at h
    obtain ⟨fits, hfits, h⟩ := bind_eq_ok.mp h
    exact .inr ⟨m, fits, rfl, hfits, (pure_eq_ok.mp h).symm⟩

/-- A bound of the planner fits 64 bits, so that no sum of a batch passes 128. -/
theorem fits128_of_bound {m : UInt64}
    (hbound : ∀ column, table.column c = .ok column → column.BoundedBy m.toNat) :
    Fits128 table c := by
  intro column hcolumn
  apply sumsFit_of_boundedBy (hbound column hcolumn)
  calc column.size * m.toNat ≤ 2 ^ 31 * 2 ^ 64 :=
        Nat.mul_le_mul (size_lt column).le m.toNat_lt.le
    _ < 2 ^ (128 - 1) := by norm_num

theorem decideNarrow_safe {bounds : List SumCandidate} {decided : Finset ℕ × List ℕ}
    (hbounds : BoundsHold table bounds)
    (h : bounds.foldlM (decideNarrow table) (∅, []) = .ok decided) :
    (∀ bound ∈ bounds, bound.column ∈ decided.2 ∨ Fits128 table bound.column) ∧
      Narrowed table decided.1 ∧
      ∀ c, c ∈ decided.1 ∨ c ∈ decided.2 → c ∈ bounds.map SumCandidate.column := by
  refine ⟨?_, ?_, ?_⟩
  · apply foldlM_forall (P := fun s bound => bound.column ∈ s.2 ∨ Fits128 table bound.column) ?_ ?_ h
    · intro s bound hbound s' hs
      obtain ⟨-, rfl⟩ | ⟨m, fits, hm, -, rfl⟩ := decideNarrow_cases hs
      · exact .inl (by simp)
      · exact .inr (fits128_of_bound (hbounds bound hbound m hm))
    · intro s bound _ s' hs other hother
      obtain ⟨-, rfl⟩ | ⟨m, fits, -, -, rfl⟩ := decideNarrow_cases hs
      · exact hother.imp_left (List.mem_append_left _)
      · split_ifs <;> exact hother
  · apply foldlM_invariant (I := fun s => Narrowed table s.1) ?_ (by simp [Narrowed]) h
    intro s bound hbound s' hs hn
    obtain ⟨-, rfl⟩ | ⟨m, fits, hm, hfits, rfl⟩ := decideNarrow_cases hs
    · exact hn
    · cases fits with
      | true =>
        exact hn.insert fun column hcolumn =>
          sumsFit_of_fitsInt64 hcolumn (hbounds bound hbound m hm column hcolumn) hfits
      | false => exact hn
  · apply foldlM_invariant
      (I := fun s => ∀ c, c ∈ s.1 ∨ c ∈ s.2 → c ∈ bounds.map SumCandidate.column) ?_ (by simp) h
    intro s bound hbound s' hs hsub c hc
    have hmem := List.mem_map_of_mem (f := SumCandidate.column) hbound
    obtain ⟨-, rfl⟩ | ⟨m, fits, -, -, rfl⟩ := decideNarrow_cases hs
    · grind
    · grind

theorem checkNarrows_eq_ok {candidate : SumCandidate} {u : PUnit}
    (h : checkNarrows table candidate = .ok u) :
    ∃ column, table.column candidate.column = .ok column ∧ column.type.id = .decimal128 := by
  unfold checkNarrows at h
  obtain ⟨column, hcolumn, h⟩ := bind_eq_ok.mp h
  obtain ⟨hnarrow, -⟩ := ite_error_eq_ok.mp h
  refine ⟨column, hcolumn, ?_⟩
  by_contra htype
  exact hnarrow (by simp [narrowedDecimalSumType, htype])

/-- **What is narrowed, and what is not.** -/
structure NarrowSafe (table : Table) (candidates : List SumCandidate) (narrow : Finset ℕ) :
    Prop where
  candidate : ∀ c ∈ narrow, c ∈ candidates.map SumCandidate.column
  type_eq : ∀ candidate ∈ candidates,
    ∃ column, table.column candidate.column = .ok column ∧ column.type.id = .decimal128
  narrowed : ∀ c ∈ narrow, ∀ column, table.column c = .ok column →
    (∀ v, some v ∈ column.values → InWidth 64 v) ∧ column.SumsFit 64
  kept : ∀ candidate ∈ candidates, candidate.column ∉ narrow →
    ∀ column, table.column candidate.column = .ok column → column.SumsFit 128

theorem decimalSumsToNarrow_safe (hminmax : IsMinmax minmax) (hbounds : BoundsHold table candidates)
    (h : decimalSumsToNarrow minmax table candidates = .ok narrow) :
    NarrowSafe table candidates narrow := by
  unfold decimalSumsToNarrow at h
  obtain ⟨⟨⟩, hchecks, h⟩ := bind_eq_ok.mp h
  have htype : ∀ candidate ∈ candidates, ∃ column, table.column candidate.column = .ok column ∧
      column.type.id = .decimal128 :=
    fun candidate hc => checkNarrows_eq_ok (forall_of_forM_eq_ok hchecks candidate hc)
  have hvalues : Narrowed table narrow → ∀ c ∈ narrow, ∀ column, table.column c = .ok column →
      (∀ v, some v ∈ column.values → InWidth 64 v) ∧ column.SumsFit 64 :=
    fun hn c hc column hcolumn =>
      ⟨fun v hv => value_inWidth (hn c hc column hcolumn) hv, hn c hc column hcolumn⟩
  split_ifs at h with hempty
  · obtain rfl := pure_eq_ok.mp h
    refine ⟨by simp, htype, by simp, fun candidate hc _ column hcolumn => ?_⟩
    rcases hempty with rfl | hrows
    · cases hc
    · exact sumsFit_of_empty hrows hcolumn
  · obtain ⟨decided, hdecided, h⟩ := bind_eq_ok.mp h
    obtain ⟨hkept, hnarrowed, hsub⟩ :=
      decideNarrow_safe (boundsHold_combineCandidateBounds hbounds) hdecided
    simp only [mem_columns_combineCandidateBounds] at hsub
    have hentry := forall_candidates (P := fun c => c ∈ decided.2 ∨ Fits128 table c) hkept
    split_ifs at h with hmeasured
    · obtain rfl := pure_eq_ok.mp h
      refine ⟨fun c hc => hsub c (.inl hc), htype, hvalues hnarrowed,
        fun candidate hc _ => ?_⟩
      rcases hentry candidate hc with hmem | hfits
      · rw [hmeasured] at hmem
        cases hmem
      · exact hfits
    · obtain ⟨measured, hm, h⟩ := bind_eq_ok.mp h
      obtain rfl := pure_eq_ok.mp h
      obtain ⟨hfits', hnarrowed', hsub'⟩ := decimal128SumsMeasuredNarrow_safe hminmax hm
      refine ⟨fun c hc => ?_, htype, hvalues fun c hc => ?_, fun candidate hc _ => ?_⟩
      · rcases Finset.mem_union.mp hc with hc | hc
        · exact hsub c (.inl hc)
        · exact hsub c (.inr (hsub' c hc))
      · rcases Finset.mem_union.mp hc with hc | hc
        · exact hnarrowed c hc
        · exact hnarrowed' c hc
      · rcases hentry candidate hc with hmem | hfits
        · exact hfits' _ hmem
        · exact hfits

/-! ## Partial sums are safe -/

/-- The value of a row of one of the partials. -/
def partialValue (partials : List Column) (i : (_ : ℕ) × ℕ) : ℤ :=
  ((partials[i.1]?).map fun column => column.value i.2).getD 0

/-- **Every merge of the partials** that are `checked`, in any order and grouping, is in 128 bits. -/
def PartialsFit (checked : Column → Prop) (partials : List Column) : Prop :=
  ∀ t : SumTree ((_ : ℕ) × ℕ), t.leaves.Nodup →
    (∀ i ∈ t.leaves, ∃ column, partials[i.1]? = some column ∧ checked column ∧
      i.2 < column.size) → t.Fits 128 (partialValue partials)

/-- The rows of a column that the check counts. -/
def Column.checkedRows (column : Column) : Finset ℕ :=
  if column.type.id = .decimal128 then Finset.range column.size else ∅

/-- What a column adds to the magnitudes of a merge. -/
def Column.weight (column : Column) : ℤ := ∑ row ∈ column.checkedRows, |column.value row|

theorem weight_le {m : ℕ} (h : column.BoundedBy m) : column.weight ≤ column.size * m := by
  refine le_trans ?_ (sum_abs_value_le h)
  apply Finset.sum_le_sum_of_subset_of_nonneg
  · unfold Column.checkedRows
    split_ifs
    · exact Finset.Subset.refl _
    · exact Finset.empty_subset _
  · exact fun row _ _ => abs_nonneg _

/-- A column without a valid value has no weight. -/
theorem weight_of_nulls (h : column.nullCount = column.size) : column.weight = 0 := by
  have hnone : ∀ x ∈ column.values, none = x := List.count_eq_length.mp h
  have hbound : column.BoundedBy 0 := fun v hv => absurd (hnone _ hv) (by simp)
  apply le_antisymm
  · simpa using weight_le hbound
  · exact Finset.sum_nonneg fun row _ => abs_nonneg _

/-- One round of the check: the bound grows by at least the weight of the column. -/
theorem requirePartial_spec {bound bound' : ℕ} (hminmax : IsMinmax minmax) (hle : bound ≤ limit128)
    (h : requirePartial minmax bound column = .ok bound') :
    bound' ≤ limit128 ∧ (bound : ℤ) + column.weight ≤ bound' := by
  unfold requirePartial at h
  split_ifs at h with hskip
  · obtain rfl := pure_eq_ok.mp h
    have hweight : column.weight = 0 := by
      rcases hskip with htype | hsize | hnulls
      · rw [Column.weight, Column.checkedRows, if_neg htype, Finset.sum_empty]
      · apply weight_of_nulls
        rw [hsize, Column.nullCount, List.length_eq_zero_iff.mp hsize, List.count_nil]
      · exact weight_of_nulls hnulls
    exact ⟨hle, by omega⟩
  · cases hrange : computeExactNumericRange minmax column with
    | none =>
      rw [hrange] at h
      cases h
    | some range =>
      obtain ⟨minimum, maximum⟩ := range
      simp only [hrange] at h
      obtain ⟨hcheck, h⟩ := ite_error_eq_ok.mp h
      rw [not_or, Bool.not_eq_true, not_lt] at hcheck
      obtain ⟨hoverflow, hroom⟩ := hcheck
      have hm : minmax column = some (minimum, maximum) := by
        unfold computeExactNumericRange at hrange
        split_ifs at hrange
        exact hrange
      have hweight := weight_le (boundedBy_magnitude128 hminmax hm)
      have hprod := mul_le_limit128 hoverflow
      generalize max (decimal128Magnitude minimum) (decimal128Magnitude maximum) = m at *
      have hlimit : limit128 < 2 ^ 128 := by decide
      have hmul : mul128 column.size m = column.size * m := Nat.mod_eq_of_lt (by omega)
      have hsub : sub128 limit128 bound = limit128 - bound := by
        unfold sub128
        rw [show limit128 + 2 ^ 128 - bound = limit128 - bound + 2 ^ 128 by omega,
          Nat.add_mod_right, Nat.mod_eq_of_lt (by omega)]
      rw [hmul, hsub] at hroom
      have hadd : add128 bound (column.size * m) = bound + column.size * m :=
        Nat.mod_eq_of_lt (by omega)
      rw [hmul, hadd, pure_eq_ok] at h
      rw [← Nat.cast_mul] at hweight
      omega

theorem requirePartials_spec {partials : List Column} {bound bound' : ℕ}
    (hminmax : IsMinmax minmax) (hle : bound ≤ limit128)
    (h : partials.foldlM (requirePartial minmax) bound = .ok bound') :
    bound' ≤ limit128 ∧ (bound : ℤ) + (partials.map Column.weight).sum ≤ bound' := by
  induction partials generalizing bound with
  | nil =>
    obtain rfl := pure_eq_ok.mp h
    exact ⟨hle, by simp⟩
  | cons column partials ih =>
    rw [List.foldlM_cons] at h
    obtain ⟨next, hnext, hrest⟩ := bind_eq_ok.mp h
    obtain ⟨hnext_le, hgrows⟩ := requirePartial_spec hminmax hle hnext
    obtain ⟨hfinal, hsum⟩ := ih hnext_le hrest
    rw [List.map_cons, List.sum_cons]
    exact ⟨hfinal, by omega⟩

/-- The rows of all columns that the check counts. -/
def checkedRows (partials : List Column) : Finset ((_ : ℕ) × ℕ) :=
  (Finset.range partials.length).sigma fun k => (partials[k]?).elim ∅ Column.checkedRows

theorem sum_checkedRows (partials : List Column) :
    ∑ i ∈ checkedRows partials, |partialValue partials i| = (partials.map Column.weight).sum := by
  have hcolumn : ∀ k : Fin partials.length,
      ∑ row ∈ (partials[k.val]?).elim ∅ Column.checkedRows, |partialValue partials ⟨k, row⟩|
        = partials[k.val].weight := by
    intro k
    unfold partialValue Column.weight
    simp only [List.getElem?_eq_getElem k.isLt]
    rfl
  rw [checkedRows, Finset.sum_sigma, Finset.sum_range, Finset.sum_congr rfl fun k _ => hcolumn k,
    Fin.sum_univ_fun_getElem]

theorem requireDecimal128PartialSumsInRange_safe {partials : List Column} {u : PUnit}
    (hminmax : IsMinmax minmax) (h : requireDecimal128PartialSumsInRange minmax partials = .ok u) :
    PartialsFit (fun column => column.type.id = .decimal128) partials := by
  unfold requireDecimal128PartialSumsInRange at h
  obtain ⟨bound, hbound, -⟩ := bind_eq_ok.mp h
  obtain ⟨hle, hsum⟩ := requirePartials_spec hminmax (Nat.zero_le _) hbound
  intro t hn hrows
  apply SumTree.fits_of_sum_lt (s := checkedRows partials) hn
  · intro i hi
    obtain ⟨column, hget, htype, hrow⟩ := hrows i hi
    rw [checkedRows, Finset.mem_sigma, hget, Finset.mem_range]
    refine ⟨(List.getElem?_eq_some_iff.mp hget).1, ?_⟩
    show i.2 ∈ column.checkedRows
    rw [Column.checkedRows, if_pos htype]
    exact Finset.mem_range.mpr hrow
  · rw [sum_checkedRows]
    have hlimit : (bound : ℤ) ≤ 2 ^ 127 - 1 := by
      have : (bound : ℤ) ≤ (limit128 : ℕ) := by exact_mod_cast hle
      exact this.trans (by decide)
    norm_num at hsum hlimit ⊢
    omega

end Safe

/-- **No sum leaves its width.** Whatever the batch, the candidates and the bounds of the planner:
    a candidate that is not widened has all sums of its rows in its own width, and one that is
    widened has them in the wider type; a 128-bit candidate that is narrowed has its values and its
    sums in 64 bits, and the others of a call that returns have them in 128 bits; and when the
    partials are accepted, the 128-bit columns among them are merged inside 128 bits, in any order
    and grouping. -/
theorem sum_widths_safe {minmax : Column → Option (ℤ × ℤ)} (hminmax : IsMinmax minmax) :
    (∀ table candidates, BoundsHold table candidates →
      (∀ widen, sumsToWiden minmax table candidates = .ok widen →
        WidenSafe table candidates widen) ∧
      ∀ narrow, decimalSumsToNarrow minmax table candidates = .ok narrow →
        NarrowSafe table candidates narrow) ∧
    ∀ partials, requireDecimal128PartialSumsInRange minmax partials = .ok ⟨⟩ →
      PartialsFit (fun column => column.type.id = .decimal128) partials := by
  refine ⟨fun table candidates hbounds => ⟨fun widen h => ?_, fun narrow h => ?_⟩,
    fun partials h => ?_⟩
  · exact sumsToWiden_safe hminmax hbounds h
  · exact decimalSumsToNarrow_safe hminmax hbounds h
  · exact requireDecimal128PartialSumsInRange_safe hminmax h

/-- The extremes of the valid values. -/
def exactMinmax (column : Column) : Option (ℤ × ℤ) :=
  match column.values.reduceOption.min?, column.values.reduceOption.max? with
  | some lo, some hi => some (lo, hi)
  | _, _ => none

theorem isMinmax_exactMinmax : IsMinmax exactMinmax := by
  constructor
  · intro column
    simp only [← List.reduceOption_mem_iff]
    generalize hvalues : column.values.reduceOption = values
    unfold exactMinmax
    rw [hvalues]
    cases values with
    | nil => simp
    | cons v values =>
      simp only [List.min?_cons, List.max?_cons]
      constructor
      · intro h
        cases h
      · intro h
        exact absurd List.mem_cons_self (h v)
  · intro column lo hi h
    simp only [← List.reduceOption_mem_iff]
    unfold exactMinmax at h
    split at h
    · rename_i lo' hi' hlo hhi
      obtain ⟨rfl, rfl⟩ := Prod.mk.inj (Option.some.inj h)
      obtain ⟨hlo_mem, hlo_le⟩ := List.min?_eq_some_iff.mp hlo
      obtain ⟨hhi_mem, hhi_le⟩ := List.max?_eq_some_iff.mp hhi
      exact ⟨hlo_mem, hhi_mem, fun v hv => ⟨hlo_le v hv, hhi_le v hv⟩⟩
    · cases h

/-- Two columns: the smallest 64-bit value beside a null, and small 32-bit values. -/
def twoColumns : Table where
  numRows := 2
  columns := [⟨⟨.int64, 0⟩, [some (-2 ^ 63), none], by decide, by simp [InWidth, TypeId.bits]⟩,
    ⟨⟨.decimal32, -2⟩, [some 7, some (-9)], by decide, by simp [InWidth, TypeId.bits]⟩]
  size_eq := by simp [Column.size]

theorem sum_widths_safe_twoColumns :
    sumsToWiden exactMinmax twoColumns [⟨0, none⟩, ⟨1, some 9⟩] = .ok {0} ∧
      WidenSafe twoColumns [⟨0, none⟩, ⟨1, some 9⟩] {0} := by
  have hbounds : BoundsHold twoColumns [⟨0, none⟩, ⟨1, some 9⟩] := by
    intro candidate hc m hm column hcolumn v hv
    simp only [List.mem_cons, List.not_mem_nil, or_false] at hc
    rcases hc with rfl | rfl
    · cases hm
    · obtain rfl := Option.some.inj hm
      obtain rfl := Except.ok.inj hcolumn
      have hv' : some v ∈ [some 7, some (-9 : ℤ)] := hv
      simp only [List.mem_cons, Option.some.injEq, List.not_mem_nil, or_false] at hv'
      rcases hv' with rfl | rfl <;> decide
  have hwiden : sumsToWiden exactMinmax twoColumns [⟨0, none⟩, ⟨1, some 9⟩] = .ok {0} := by
    decide +kernel
  exact ⟨hwiden, ((sum_widths_safe isMinmax_exactMinmax).1 _ _ hbounds).1 _ hwiden⟩

/-- A partial sum at the end of the 128-bit range, and a 64-bit partial sum that is skipped. -/
def mixedPartials : List Column :=
  [⟨⟨.decimal128, 0⟩, [some (2 ^ 127 - 1)], by decide, by simp [InWidth, TypeId.bits]⟩,
    ⟨⟨.int64, 0⟩, [some 1], by decide, by simp [InWidth, TypeId.bits]⟩]

theorem mixedPartials_leave_range :
    IsMinmax exactMinmax ∧
      requireDecimal128PartialSumsInRange exactMinmax mixedPartials = .ok ⟨⟩ ∧
      ¬PartialsFit (fun _ => True) mixedPartials := by
  refine ⟨isMinmax_exactMinmax, by decide +kernel, fun hfit => ?_⟩
  have htree := hfit (.node (.leaf ⟨0, 0⟩) (.leaf ⟨1, 0⟩)) (by decide) (by
    intro i hi
    simp only [SumTree.leaves, List.cons_append, List.nil_append, List.mem_cons, List.not_mem_nil,
      or_false] at hi
    rcases hi with rfl | rfl
    · exact ⟨_, rfl, trivial, by decide⟩
    · exact ⟨_, rfl, trivial, by decide⟩)
  have htotal : ¬InWidth 128
      (partialValue mixedPartials ⟨0, 0⟩ + partialValue mixedPartials ⟨1, 0⟩) := by
    decide +kernel
  exact htotal htree.2.2

end Sirius.Aggregate.SumWidths
