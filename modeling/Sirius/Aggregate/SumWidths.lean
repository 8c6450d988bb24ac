import Sirius.Common.Checked
import Sirius.Common.SumTree

/-!
# The widths of SUM

Model of the checks that keep a SUM inside the width it is computed in
(src/op/aggregate/aggregate_op_util.cpp:372-665, aggregate_op_util.hpp:98-125). cuDF wraps a sum
that leaves its width, so each SUM over a batch is bounded before it runs: by the planner's bound on
the values where there is one, by the measured extremes otherwise. The extremes come from
`cudf::minmax`, which is a parameter here; unsigned 128-bit arithmetic is arithmetic modulo `2^128`.

* `sumsToWiden`: the columns that are summed over a wider type.
* `decimalSumsToNarrow`: the columns that are summed over `DECIMAL64`.
* `requireDecimal128PartialSumsInRange`: the check of the partial sums before they are merged.
* `Column.SumsFit`: every sum of some of the rows of a column is in a width.
* `sumsFit_of_boundedBy`, `not_sumMayOverflow`: the bound on a sum, and what the checks say of it.
-/

namespace Sirius.Aggregate.SumWidths

open Sirius.Common

/-! ## Types, columns and tables -/

/-- The `cudf::type_id`s of an integer or decimal SUM. -/
inductive TypeId where
  | decimal32
  | decimal64
  | int64
  | decimal128
  deriving DecidableEq, Repr

/-- The width of the stored (unscaled) values. -/
def TypeId.bits : TypeId → ℕ
  | .decimal32 => 32
  | .decimal64 => 64
  | .int64 => 64
  | .decimal128 => 128

/-- `cudf::data_type`. -/
structure DataType where
  id : TypeId
  scale : ℤ := 0
  deriving DecidableEq, Repr

/-- A column: its unscaled values, `none` where a row is null. -/
structure Column where
  type : DataType
  values : List (Option ℤ)
  size_le : values.length ≤ 2 ^ 31 - 1
  stored : ∀ v, some v ∈ values → InWidth type.id.bits v

def Column.size (column : Column) : ℕ := column.values.length

def Column.nullCount (column : Column) : ℕ := column.values.count none

/-- `cudf::table_view`. -/
structure Table where
  numRows : ℕ
  columns : List Column
  size_eq : ∀ column ∈ columns, column.size = numRows

inductive SumError where
  | internal (message : String)
  | notImplemented (message : String)
  | outOfRange
  deriving DecidableEq, Repr

/-- `table_view::column`, a checked read. -/
def Table.column (table : Table) (i : ℕ) : Except SumError Column :=
  match table.columns[i]? with
  | some column => .ok column
  | none => .error .outOfRange

/-- `sum_candidate`. -/
structure SumCandidate where
  column : ℕ
  maxAbs : Option UInt64
  deriving DecidableEq

/-! ## Arithmetic -/

/-- `|v|` in `w` unsigned bits: the negation of the bits of a negative value. -/
def magnitude (w : ℕ) (v : ℤ) : ℕ :=
  let bits := (v % 2 ^ w).toNat
  if v < 0 then (2 ^ w - bits) % 2 ^ w else bits

/-- `decimal_magnitude`. -/
def decimalMagnitude (v : ℤ) : UInt64 := UInt64.ofNat (magnitude 64 v)

/-- `decimal128_magnitude`. -/
def decimal128Magnitude (v : ℤ) : ℕ := magnitude 128 v

/-- Multiplication, addition and subtraction of `unsigned __int128`. -/
def mul128 (a b : ℕ) : ℕ := a * b % 2 ^ 128

def add128 (a b : ℕ) : ℕ := (a + b) % 2 ^ 128

def sub128 (a b : ℕ) : ℕ := (a + 2 ^ 128 - b) % 2 ^ 128

/-! ## The types of a SUM -/

/-- `wide_integer_sum_type`. -/
def wideIntegerSumType : DataType := ⟨.decimal128, 0⟩

/-- `widened_decimal_sum_type`. -/
def widenedDecimalSumType (type : DataType) : Option DataType :=
  match type.id with
  | .decimal32 => some ⟨.decimal64, type.scale⟩
  | .decimal64 => some ⟨.decimal128, type.scale⟩
  | _ => none

/-- `widened_sum_type`. -/
def widenedSumType (type : DataType) : Option DataType :=
  if type.id = .int64 then some wideIntegerSumType else widenedDecimalSumType type

/-- `narrowed_decimal_sum_type`. -/
def narrowedDecimalSumType (type : DataType) : Option DataType :=
  if type.id ≠ .decimal128 then none else some ⟨.decimal64, type.scale⟩

/-! ## Widening -/

/-- The `switch` of `sum_may_overflow`. -/
def sumLimit (type : DataType) : Except SumError ℕ :=
  match type.id with
  | .decimal32 => .ok (2 ^ 31 - 1)
  | .decimal64 => .ok (2 ^ 63 - 1)
  | .int64 => .ok (2 ^ 63 - 1)
  | _ => .error (.internal "sum_may_overflow: expected a DECIMAL32, DECIMAL64 or INT64 type")

/-- `sum_may_overflow`. -/
def sumMayOverflow (type : DataType) (numRows : ℕ) (maxAbs : UInt64) : Except SumError Bool := do
  let limit ← sumLimit type
  if numRows ≤ 0 then return false
  return limit < mul128 numRows maxAbs.toNat

section Device

-- `cudf::minmax`: the smallest and the largest valid value, where there is one
variable (minmax : Column → Option (ℤ × ℤ))

/-- The loop body of `sums_needing_widening` over the measured extremes. -/
def measureSum (table : Table) (widen : Finset ℕ) (colId : ℕ) : Except SumError (Finset ℕ) := do
  let column ← table.column colId
  match minmax column with
  -- no valid value: nothing to overflow
  | none => return widen
  | some (lo, hi) =>
    let maxAbs := max (decimalMagnitude lo) (decimalMagnitude hi)
    let overflow ← sumMayOverflow column.type table.numRows maxAbs
    return if overflow then insert colId widen else widen

/-- The check of one candidate of `sums_needing_widening`. -/
def checkWidens (table : Table) (colId : ℕ) : Except SumError PUnit := do
  let column ← table.column colId
  if widenedSumType column.type = none then
    .error (.internal
      s!"sums_needing_widening: column {colId} is not DECIMAL32, DECIMAL64 or INT64")
  else return ⟨⟩

/-- `sums_needing_widening`. -/
def sumsNeedingWidening (table : Table) (candidates : List ℕ) :
    Except SumError (Finset ℕ) := do
  candidates.forM (checkWidens table)
  if table.numRows = 0 ∨ candidates = [] then return ∅
  candidates.foldlM (measureSum minmax table) ∅

/-- The loop body of `combine_candidate_bounds`: the first entry of the column is updated. -/
def combineBound (candidate : SumCandidate) : List SumCandidate → List SumCandidate
  | [] => [candidate]
  | known :: columns =>
    if known.column = candidate.column then
      match known.maxAbs, candidate.maxAbs with
      | some a, some b => { known with maxAbs := some (max a b) } :: columns
      | _, _ => { known with maxAbs := none } :: columns
    else known :: combineBound candidate columns

/-- `combine_candidate_bounds`; a `column_bound` has the fields of a candidate. -/
def combineCandidateBounds (candidates : List SumCandidate) : List SumCandidate :=
  candidates.foldl (fun columns candidate => combineBound candidate columns) []

/-- The loop body of `sums_to_widen`: the columns to widen and the columns to measure. -/
def decideWiden (table : Table) (decided : Finset ℕ × List ℕ) (bound : SumCandidate) :
    Except SumError (Finset ℕ × List ℕ) :=
  match bound.maxAbs with
  | none => return (decided.1, decided.2 ++ [bound.column])
  | some maxAbs => do
    let column ← table.column bound.column
    let overflow ← sumMayOverflow column.type table.numRows maxAbs
    return if overflow then (insert bound.column decided.1, decided.2) else decided

/-- `sums_to_widen`. -/
def sumsToWiden (table : Table) (candidates : List SumCandidate) :
    Except SumError (Finset ℕ) := do
  if candidates = [] ∨ table.numRows = 0 then return ∅
  let decided ← (combineCandidateBounds candidates).foldlM (decideWiden table) (∅, [])
  if decided.2 = [] then return decided.1
  let measured ← sumsNeedingWidening minmax table decided.2
  return decided.1 ∪ measured

/-! ## Narrowing -/

def limit128 : ℕ := 2 ^ 127 - 1

/-- `decimal128_sum_may_overflow`. -/
def decimal128SumMayOverflow (numRows maxAbs : ℕ) : Bool :=
  maxAbs ≠ 0 ∧ limit128 / maxAbs < numRows

/-- What `throw_decimal128_sum_overflow` throws. -/
def decimal128SumOverflow : SumError :=
  .notImplemented "SUM over 128-bit values may overflow on GPU; falling back to DuckDB"

/-- `decimal_sum_fits_int64`. -/
def decimalSumFitsInt64 (numRows maxAbs : ℕ) : Except SumError Bool :=
  if 2 ^ 64 - 1 < maxAbs then return false
  else do
    let overflow ← sumMayOverflow ⟨.decimal64, 0⟩ numRows (UInt64.ofNat maxAbs)
    return !overflow

/-- The loop body of `decimal128_sums_measured_narrow`. -/
def measureNarrow (table : Table) (narrow : Finset ℕ) (colId : ℕ) :
    Except SumError (Finset ℕ) := do
  let column ← table.column colId
  match minmax column with
  -- a column with no valid value sums to NULL at any width
  | none => return insert colId narrow
  | some (lo, hi) =>
    let maxAbs := max (decimal128Magnitude lo) (decimal128Magnitude hi)
    if decimal128SumMayOverflow table.numRows maxAbs then .error decimal128SumOverflow
    else do
      let fits ← decimalSumFitsInt64 table.numRows maxAbs
      return if fits then insert colId narrow else narrow

/-- `decimal128_sums_measured_narrow`. -/
def decimal128SumsMeasuredNarrow (table : Table) (columns : List ℕ) :
    Except SumError (Finset ℕ) :=
  columns.foldlM (measureNarrow minmax table) ∅

/-- The loop body of `decimal_sums_to_narrow`. -/
def decideNarrow (table : Table) (decided : Finset ℕ × List ℕ) (bound : SumCandidate) :
    Except SumError (Finset ℕ × List ℕ) :=
  match bound.maxAbs with
  | none => return (decided.1, decided.2 ++ [bound.column])
  | some maxAbs => do
    let fits ← decimalSumFitsInt64 table.numRows maxAbs.toNat
    return if fits then (insert bound.column decided.1, decided.2) else decided

/-- The check of one candidate of `decimal_sums_to_narrow`. -/
def checkNarrows (table : Table) (candidate : SumCandidate) : Except SumError PUnit := do
  let column ← table.column candidate.column
  let colId := candidate.column
  if narrowedDecimalSumType column.type = none then
    .error (.internal s!"decimal_sums_to_narrow: column {colId} is not DECIMAL128")
  else return ⟨⟩

/-- `decimal_sums_to_narrow`. -/
def decimalSumsToNarrow (table : Table) (candidates : List SumCandidate) :
    Except SumError (Finset ℕ) := do
  candidates.forM (checkNarrows table)
  if candidates = [] ∨ table.numRows = 0 then return ∅
  let decided ← (combineCandidateBounds candidates).foldlM (decideNarrow table) (∅, [])
  if decided.2 = [] then return decided.1
  let measured ← decimal128SumsMeasuredNarrow minmax table decided.2
  return decided.1 ∪ measured

/-! ## Partial sums -/

/-- `compute_exact_numeric_range` (src/helper/numeric_narrowing.cpp:379-405) of a decimal column. -/
def computeExactNumericRange (column : Column) : Option (ℤ × ℤ) :=
  if column.size = 0 ∨ column.nullCount = column.size then none
  else if 0 < column.type.scale ∨ column.type.scale < -255 then none
  else minmax column

/-- The loop body of `require_decimal128_partial_sums_in_range`. -/
def requirePartial (bound : ℕ) (column : Column) : Except SumError ℕ :=
  if column.type.id ≠ .decimal128 ∨ column.size = 0 ∨ column.nullCount = column.size then
    return bound
  else
    match computeExactNumericRange minmax column with
    | none => .error decimal128SumOverflow
    | some (minimum, maximum) =>
      let maxAbs := max (decimal128Magnitude minimum) (decimal128Magnitude maximum)
      let rows := column.size
      if decimal128SumMayOverflow rows maxAbs ∨ sub128 limit128 bound < mul128 rows maxAbs then
        .error decimal128SumOverflow
      else return add128 bound (mul128 rows maxAbs)

/-- `require_decimal128_partial_sums_in_range`. -/
def requireDecimal128PartialSumsInRange (partials : List Column) : Except SumError PUnit := do
  let _ ← partials.foldlM (requirePartial minmax) 0
  return ⟨⟩

end Device

/-! ## Magnitudes -/

theorem magnitude_eq {w : ℕ} {v : ℤ} (hw : 0 < w) (h : InWidth w v) : magnitude w v = v.natAbs := by
  obtain ⟨hlow, hhigh⟩ := h
  have hpow : (2 : ℤ) ^ w = 2 * 2 ^ (w - 1) := by
    rw [← pow_succ', Nat.sub_add_cancel hw]
  have hpos : (0 : ℤ) < 2 ^ (w - 1) := by positivity
  have hcast : ((2 ^ w : ℕ) : ℤ) = 2 * 2 ^ (w - 1) := by
    push_cast
    exact hpow
  unfold magnitude
  rw [hpow]
  generalize (2 : ℤ) ^ (w - 1) = half at *
  generalize 2 ^ w = full at *
  by_cases hv : v < 0
  · have hmod : v % (2 * half) = v + 2 * half := by
      rw [← Int.add_emod_right, Int.emod_eq_of_lt (by omega) (by omega)]
    rw [if_pos hv, hmod, Nat.mod_eq_of_lt (by omega)]
    omega
  · rw [if_neg hv, Int.emod_eq_of_lt (by omega) (by omega)]
    omega

theorem decimalMagnitude_eq {v : ℤ} (h : InWidth 64 v) : (decimalMagnitude v).toNat = v.natAbs := by
  have habs : v.natAbs ≤ 2 ^ 63 := by
    have := abs_le_of_inWidth h
    rw [Int.abs_eq_natAbs] at this
    exact_mod_cast this
  rw [decimalMagnitude, magnitude_eq (by decide) h, UInt64.toNat_ofNat_of_lt']
  exact habs.trans_lt (by decide)

theorem toNat_max (a b : UInt64) : (max a b).toNat = max a.toNat b.toNat := by
  show (if a ≤ b then b else a).toNat = _
  split_ifs with h
  · exact (max_eq_right (UInt64.le_iff_toNat_le.mp h)).symm
  · exact (max_eq_left (le_of_not_ge fun hle => h (UInt64.le_iff_toNat_le.mpr hle))).symm

/-! ## Sums of a column -/

/-- What a row adds to a sum: nulls are skipped. -/
def Column.value (column : Column) (row : ℕ) : ℤ := (column.values.getD row none).getD 0

/-- **Every sum of every subset of the rows**, in any order and grouping, is in the width. -/
def Column.SumsFit (column : Column) (bits : ℕ) : Prop :=
  ∀ t : SumTree ℕ, t.leaves.Nodup → (∀ row ∈ t.leaves, row < column.size) →
    t.Fits bits column.value

/-- No valid value is larger than `m`. -/
def Column.BoundedBy (column : Column) (m : ℕ) : Prop :=
  ∀ v, some v ∈ column.values → v.natAbs ≤ m

section Column

variable {column : Column} {m bits : ℕ}

theorem Column.BoundedBy.mono {n : ℕ} (h : column.BoundedBy m) (hmn : m ≤ n) :
    column.BoundedBy n :=
  fun v hv => (h v hv).trans hmn

theorem abs_value_le (h : column.BoundedBy m) (row : ℕ) : |column.value row| ≤ m := by
  unfold Column.value
  by_cases hrow : row < column.values.length
  · rw [List.getD_eq_getElem _ _ hrow]
    cases hv : column.values[row] with
    | none => simp
    | some v =>
      have hle := h v (hv ▸ List.getElem_mem hrow)
      rw [Option.getD_some, Int.abs_eq_natAbs]
      exact_mod_cast hle
  · rw [List.getD_eq_default _ _ (by omega)]
    simp

theorem sum_abs_value_le (h : column.BoundedBy m) :
    ∑ row ∈ Finset.range column.size, |column.value row| ≤ column.size * m := by
  have hsum := Finset.sum_le_card_nsmul (Finset.range column.size) (fun row => |column.value row|) m
    fun row _ => abs_value_le h row
  simpa using hsum

/-- A sum of `n` values of magnitude at most `m` is at most `n * m`. -/
theorem sumsFit_of_boundedBy (h : column.BoundedBy m) (hlt : column.size * m < 2 ^ (bits - 1)) :
    column.SumsFit bits := by
  intro t hn hrows
  apply SumTree.fits_of_sum_lt (s := Finset.range column.size) hn
  · intro row hrow
    exact Finset.mem_range.mpr (hrows row hrow)
  · refine (sum_abs_value_le h).trans_lt ?_
    exact_mod_cast hlt

theorem boundedBy_stored (column : Column) : column.BoundedBy (2 ^ (column.type.id.bits - 1)) := by
  intro v hv
  have habs := abs_le_of_inWidth (column.stored v hv)
  rw [Int.abs_eq_natAbs] at habs
  exact_mod_cast habs

theorem size_lt (column : Column) : column.size < 2 ^ 31 := by
  have := column.size_le
  unfold Column.size
  omega

/-- **The widened type is wide enough**, whatever the values are. -/
theorem sumsFit_widened {wide : DataType} (h : widenedSumType column.type = some wide) :
    column.SumsFit wide.id.bits := by
  apply sumsFit_of_boundedBy (boundedBy_stored column)
  have hsize := size_lt column
  unfold widenedSumType widenedDecimalSumType at h
  cases htype : column.type.id <;> simp [htype] at h <;> subst h <;>
    simp [TypeId.bits, wideIntegerSumType] <;> omega

theorem value_inWidth (h : column.SumsFit bits) {v : ℤ} (hv : some v ∈ column.values) :
    InWidth bits v := by
  obtain ⟨row, hrow, hget⟩ := List.getElem_of_mem hv
  have hfits := h (.leaf row) (List.nodup_singleton row) (by
    intro i hi
    rw [List.mem_singleton.mp hi]
    exact hrow)
  have hvalue : column.value row = v := by
    unfold Column.value
    rw [List.getD_eq_getElem _ _ hrow, hget, Option.getD_some]
  exact hvalue ▸ hfits

end Column

/-! ## The overflow checks -/

theorem not_sumMayOverflow {type : DataType} {n : ℕ} {m : UInt64} (hn : n < 2 ^ 31)
    (h : sumMayOverflow type n m = .ok false) : n * m.toNat < 2 ^ (type.id.bits - 1) := by
  have hm : m.toNat < 2 ^ 64 := m.toNat_lt
  have hprod : n * m.toNat < 2 ^ 128 := by
    calc n * m.toNat ≤ 2 ^ 31 * 2 ^ 64 := Nat.mul_le_mul hn.le hm.le
      _ < 2 ^ 128 := by norm_num
  have hmul : mul128 n m.toNat = n * m.toNat := Nat.mod_eq_of_lt hprod
  unfold sumMayOverflow at h
  obtain ⟨limit, hlimit, h⟩ := bind_eq_ok.mp h
  have hle : n * m.toNat ≤ limit := by
    by_cases hzero : n ≤ 0
    · rw [Nat.le_zero.mp hzero]
      simp
    · rw [if_neg hzero, pure_eq_ok, decide_eq_false_iff_not, hmul] at h
      omega
  unfold sumLimit at hlimit
  cases htype : type.id <;> simp [htype] at hlimit <;> subst hlimit <;>
    simp [TypeId.bits] <;> omega

/-- The check is only made for a type that can be widened. -/
theorem exists_widened_of_sumMayOverflow {type : DataType} {n : ℕ} {m : UInt64} {overflow : Bool}
    (h : sumMayOverflow type n m = .ok overflow) : ∃ wide, widenedSumType type = some wide := by
  unfold sumMayOverflow at h
  obtain ⟨limit, hlimit, -⟩ := bind_eq_ok.mp h
  unfold sumLimit at hlimit
  unfold widenedSumType widenedDecimalSumType
  cases htype : type.id <;> simp [htype] at hlimit ⊢

theorem decimalSumFitsInt64_lt {n m : ℕ} (hn : n < 2 ^ 31)
    (h : decimalSumFitsInt64 n m = .ok true) : n * m < 2 ^ 63 := by
  unfold decimalSumFitsInt64 at h
  split_ifs at h with hm
  · cases h
  · obtain ⟨overflow, hoverflow, h⟩ := bind_eq_ok.mp h
    obtain rfl : overflow = false := by simpa [pure_eq_ok] using h
    have hlt := not_sumMayOverflow hn hoverflow
    rwa [UInt64.toNat_ofNat_of_lt' (by norm_num; omega)] at hlt

theorem mul_le_limit128 {n m : ℕ} (h : decimal128SumMayOverflow n m = false) : n * m ≤ limit128 := by
  simp only [decimal128SumMayOverflow, decide_eq_false_iff_not, not_and, not_lt] at h
  by_cases hm : m = 0
  · simp [hm]
  · exact (Nat.le_div_iff_mul_le (Nat.pos_of_ne_zero hm)).mp (h hm)

/-! ## The bounds of the planner -/

/-- The bounds that the planner proved, where there are any, are bounds of the values. -/
def BoundsHold (table : Table) (candidates : List SumCandidate) : Prop :=
  ∀ candidate ∈ candidates, ∀ m, candidate.maxAbs = some m →
    ∀ column, table.column candidate.column = .ok column → column.BoundedBy m.toNat

section Combine

variable {table : Table} {candidate : SumCandidate} {columns candidates : List SumCandidate}

theorem mem_columns_combineBound (c : ℕ) :
    c ∈ (combineBound candidate columns).map SumCandidate.column ↔
      c = candidate.column ∨ c ∈ columns.map SumCandidate.column := by
  induction columns with
  | nil => simp [combineBound]
  | cons known columns ih =>
    rw [combineBound]
    split_ifs with hknown
    · cases known.maxAbs <;> cases candidate.maxAbs <;> simp [hknown]
    · rw [List.map_cons, List.mem_cons, ih, List.map_cons, List.mem_cons]
      tauto

theorem boundsHold_combineBound (hcolumns : BoundsHold table columns)
    (hcandidate : BoundsHold table [candidate]) :
    BoundsHold table (combineBound candidate columns) := by
  induction columns with
  | nil => exact hcandidate
  | cons known columns ih =>
    have hrest : BoundsHold table columns := fun k hk => hcolumns k (List.mem_cons_of_mem _ hk)
    rw [combineBound]
    split_ifs with hknown
    · -- the merged bound is at least the bound that the column had
      have hmerged : ∀ bound : Option UInt64, (∀ m, bound = some m →
          ∃ a, known.maxAbs = some a ∧ a.toNat ≤ m.toNat) →
          BoundsHold table ({ known with maxAbs := bound } :: columns) := by
        intro bound hbound k hk m hm column hcolumn
        rcases List.mem_cons.mp hk with rfl | hk
        · obtain ⟨a, ha, hle⟩ := hbound m hm
          exact (hcolumns known List.mem_cons_self a ha column hcolumn).mono hle
        · exact hrest k hk m hm column hcolumn
      cases ha : known.maxAbs with
      | none => exact hmerged none (by simp)
      | some a =>
        cases hb : candidate.maxAbs with
        | none => exact hmerged none (by simp)
        | some b =>
          apply hmerged
          rintro m ⟨rfl⟩
          refine ⟨a, ha, ?_⟩
          rw [toNat_max]
          exact le_max_left _ _
    · intro k hk
      rcases List.mem_cons.mp hk with rfl | hk
      · exact hcolumns k List.mem_cons_self
      · exact ih hrest k hk

theorem boundsHold_foldl (hcolumns : BoundsHold table columns)
    (hcandidates : BoundsHold table candidates) :
    BoundsHold table
      (candidates.foldl (fun columns candidate => combineBound candidate columns) columns) := by
  induction candidates generalizing columns with
  | nil => exact hcolumns
  | cons candidate candidates ih =>
    rw [List.foldl_cons]
    apply ih
    · apply boundsHold_combineBound hcolumns
      intro k hk
      rw [List.mem_singleton.mp hk]
      exact hcandidates candidate List.mem_cons_self
    · exact fun k hk => hcandidates k (List.mem_cons_of_mem _ hk)

/-- **The combined bounds hold.** -/
theorem boundsHold_combineCandidateBounds (h : BoundsHold table candidates) :
    BoundsHold table (combineCandidateBounds candidates) :=
  boundsHold_foldl (fun _ hk => absurd hk List.not_mem_nil) h

/-- The combined bounds are of the same columns. -/
theorem mem_columns_combineCandidateBounds (c : ℕ) :
    c ∈ (combineCandidateBounds candidates).map SumCandidate.column ↔
      c ∈ candidates.map SumCandidate.column := by
  have hfoldl : ∀ columns : List SumCandidate, c ∈ (candidates.foldl
      (fun columns candidate => combineBound candidate columns) columns).map SumCandidate.column ↔
      c ∈ candidates.map SumCandidate.column ∨ c ∈ columns.map SumCandidate.column := by
    induction candidates with
    | nil => simp
    | cons candidate candidates ih =>
      intro columns
      rw [List.foldl_cons, ih, mem_columns_combineBound, List.map_cons, List.mem_cons]
      tauto
  rw [combineCandidateBounds, hfoldl]
  simp

end Combine

end Sirius.Aggregate.SumWidths
