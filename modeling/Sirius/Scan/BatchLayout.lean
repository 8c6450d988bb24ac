import Sirius.Common.Checked

/-!
# The row layout of a decoded batch

Model of `src/op/scan/parquet_batch_layout.cpp`. A split is a list of slices, and
a slice selects row groups of one file. The decoded batch holds the rows of the
selected row groups one after the other; `build_batch_layout` says for each of
them where it is in its file and where it is in the batch. Row counts and
offsets are `int64_t`, added with an overflow check, and are modelled in `ℤ`.

* `decodedRows`: the file and the row number of every row of the batch.
* `buildBatchLayout_ok_iff`: the layout exists exactly for well-formed splits.
* `buildBatchLayout_spec`: its runs tile the batch and list the decoded rows.
-/

namespace Sirius.Scan

open Sirius.Common

/-- The exceptions of the scan code, with their texts. -/
inductive Exn where
  | internal (what : String)
  | notImplemented (what : String)
  | invalidArgument (what : String)
  | outOfRange (what : String)
  deriving DecidableEq, Repr

def int64Max : ℤ := 2 ^ 63 - 1

/-- `invalid_parquet_file_index`: the largest `size_t`. -/
def invalidParquetFileIndex : ℕ := 2 ^ 64 - 1

/-- `row_group_slice`: `fileMetadata` is the `num_rows` of the row groups of the
    footer, if there is one. -/
structure RowGroupSlice where
  filePath : String
  fileMetadata : Option (List ℤ)
  rowGroupIndices : List ℤ
  fileIndex : ℕ
  deriving DecidableEq, Repr

/-- `batch_row_run` (`parquet_batch_layout.hpp`). -/
structure BatchRowRun where
  dataFilePath : String
  fileRowOffset : ℤ
  batchRowOffset : ℤ
  numRows : ℤ
  fileIndex : ℕ
  deriving DecidableEq, Repr

/-! ## The code -/

/-- `checked_add(lhs, rhs, context)` (lines 21–32). -/
def checkedAdd (lhs rhs : ℤ) (context : String) : Except Exn ℤ :=
  if rhs < 0 then
    .error (.internal ("[parquet_batch_layout] " ++ context ++ " has a negative row count"))
  else if lhs > int64Max - rhs then
    .error (.internal ("[parquet_batch_layout] " ++ context ++ " overflows a 64-bit row offset"))
  else .ok (lhs + rhs)

/-- `first_row_of` from `first` on (lines 51–57). -/
def firstRowOf (context : String) (first : ℤ) : List ℤ → Except Exn (List ℤ)
  | [] => .ok [first]
  | n :: rowGroups => do
    let next ← checkedAdd first n context
    let rest ← firstRowOf context next rowGroups
    return first :: rest

/-- The loop over the selected row groups of a slice (lines 59–79): the runs it
    adds and the new `batch_row_offset`. -/
def selectRuns (slice : RowGroupSlice) (rowGroups firstRows : List ℤ) :
    Option ℕ → ℤ → List ℤ → Except Exn (List BatchRowRun × ℤ)
  | _, offset, [] => .ok ([], offset)
  | previous, offset, rgIndex :: rest =>
    if rgIndex < 0 ∨ rgIndex.toNat ≥ rowGroups.length then
      .error (.internal ("[parquet_batch_layout] row group index " ++ toString rgIndex ++
        " for '" ++ slice.filePath ++ "' is outside its footer's row-group list"))
    else if previous.any (rgIndex.toNat ≤ ·) then
      .error (.internal ("[parquet_batch_layout] selected row groups for '" ++ slice.filePath ++
        "' must be strictly increasing"))
    else do
      let numRows := rowGroups.getD rgIndex.toNat 0
      let next ← checkedAdd offset numRows ("decoded batch containing '" ++ slice.filePath ++ "'")
      let (runs, last) ← selectRuns slice rowGroups firstRows (some rgIndex.toNat) next rest
      return ({
        dataFilePath := slice.filePath
        fileRowOffset := firstRows.getD rgIndex.toNat 0
        batchRowOffset := offset
        numRows := numRows
        fileIndex := slice.fileIndex } :: runs, last)

/-- One slice (lines 41–80). -/
def sliceRuns (slice : RowGroupSlice) (offset : ℤ) : Except Exn (List BatchRowRun × ℤ) :=
  if slice.fileIndex = invalidParquetFileIndex then
    .error (.internal ("[parquet_batch_layout] row-group slice for '" ++ slice.filePath ++
      "' has no bound file index"))
  else
    match slice.fileMetadata with
    | none =>
      .error (.internal ("[parquet_batch_layout] row-group slice for '" ++ slice.filePath ++
        "' has no footer metadata"))
    | some rowGroups => do
      let firstRows ← firstRowOf ("footer for '" ++ slice.filePath ++ "'") 0 rowGroups
      selectRuns slice rowGroups firstRows none offset slice.rowGroupIndices

/-- The loop over the slices, from batch row `offset` on. -/
def layoutFrom (offset : ℤ) : List RowGroupSlice → Except Exn (List BatchRowRun)
  | [] => .ok []
  | slice :: slices => do
    let (runs, next) ← sliceRuns slice offset
    let rest ← layoutFrom next slices
    return runs ++ rest

/-- `build_batch_layout(split)` (lines 36–82). -/
def buildBatchLayout (slices : List RowGroupSlice) : Except Exn (List BatchRowRun) :=
  layoutFrom 0 slices

/-! ## The rows of the batch -/

/-- A row of a file, by the path and the index of the file and its row number in
    the file. -/
structure SourceRow where
  path : String
  file : ℕ
  row : ℤ
  deriving DecidableEq, Repr

/-- The rows of row group `i` of the slice. The row number counts the rows of
    every earlier row group, selected or not. -/
def RowGroupSlice.groupRows (slice : RowGroupSlice) (rowGroups : List ℤ) (i : ℕ) :
    List SourceRow :=
  (List.range (rowGroups.getD i 0).toNat).map fun j : ℕ =>
    { path := slice.filePath, file := slice.fileIndex, row := (rowGroups.take i).sum + j }

/-- The decoded rows of a slice. -/
def RowGroupSlice.rows (slice : RowGroupSlice) : List SourceRow :=
  slice.rowGroupIndices.flatMap fun i => slice.groupRows (slice.fileMetadata.getD []) i.toNat

/-- The decoded rows of a split, in the order of the batch. -/
def decodedRows (slices : List RowGroupSlice) : List SourceRow :=
  slices.flatMap RowGroupSlice.rows

/-- What a slice must be like: bound, with a footer whose row counts make sense,
    and a strictly increasing selection inside the footer. -/
structure RowGroupSlice.WellFormed (slice : RowGroupSlice) : Prop where
  bound : slice.fileIndex ≠ invalidParquetFileIndex
  footer : slice.fileMetadata.isSome
  nonneg : ∀ n ∈ slice.fileMetadata.getD [], 0 ≤ n
  fits : (slice.fileMetadata.getD []).sum ≤ int64Max
  inside : ∀ i ∈ slice.rowGroupIndices, 0 ≤ i ∧ i.toNat < (slice.fileMetadata.getD []).length
  increasing : slice.rowGroupIndices.Pairwise (· < ·)

/-- A well-formed split: well-formed slices, and a batch whose offsets fit. -/
def WellFormed (slices : List RowGroupSlice) : Prop :=
  (∀ slice ∈ slices, slice.WellFormed) ∧ ((decodedRows slices).length : ℤ) ≤ int64Max

/-- The rows of a run. -/
def BatchRowRun.rows (run : BatchRowRun) : List SourceRow :=
  (List.range run.numRows.toNat).map fun j : ℕ =>
    { path := run.dataFilePath, file := run.fileIndex, row := run.fileRowOffset + j }

/-- The runs cover the batch rows from `start` to `stop`, without gap or
    overlap, and lie inside their files. -/
def Tiles : ℤ → List BatchRowRun → ℤ → Prop
  | start, [], stop => start = stop
  | start, run :: runs, stop =>
    run.batchRowOffset = start ∧ 0 ≤ run.numRows ∧ 0 ≤ run.fileRowOffset ∧
      run.fileRowOffset + run.numRows ≤ int64Max ∧ Tiles (start + run.numRows) runs stop

theorem Tiles.append {start mid stop : ℤ} {runs runs' : List BatchRowRun}
    (h : Tiles start runs mid) (h' : Tiles mid runs' stop) : Tiles start (runs ++ runs') stop := by
  induction runs generalizing start with
  | nil =>
    rw [Tiles] at h
    rw [h]
    exact h'
  | cons run runs ih =>
    obtain ⟨h1, h2, h3, h4, h5⟩ := h
    exact ⟨h1, h2, h3, h4, ih h5⟩

variable {runs : List BatchRowRun}

theorem Tiles.length {start stop : ℤ} (h : Tiles start runs stop) :
    start + (runs.flatMap BatchRowRun.rows).length = stop := by
  induction runs generalizing start with
  | nil =>
    rw [Tiles] at h
    simpa using h
  | cons run runs ih =>
    obtain ⟨-, h2, -, -, h5⟩ := h
    have := ih h5
    simp only [List.flatMap_cons, List.length_append, BatchRowRun.rows, List.length_map,
      List.length_range] at this ⊢
    omega

/-! ## The layout of a split -/

theorem checkedAdd_eq_ok {lhs rhs r : ℤ} {context : String} :
    checkedAdd lhs rhs context = .ok r ↔ 0 ≤ rhs ∧ lhs + rhs ≤ int64Max ∧ r = lhs + rhs := by
  unfold checkedAdd
  simp only [ite_error_eq_ok, Except.ok.injEq]
  omega

/-- `first_row_of` has the row number of the first row of every row group. -/
theorem firstRowOf_spec {context : String} {first : ℤ} {rowGroups firstRows : List ℤ}
    (h : firstRowOf context first rowGroups = .ok firstRows) :
    (∀ n ∈ rowGroups, 0 ≤ n) ∧ (first ≤ int64Max → first + rowGroups.sum ≤ int64Max) ∧
      ∀ i ≤ rowGroups.length, firstRows.getD i 0 = first + (rowGroups.take i).sum := by
  induction rowGroups generalizing first firstRows with
  | nil =>
    cases h
    refine ⟨by simp, by simp, fun i hi => ?_⟩
    obtain rfl : i = 0 := by simpa using hi
    simp
  | cons n rowGroups ih =>
    rw [firstRowOf] at h
    simp only [bind_eq_ok, pure_eq_ok, checkedAdd_eq_ok] at h
    obtain ⟨next, ⟨hn, hfits, rfl⟩, rest, hrest, rfl⟩ := h
    obtain ⟨h1, h2, h3⟩ := ih hrest
    refine ⟨by simpa using ⟨hn, h1⟩, fun _ => ?_, fun i hi => ?_⟩
    · have := h2 hfits
      simp only [List.sum_cons]
      omega
    · cases i with
      | zero => simp
      | succ i =>
        have := h3 i (by simpa using hi)
        simp only [List.getD_cons_succ, List.take_succ_cons, List.sum_cons]
        omega

theorem firstRowOf_total (context : String) {first : ℤ} {rowGroups : List ℤ}
    (hn : ∀ n ∈ rowGroups, 0 ≤ n) (hfits : first + rowGroups.sum ≤ int64Max) :
    ∃ firstRows, firstRowOf context first rowGroups = .ok firstRows := by
  induction rowGroups generalizing first with
  | nil => exact ⟨_, rfl⟩
  | cons n rowGroups ih =>
    simp only [List.mem_cons, forall_eq_or_imp] at hn
    have hpos : 0 ≤ rowGroups.sum := List.sum_nonneg hn.2
    simp only [List.sum_cons] at hfits
    obtain ⟨rest, hrest⟩ := @ih (first + n) hn.2 (by omega)
    refine ⟨first :: rest, ?_⟩
    rw [firstRowOf]
    simp only [bind_eq_ok, pure_eq_ok, checkedAdd_eq_ok]
    exact ⟨first + n, ⟨hn.1, by omega, rfl⟩, rest, hrest, rfl⟩

section Slice

variable {slice : RowGroupSlice} {rowGroups firstRows : List ℤ}

theorem take_sum_add_le (hn : ∀ n ∈ rowGroups, 0 ≤ n) {i : ℕ} (hi : i < rowGroups.length) :
    0 ≤ (rowGroups.take i).sum ∧ 0 ≤ rowGroups.getD i 0 ∧
      (rowGroups.take i).sum + rowGroups.getD i 0 ≤ rowGroups.sum := by
  have hmem : rowGroups.getD i 0 ∈ rowGroups := by
    rw [List.getD_eq_getElem _ _ hi]
    exact List.getElem_mem hi
  have hsplit : (rowGroups.take (i + 1)).sum = (rowGroups.take i).sum + rowGroups.getD i 0 := by
    rw [List.take_succ_eq_append_getElem hi, List.sum_append, List.getD_eq_getElem _ _ hi]
    simp
  have htail : 0 ≤ (rowGroups.drop (i + 1)).sum :=
    List.sum_nonneg fun n h => hn n (List.mem_of_mem_drop h)
  have hall : (rowGroups.take (i + 1)).sum + (rowGroups.drop (i + 1)).sum = rowGroups.sum := by
    rw [← List.sum_append, List.take_append_drop]
  refine ⟨List.sum_nonneg fun n h => hn n (List.mem_of_mem_take h), hn _ hmem, by omega⟩

theorem length_groupRows (i : ℕ) :
    (slice.groupRows rowGroups i).length = (rowGroups.getD i 0).toNat := by
  simp [RowGroupSlice.groupRows]

theorem selectRuns_spec (hn : ∀ n ∈ rowGroups, 0 ≤ n) (hfits : rowGroups.sum ≤ int64Max)
    (hfirst : ∀ i ≤ rowGroups.length, firstRows.getD i 0 = (rowGroups.take i).sum)
    {previous : Option ℕ} {offset last : ℤ} {indices : List ℤ} {runs : List BatchRowRun}
    (h : selectRuns slice rowGroups firstRows previous offset indices = .ok (runs, last)) :
    (∀ i ∈ indices, 0 ≤ i ∧ i.toNat < rowGroups.length) ∧ indices.Pairwise (· < ·) ∧
      (∀ p ∈ previous, ∀ i ∈ indices, (p : ℤ) < i) ∧ (offset ≤ int64Max → last ≤ int64Max) ∧
      Tiles offset runs last ∧ runs.flatMap BatchRowRun.rows =
        indices.flatMap fun i => slice.groupRows rowGroups i.toNat := by
  induction indices generalizing previous offset runs with
  | nil =>
    cases h
    simp [Tiles]
  | cons i indices ih =>
    rw [selectRuns] at h
    simp only [ite_error_eq_ok, bind_eq_ok, pure_eq_ok, checkedAdd_eq_ok, not_or, not_lt,
      ge_iff_le, not_le, Prod.mk.injEq] at h
    obtain ⟨hi, hprev, next, ⟨hrows, hnext, rfl⟩, ⟨rest, last'⟩, hrest, rfl, rfl⟩ := h
    obtain ⟨h1, h2, h3, h4, h5, h6⟩ := ih hrest
    have hlt : ∀ j ∈ indices, i < j := by
      intro j hj
      have := h3 i.toNat rfl j hj
      omega
    obtain ⟨hs1, hs2, hs3⟩ := take_sum_add_le hn hi.2
    refine ⟨by simpa using ⟨hi, h1⟩, by simpa using ⟨hlt, h2⟩, ?_, fun _ => h4 hnext, ?_, ?_⟩
    · intro p hp j hj
      have hpi : (p : ℤ) < i := by
        have : ¬i.toNat ≤ p := by
          intro hle
          exact hprev (by rw [Option.any_eq_true]; exact ⟨p, hp, by simpa using hle⟩)
        omega
      rcases List.mem_cons.mp hj with rfl | hj
      · exact hpi
      · have := hlt j hj
        omega
    · have hoff := hfirst i.toNat hi.2.le
      refine ⟨rfl, hs2, ?_, ?_, h5⟩
      · show 0 ≤ firstRows.getD i.toNat 0
        omega
      · show firstRows.getD i.toNat 0 + rowGroups.getD i.toNat 0 ≤ int64Max
        omega
    · simp only [List.flatMap_cons, h6, BatchRowRun.rows, RowGroupSlice.groupRows,
        hfirst i.toNat hi.2.le]

theorem selectRuns_total (firstRows : List ℤ) (hn : ∀ n ∈ rowGroups, 0 ≤ n) {previous : Option ℕ} {offset : ℤ}
    {indices : List ℤ} (hin : ∀ i ∈ indices, 0 ≤ i ∧ i.toNat < rowGroups.length)
    (hinc : indices.Pairwise (· < ·)) (hprev : ∀ p ∈ previous, ∀ i ∈ indices, (p : ℤ) < i)
    (hfits : offset +
      (indices.flatMap fun i => slice.groupRows rowGroups i.toNat).length ≤ int64Max) :
    ∃ r, selectRuns slice rowGroups firstRows previous offset indices = .ok r := by
  induction indices generalizing previous offset with
  | nil => exact ⟨_, rfl⟩
  | cons i indices ih =>
    simp only [List.mem_cons, forall_eq_or_imp] at hin hprev
    obtain ⟨hi, hin⟩ := hin
    obtain ⟨hlt, hinc⟩ := List.pairwise_cons.mp hinc
    obtain ⟨-, hrows, -⟩ := take_sum_add_le hn hi.2
    simp only [List.flatMap_cons, List.length_append, length_groupRows] at hfits
    have hafter : ∀ p ∈ some i.toNat, ∀ j ∈ indices, (p : ℤ) < j := by
      intro p hp j hj
      cases hp
      have := hlt j hj
      omega
    obtain ⟨⟨runs, last⟩, hrest⟩ :=
      @ih (some i.toNat) (offset + rowGroups.getD i.toNat 0) hin hinc hafter (by omega)
    rw [selectRuns]
    simp only [ite_error_eq_ok, bind_eq_ok, pure_eq_ok, checkedAdd_eq_ok]
    refine ⟨_, by omega, ?_, _, ⟨hrows, by omega, rfl⟩, _, hrest, rfl⟩
    rw [Option.any_eq_true]
    rintro ⟨p, hp, hle⟩
    have hlt := (hprev p hp).1
    have hle : i.toNat ≤ p := by simpa using hle
    omega

end Slice

/-! ## Slices and splits -/

theorem sliceRuns_spec {slice : RowGroupSlice} {offset last : ℤ}
    (h : sliceRuns slice offset = .ok (runs, last)) :
    slice.WellFormed ∧ (offset ≤ int64Max → last ≤ int64Max) ∧ Tiles offset runs last ∧
      runs.flatMap BatchRowRun.rows = slice.rows := by
  unfold sliceRuns at h
  rw [ite_error_eq_ok] at h
  obtain ⟨hbound, h⟩ := h
  cases hmeta : slice.fileMetadata with
  | none =>
    rw [hmeta] at h
    cases h
  | some rowGroups =>
    rw [hmeta] at h
    simp only [bind_eq_ok] at h
    obtain ⟨firstRows, hfirst, h⟩ := h
    obtain ⟨hn, hfits, hval⟩ := firstRowOf_spec hfirst
    simp only [zero_add] at hfits hval
    have hfits := hfits (by decide)
    obtain ⟨h1, h2, -, h4, h5, h6⟩ := selectRuns_spec hn hfits hval h
    refine ⟨⟨hbound, by rw [hmeta]; rfl, ?_, ?_, ?_, h2⟩, h4, h5, ?_⟩
    · simpa only [hmeta, Option.getD_some] using hn
    · simpa only [hmeta, Option.getD_some] using hfits
    · simpa only [hmeta, Option.getD_some] using h1
    · rw [h6, RowGroupSlice.rows, hmeta, Option.getD_some]

theorem sliceRuns_total {slice : RowGroupSlice} (offset : ℤ) (h : slice.WellFormed)
    (hfits : offset + slice.rows.length ≤ int64Max) : ∃ r, sliceRuns slice offset = .ok r := by
  obtain ⟨rowGroups, hmeta⟩ := Option.isSome_iff_exists.mp h.footer
  have hn := h.nonneg
  have hsum := h.fits
  have hin := h.inside
  simp only [RowGroupSlice.rows, hmeta, Option.getD_some] at hn hsum hin hfits
  obtain ⟨firstRows, hfirst⟩ :=
    firstRowOf_total ("footer for '" ++ slice.filePath ++ "'") hn ((zero_add _).trans_le hsum)
  have hnone : ∀ p ∈ (none : Option ℕ), ∀ i ∈ slice.rowGroupIndices, (p : ℤ) < i := by simp
  obtain ⟨r, hr⟩ := selectRuns_total firstRows hn hin h.increasing hnone hfits
  refine ⟨r, ?_⟩
  unfold sliceRuns
  rw [ite_error_eq_ok, hmeta]
  simp only [bind_eq_ok]
  exact ⟨h.bound, firstRows, hfirst, hr⟩

variable {slices : List RowGroupSlice}

theorem layoutFrom_spec {offset : ℤ} (h0 : offset ≤ int64Max)
    (h : layoutFrom offset slices = .ok runs) :
    (∀ slice ∈ slices, slice.WellFormed) ∧ runs.flatMap BatchRowRun.rows = decodedRows slices ∧
      ∃ last ≤ int64Max, Tiles offset runs last := by
  induction slices generalizing offset runs with
  | nil =>
    cases h
    exact ⟨by simp, rfl, offset, h0, rfl⟩
  | cons slice slices ih =>
    rw [layoutFrom] at h
    simp only [bind_eq_ok, pure_eq_ok] at h
    obtain ⟨⟨first, next⟩, hslice, rest, hrest, rfl⟩ := h
    obtain ⟨h1, h2, h3, h4⟩ := sliceRuns_spec hslice
    obtain ⟨h5, h6, last, hlast, h7⟩ := ih (h2 h0) hrest
    refine ⟨by simpa using ⟨h1, h5⟩, ?_, last, hlast, h3.append h7⟩
    rw [List.flatMap_append, h4, h6, decodedRows, decodedRows, List.flatMap_cons]

theorem layoutFrom_total {offset : ℤ} (h : ∀ slice ∈ slices, slice.WellFormed)
    (hfits : offset + (decodedRows slices).length ≤ int64Max) :
    ∃ runs, layoutFrom offset slices = .ok runs := by
  induction slices generalizing offset with
  | nil => exact ⟨_, rfl⟩
  | cons slice slices ih =>
    simp only [List.mem_cons, forall_eq_or_imp] at h
    simp only [decodedRows, List.flatMap_cons, List.length_append] at hfits
    obtain ⟨⟨first, next⟩, hslice⟩ := sliceRuns_total offset h.1 (by omega)
    obtain ⟨-, -, h3, h4⟩ := sliceRuns_spec hslice
    have hnext := h3.length
    rw [h4] at hnext
    obtain ⟨rest, hrest⟩ := @ih next h.2 (by rw [decodedRows]; omega)
    refine ⟨first ++ rest, ?_⟩
    rw [layoutFrom]
    simp only [bind_eq_ok, pure_eq_ok]
    exact ⟨(first, next), hslice, rest, hrest, rfl⟩

/-- The runs of a layout tile the batch and list its rows in order. -/
theorem buildBatchLayout_spec (h : buildBatchLayout slices = .ok runs) :
    WellFormed slices ∧ Tiles 0 runs (decodedRows slices).length ∧
      runs.flatMap BatchRowRun.rows = decodedRows slices := by
  obtain ⟨h1, h2, last, hlast, h3⟩ := layoutFrom_spec (by decide) h
  have hlen := h3.length
  rw [h2, zero_add] at hlen
  subst hlen
  exact ⟨⟨h1, hlast⟩, h3, h2⟩

/-- There is a layout exactly for the well-formed splits. -/
theorem buildBatchLayout_ok_iff :
    (∃ runs, buildBatchLayout slices = .ok runs) ↔ WellFormed slices := by
  constructor
  · rintro ⟨runs, h⟩
    exact (buildBatchLayout_spec h).1
  · rintro ⟨h1, h2⟩
    exact layoutFrom_total h1 (by omega)

end Sirius.Scan
