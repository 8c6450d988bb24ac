import Sirius.Common.RetentionMask
import Sirius.Scan.BatchLayout

/-!
# Positional visibility

Model of `src/op/scan/positional_visibility.cpp`: the deleted positions of each
file are turned into a keep-mask over the decoded batch. A position counts all
rows of its file, while the batch holds the rows of the selected row groups of
several files, so each run of the layout translates the positions that fall into
it. The second overload works on a `materialized_batch`, whose `row_domain`
(`materialization_contract.cpp`, lines 12–37) has runs or single positions.

A table is a list of rows, and `cudf::apply_retention_mask` is a parameter. The
lookup is a function: a lookup that throws ends the call.

* `applyPositionalVisibility_eq`: on a layout that tiles the table.
* `undeleted_rows_kept`: what the two functions do together.
-/

namespace Sirius.Scan

open Sirius.Common

variable {α : Type}

/-! ## The code -/

/-- `std::lower_bound` on a sorted range: the number of elements below `value`. -/
def lowerBound (xs : List ℤ) (value : ℤ) : ℕ := (xs.takeWhile (· < value)).length

/-- The range from `lo` to `hi` (lines 66–69). -/
def window (positions : List ℤ) (run : BatchRowRun) : List ℤ :=
  let rest := positions.drop (lowerBound positions run.fileRowOffset)
  rest.take (lowerBound rest (run.fileRowOffset + run.numRows))

/-- The layout check (lines 42–50). -/
def checkLayout (numRows : ℤ) : ℤ → List BatchRowRun → Except Exn Unit
  | offset, [] =>
    if offset ≠ numRows then .error (.invalidArgument "incomplete visibility row layout")
    else .ok ()
  | offset, run :: layout =>
    if run.batchRowOffset ≠ offset ∨ run.numRows < 0 ∨ run.fileRowOffset < 0 ∨
        run.fileRowOffset > int64Max - run.numRows ∨ run.numRows > numRows - offset then
      .error (.invalidArgument "invalid positional visibility row layout")
    else checkLayout numRows (offset + run.numRows) layout

/-- One deleted position (lines 72–83), on `keep` and `any_deleted`. -/
def markDeleted (numRows : ℤ) (run : BatchRowRun) (state : List Bool × Bool) (pos : ℤ) :
    Except Exn (List Bool × Bool) :=
  let batchRow := run.batchRowOffset + (pos - run.fileRowOffset)
  if batchRow < 0 ∨ batchRow ≥ numRows then
    .error (.outOfRange ("positional visibility: delete position " ++ toString pos ++ " in '" ++
      run.dataFilePath ++ "' maps outside the decoded batch — the batch row layout does not " ++
      "describe the decoded table"))
  else .ok (state.1.set batchRow.toNat false, true)

/-- One run (lines 62–85). -/
def markRun (numRows : ℤ) (positionsFor : String → List ℤ) (state : List Bool × Bool)
    (run : BatchRowRun) : Except Exn (List Bool × Bool) :=
  if (positionsFor run.dataFilePath).isEmpty then .ok state
  else (window (positionsFor run.dataFilePath) run).foldlM (markDeleted numRows run) state

/-- `apply_positional_visibility(tbl, layout, positions_for)` (lines 36–103). -/
def applyPositionalVisibility (applyRetentionMask : List α → List Bool → List α) (tbl : List α)
    (layout : List BatchRowRun) (positionsFor : String → List ℤ) : Except Exn (List α) := do
  checkLayout tbl.length 0 layout
  if tbl.length = 0 ∨ ¬layout.any fun run => !(positionsFor run.dataFilePath).isEmpty then .ok tbl
  else do
    let (keep, anyDeleted) ←
      layout.foldlM (markRun tbl.length positionsFor) (List.replicate tbl.length true, false)
    if anyDeleted = false then .ok tbl else .ok (applyRetentionMask tbl keep)

/-! ## The rows that are kept -/

/-- The rows of `tbl` that are not deleted, where `rows` says which row of which
    file each of them is. -/
def undeleted (tbl : List α) (rows : List SourceRow) (deleted : SourceRow → Prop)
    [DecidablePred deleted] : List α :=
  ((tbl.zip rows).filter fun e => ¬deleted e.2).map Prod.fst

/-- Strictly increasing positions for every file. -/
def Increasing (positionsFor : String → List ℤ) : Prop :=
  ∀ path, (positionsFor path).Pairwise (· < ·)

theorem drop_lowerBound (xs : List ℤ) (value : ℤ) :
    xs.drop (lowerBound xs value) = xs.dropWhile (· < value) := by
  unfold lowerBound
  induction xs with
  | nil => rfl
  | cons x xs ih =>
    rw [List.takeWhile_cons, List.dropWhile_cons]
    split_ifs
    · simpa using ih
    · rfl

theorem take_lowerBound (xs : List ℤ) (value : ℤ) :
    xs.take (lowerBound xs value) = xs.takeWhile (· < value) := by
  unfold lowerBound
  exact (List.prefix_iff_eq_take.mp (List.takeWhile_prefix _)).symm

theorem mem_dropWhile_lt {xs : List ℤ} (hs : xs.Pairwise (· < ·)) {value p : ℤ} :
    p ∈ xs.dropWhile (· < value) ↔ p ∈ xs ∧ value ≤ p := by
  induction xs with
  | nil => simp
  | cons x xs ih =>
    obtain ⟨hlt, hs⟩ := List.pairwise_cons.mp hs
    rw [List.dropWhile_cons]
    split_ifs with hx
    · have hx : x < value := by simpa using hx
      rw [ih hs, List.mem_cons]
      constructor
      · rintro ⟨hp, hle⟩
        exact ⟨Or.inr hp, hle⟩
      · rintro ⟨rfl | hp, hle⟩
        · omega
        · exact ⟨hp, hle⟩
    · have hx : value ≤ x := by simpa using hx
      constructor
      · intro hp
        refine ⟨hp, ?_⟩
        rcases List.mem_cons.mp hp with rfl | hp
        · exact hx
        · have := hlt p hp
          omega
      · exact And.left

theorem mem_takeWhile_lt {xs : List ℤ} (hs : xs.Pairwise (· < ·)) {value p : ℤ} :
    p ∈ xs.takeWhile (· < value) ↔ p ∈ xs ∧ p < value := by
  induction xs with
  | nil => simp
  | cons x xs ih =>
    obtain ⟨hlt, hs⟩ := List.pairwise_cons.mp hs
    rw [List.takeWhile_cons]
    split_ifs with hx
    · have hx : x < value := by simpa using hx
      rw [List.mem_cons, List.mem_cons, ih hs]
      constructor
      · rintro (rfl | ⟨hp, hlt⟩)
        · exact ⟨Or.inl rfl, hx⟩
        · exact ⟨Or.inr hp, hlt⟩
      · rintro ⟨rfl | hp, hlt⟩
        · exact Or.inl rfl
        · exact Or.inr ⟨hp, hlt⟩
    · have hx : value ≤ x := by simpa using hx
      simp only [List.not_mem_nil, false_iff, not_and, not_lt, List.mem_cons]
      rintro (rfl | hp)
      · exact hx
      · have := hlt p hp
        omega

variable {p stop offset : ℤ}

/-- The two binary searches find the positions inside the run. -/
theorem mem_window {positions : List ℤ} (hs : positions.Pairwise (· < ·)) {run : BatchRowRun} : p ∈ window positions run ↔
      p ∈ positions ∧ run.fileRowOffset ≤ p ∧ p < run.fileRowOffset + run.numRows := by
  have hs' : (positions.dropWhile (· < run.fileRowOffset)).Pairwise (· < ·) :=
    hs.sublist (List.dropWhile_sublist _)
  unfold window
  rw [drop_lowerBound, take_lowerBound, mem_takeWhile_lt hs', mem_dropWhile_lt hs, and_assoc]

/-! ## The keep-mask -/

/-- `markDeleted` without its guard. -/
def clear (run : BatchRowRun) (state : List Bool × Bool) (pos : ℤ) : List Bool × Bool :=
  (state.1.set (run.batchRowOffset + (pos - run.fileRowOffset)).toNat false, true)

/-- `markRun` without the guard. -/
def clearRun (positionsFor : String → List ℤ) (state : List Bool × Bool) (run : BatchRowRun) :
    List Bool × Bool :=
  (window (positionsFor run.dataFilePath) run).foldl (clear run) state

/-- The bit of a row. -/
def keepBit (positionsFor : String → List ℤ) (r : SourceRow) : Bool :=
  decide (r.row ∉ positionsFor r.path)

theorem foldl_clear_getElem? (run : BatchRowRun) (ps : List ℤ) (state : List Bool × Bool) (i : ℕ) :
    (ps.foldl (clear run) state).1[i]? =
      if ∃ p ∈ ps, (run.batchRowOffset + (p - run.fileRowOffset)).toNat = i then
        state.1[i]?.map fun _ => false
      else state.1[i]? := by
  induction ps generalizing state with
  | nil => simp
  | cons p ps ih =>
    rw [List.foldl_cons, ih]
    simp only [clear, List.getElem?_set, List.exists_mem_cons_iff]
    by_cases hp : (run.batchRowOffset + (p - run.fileRowOffset)).toNat = i
    · rw [if_pos hp]
      simp only [hp, true_or, if_true]
      by_cases hi : i < state.1.length
      · rw [if_pos hi, List.getElem?_eq_getElem hi]
        split_ifs <;> rfl
      · rw [if_neg hi, List.getElem?_eq_none (by omega)]
        split_ifs <;> rfl
    · rw [if_neg hp]
      simp only [hp, false_or]

variable {positionsFor : String → List ℤ}

/-- Clearing the positions of one run writes its bits and nothing else. -/
theorem clearRun_eq (hs : Increasing positionsFor) {run : BatchRowRun} {before : List Bool}
    (after : List Bool) (any : Bool) (hoff : run.batchRowOffset = before.length)
    (hrows : 0 ≤ run.numRows) :
    (clearRun positionsFor (before ++ List.replicate run.numRows.toNat true ++ after, any) run).1 =
      before ++ run.rows.map (keepBit positionsFor) ++ after := by
  apply List.ext_getElem?
  intro i
  unfold clearRun
  rw [foldl_clear_getElem?]
  -- the row is before the run, in it, or after it
  rcases lt_or_ge i before.length with hi | hi
  · rw [if_neg]
    · rw [List.append_assoc, List.append_assoc, List.getElem?_append_left hi,
        List.getElem?_append_left hi]
    · rintro ⟨p, hp, h3⟩
      obtain ⟨-, h1, h2⟩ := (mem_window (hs _)).mp hp
      omega
  rcases lt_or_ge i (before.length + run.numRows.toNat) with hi' | hi'
  · have hmid : ∀ mid : List Bool, mid.length = run.numRows.toNat →
        (before ++ mid ++ after)[i]? = mid[i - before.length]? := by
      intro mid hmid
      rw [List.append_assoc, List.getElem?_append_right hi, List.getElem?_append_left (by omega)]
    rw [hmid _ (by simp), hmid _ (by simp [BatchRowRun.rows])]
    have hbit : (run.rows.map (keepBit positionsFor))[i - before.length]? = some (decide
        (run.fileRowOffset + ((i - before.length : ℕ) : ℤ) ∉ positionsFor run.dataFilePath)) := by
      rw [List.getElem?_map, BatchRowRun.rows, List.getElem?_map,
        List.getElem?_range (by omega)]
      rfl
    have hset : (List.replicate run.numRows.toNat true)[i - before.length]? = some true := by
      rw [List.getElem?_replicate, if_pos (by omega)]
    rw [hbit, hset]
    by_cases hdel : run.fileRowOffset + ((i - before.length : ℕ) : ℤ) ∈ positionsFor run.dataFilePath
    · rw [if_pos ⟨_, (mem_window (hs _)).mpr ⟨hdel, by omega, by omega⟩, by omega⟩]
      simp [hdel]
    · rw [if_neg]
      · simp [hdel]
      · rintro ⟨p, hp, h3⟩
        obtain ⟨hp, h1, h2⟩ := (mem_window (hs _)).mp hp
        obtain rfl : p = run.fileRowOffset + ((i - before.length : ℕ) : ℤ) := by omega
        exact hdel hp
  · rw [if_neg]
    · have hafter : ∀ mid : List Bool, mid.length = run.numRows.toNat →
          (before ++ mid ++ after)[i]? = after[i - (before.length + run.numRows.toNat)]? := by
        intro mid hmid
        rw [List.getElem?_append_right (by simp [hmid]; omega)]
        simp [hmid]
      rw [hafter _ (by simp), hafter _ (by simp [BatchRowRun.rows])]
    · rintro ⟨p, hp, h3⟩
      obtain ⟨-, h1, h2⟩ := (mem_window (hs _)).mp hp
      omega

variable {layout : List BatchRowRun}

/-- The runs of a layout write the bits of the whole batch. -/
theorem foldl_clearRun_eq (hs : Increasing positionsFor) (before : List Bool) (any : Bool)
    (h : Tiles before.length layout stop) :
    (layout.foldl (clearRun positionsFor)
      (before ++ List.replicate (stop - before.length).toNat true, any)).1 =
      before ++ (layout.flatMap BatchRowRun.rows).map (keepBit positionsFor) := by
  induction layout generalizing before any with
  | nil =>
    rw [Tiles] at h
    simp [← h]
  | cons run layout ih =>
    obtain ⟨hoff, hrows, -, -, hrest⟩ := h
    have hstop := hrest.length
    have hsplit : List.replicate (stop - before.length).toNat true =
        List.replicate run.numRows.toNat true ++
          List.replicate (stop - (before.length + run.numRows)).toNat true := by
      rw [List.replicate_append_replicate]
      congr 1
      omega
    have hlen : ((before ++ run.rows.map (keepBit positionsFor)).length : ℤ) =
        before.length + run.numRows := by
      simp only [List.length_append, List.length_map, BatchRowRun.rows, List.length_range]
      omega
    have hclear := clearRun_eq hs
      (List.replicate (stop - (before.length + run.numRows)).toNat true) any hoff hrows
    rw [List.foldl_cons, hsplit, ← List.append_assoc]
    rw [← hlen] at hrest hclear ⊢
    rw [show clearRun positionsFor _ run = (_, _) from Prod.ext hclear rfl, ih _ _ hrest]
    simp

/-- No run has a deleted position. -/
theorem foldl_clearRun_none (h : ∀ run ∈ layout, positionsFor run.dataFilePath = [])
    (state : List Bool × Bool) : layout.foldl (clearRun positionsFor) state = state := by
  induction layout with
  | nil => rfl
  | cons run layout ih =>
    simp only [List.mem_cons, forall_eq_or_imp] at h
    have hrun : clearRun positionsFor state run = state := by simp [clearRun, h.1, window]
    rw [List.foldl_cons, hrun]
    exact ih h.2

/-- The flag is set by the first cleared bit. -/
theorem foldl_clearRun_flag {keep : List Bool} {state : List Bool × Bool}
    (h0 : state.2 = false → state.1 = keep)
    (h : (layout.foldl (clearRun positionsFor) state).2 = false) :
    (layout.foldl (clearRun positionsFor) state).1 = keep := by
  have hclear : ∀ (run : BatchRowRun) (ps : List ℤ) (state : List Bool × Bool),
      (state.2 = false → state.1 = keep) → (ps.foldl (clear run) state).2 = false →
      (ps.foldl (clear run) state).1 = keep := by
    intro run ps
    induction ps with
    | nil => exact fun state h0 h => h0 h
    | cons p ps ih => exact fun state _ => ih (clear run state p) (by simp [clear])
  induction layout generalizing state with
  | nil => exact h0 h
  | cons run layout ih => exact ih (hclear run _ state h0) h

theorem checkLayout_eq
    (h : Tiles offset layout stop) : checkLayout stop offset layout = .ok () := by
  induction layout generalizing offset with
  | nil =>
    rw [Tiles] at h
    simp [checkLayout, h]
  | cons run layout ih =>
    obtain ⟨h1, h2, h3, h4, h5⟩ := h
    have hstop := h5.length
    rw [checkLayout, if_neg (by omega)]
    exact ih h5

/-- The guard of `markDeleted` never throws: a position inside a run is inside
    the batch. -/
theorem foldlM_markRun_eq (hs : Increasing positionsFor) (h0 : 0 ≤ offset)
    (h : Tiles offset layout stop) (state : List Bool × Bool) :
    layout.foldlM (markRun stop positionsFor) state =
      .ok (layout.foldl (clearRun positionsFor) state) := by
  induction layout generalizing offset state with
  | nil => rfl
  | cons run layout ih =>
    obtain ⟨h1, h2, h3, h4, h5⟩ := h
    have hstop := h5.length
    have hrun : markRun stop positionsFor state run = .ok (clearRun positionsFor state run) := by
      unfold markRun clearRun
      split_ifs with hempty
      · rw [List.isEmpty_iff.mp hempty]
        simp [window]
      · apply foldlM_eq_ok
        intro st p hp
        obtain ⟨-, hp1, hp2⟩ := (mem_window (hs _)).mp hp
        unfold markDeleted
        rw [if_neg (by omega)]
        rfl
    rw [List.foldlM_cons, hrun]
    exact ih (by omega) h5 _

theorem retained_eq (tbl : List α) (rows : List SourceRow) (positionsFor : String → List ℤ) :
    retained tbl (rows.map (keepBit positionsFor)) =
      undeleted tbl rows fun r => r.row ∈ positionsFor r.path := by
  unfold retained undeleted
  rw [List.zip_map_right, List.filter_map, List.map_map]
  congr 1

variable {applyRetentionMask : List α → List Bool → List α} {tbl : List α}

/-- On a layout that tiles the table, exactly the deleted rows are removed. -/
theorem applyPositionalVisibility_eq (hmask : IsRetentionMask applyRetentionMask)
    (hs : Increasing positionsFor) (h : Tiles 0 layout tbl.length) :
    applyPositionalVisibility applyRetentionMask tbl layout positionsFor = .ok
      (undeleted tbl (layout.flatMap BatchRowRun.rows) fun r => r.row ∈ positionsFor r.path) := by
  have hkeep := foldl_clearRun_eq hs [] false h
  simp only [List.length_nil, Nat.cast_zero, sub_zero, Int.toNat_natCast, List.nil_append] at hkeep
  unfold applyPositionalVisibility
  simp only [bind_eq_ok]
  refine ⟨(), checkLayout_eq h, ?_⟩
  rw [← retained_eq, ← hkeep]
  split_ifs with hskip
  · rcases hskip with hempty | hnone
    · rw [List.length_eq_zero_iff.mp hempty]
      rfl
    · rw [foldl_clearRun_none, retained_true]
      intro run hrun
      by_contra hne
      exact hnone (List.any_eq_true.mpr ⟨run, hrun, by simpa using hne⟩)
  · simp only [bind_eq_ok]
    refine ⟨_, foldlM_markRun_eq hs le_rfl h _, ?_⟩
    split_ifs with hflag
    · rw [foldl_clearRun_flag (fun _ => rfl) hflag, retained_true]
    · have hlen := h.length
      rw [hmask _ _ (by rw [hkeep, List.length_map]; omega)]

/-! ## Materialized batches -/

/-- `row_origin`; `file_rows` is an `int64_t`. -/
structure RowOrigin where
  identity : String
  fileRows : ℤ
  fits : fileRows ≤ int64Max
  deriving DecidableEq

/-- `row_domain`. A position is a `source_position`: the file and the row. -/
structure RowDomain where
  files : List RowOrigin := []
  runs : List BatchRowRun := []
  positions : Option (List (ℕ × ℤ)) := none
  deriving DecidableEq

/-- The part of `materialized_batch` that visibility reads and writes. -/
structure MaterializedBatch (α : Type) where
  table : List α
  rows : ℤ
  lineage : RowDomain
  visibilityComplete : Bool := false
  deriving DecidableEq

namespace RowDomain

def available (d : RowDomain) : Bool := d.positions.isSome || !d.runs.isEmpty

/-- `files[i].file_rows`. -/
def rowsOf (d : RowDomain) (i : ℕ) : ℤ := (d.files[i]?.map RowOrigin.fileRows).getD 0

/-- `files.at(i).identity`. -/
def identity (d : RowDomain) (i : ℕ) : String := (d.files[i]?.map RowOrigin.identity).getD ""

/-- The loop of `validate` over the runs (lines 27–35). -/
def validateRuns (d : RowDomain) (rows : ℤ) : ℤ → List BatchRowRun → Except Exn Unit
  | offset, [] =>
    if offset ≠ rows then .error (.invalidArgument "row runs do not cover batch") else .ok ()
  | offset, r :: runs =>
    if r.fileIndex ≥ d.files.length ∨ r.batchRowOffset ≠ offset ∨ r.numRows < 0 ∨
        r.fileRowOffset < 0 ∨ r.fileRowOffset > d.rowsOf r.fileIndex ∨
        r.numRows > d.rowsOf r.fileIndex - r.fileRowOffset ∨ r.numRows > rows - offset then
      .error (.invalidArgument "row run is outside its file or batch")
    else d.validateRuns rows (offset + r.numRows) runs

/-- `row_domain::validate(rows)` (lines 12–37). -/
def validate (d : RowDomain) (rows : ℤ) : Except Exn Unit :=
  if rows < 0 ∨ d.positions.isSome ∧ d.runs ≠ [] then
    .error (.invalidArgument "invalid materialization row domain")
  else if ∃ file ∈ d.files, file.identity = "" ∨ file.fileRows < 0 then
    .error (.invalidArgument "row domain has no source identity")
  else
    match d.positions with
    | some positions =>
      if (positions.length : ℤ) ≠ rows then
        .error (.invalidArgument "position count does not match materialized rows")
      else if ∃ p ∈ positions, p.1 ≥ d.files.length ∨ p.2 < 0 ∨ p.2 ≥ d.rowsOf p.1 then
        .error (.invalidArgument "position is outside its original file")
      else .ok ()
    | none => if d.runs ≠ [] then d.validateRuns rows 0 d.runs else .ok ()

/-- The runs that `apply_positional_visibility` uses (lines 113–122): one for each
    position, or the runs of the domain under the names of their files. -/
def visibilityRuns (d : RowDomain) : List BatchRowRun :=
  match d.positions with
  | some positions => d.runs ++ positions.zipIdx.map fun e => {
      dataFilePath := d.identity e.1.1
      fileRowOffset := e.1.2
      batchRowOffset := e.2
      numRows := 1
      fileIndex := e.1.1 }
  | none => d.runs.map fun run => { run with dataFilePath := d.identity run.fileIndex }

/-- The source rows of the batch. -/
def origins (d : RowDomain) : List SourceRow :=
  match d.positions with
  | some positions => positions.map fun p => { path := d.identity p.1, file := p.1, row := p.2 }
  | none => (d.runs.flatMap BatchRowRun.rows).map fun r => { r with path := d.identity r.file }

end RowDomain

/-- `apply_positional_visibility(batch, positions)` (lines 105–129). -/
def applyToBatch (applyRetentionMask : List α → List Bool → List α)
    (batch : MaterializedBatch α) (positionsFor : String → List ℤ) :
    Except Exn (MaterializedBatch α) := do
  batch.lineage.validate batch.rows
  if batch.rows ≠ 0 ∧ !batch.lineage.available then
    .error (.invalidArgument "visibility requires original positions")
  else do
    let table ← applyPositionalVisibility applyRetentionMask batch.table
      batch.lineage.visibilityRuns positionsFor
    return { table, rows := table.length, lineage := {}, visibilityComplete := true }

variable {d : RowDomain}

/-- A valid list of runs tiles the batch under any names. -/
theorem tiles_of_validateRuns {rows offset : ℤ} {runs : List BatchRowRun}
    (h : d.validateRuns rows offset runs = .ok ()) (name : BatchRowRun → String) :
    Tiles offset (runs.map fun run => { run with dataFilePath := name run }) rows := by
  induction runs generalizing offset with
  | nil =>
    rw [RowDomain.validateRuns, ite_error_eq_ok] at h
    exact not_not.mp h.1
  | cons r runs ih =>
    rw [RowDomain.validateRuns, ite_error_eq_ok] at h
    obtain ⟨hok, hrest⟩ := h
    push Not at hok
    obtain ⟨h1, h2, h3, h4, h5, h6, -⟩ := hok
    have hfits : d.rowsOf r.fileIndex ≤ int64Max := by
      rw [RowDomain.rowsOf, List.getElem?_eq_getElem h1]
      exact (d.files[r.fileIndex]).fits
    exact ⟨h2, h3, h4, by show r.fileRowOffset + r.numRows ≤ int64Max; omega, ih hrest⟩

/-- One run for each position. -/
theorem tiles_positions {positions : List (ℕ × ℤ)} (k : ℕ)
    (h : ∀ p ∈ positions, p.1 < d.files.length ∧ 0 ≤ p.2 ∧ p.2 < d.rowsOf p.1) :
    Tiles k ((positions.zipIdx k).map fun e => {
      dataFilePath := d.identity e.1.1
      fileRowOffset := e.1.2
      batchRowOffset := e.2
      numRows := 1
      fileIndex := e.1.1 }) (k + positions.length) := by
  induction positions generalizing k with
  | nil => simp [Tiles]
  | cons p positions ih =>
    simp only [List.mem_cons, forall_eq_or_imp] at h
    obtain ⟨⟨h1, h2, h3⟩, hrest⟩ := h
    have hfits : d.rowsOf p.1 ≤ int64Max := by
      rw [RowDomain.rowsOf, List.getElem?_eq_getElem h1]
      exact (d.files[p.1]).fits
    have hnext := ih (k + 1) hrest
    simp only [List.zipIdx_cons, List.map_cons, List.length_cons]
    have hlen : ((k + 1 : ℕ) : ℤ) + positions.length = k + ((positions.length + 1 : ℕ) : ℤ) := by
      push_cast
      ring
    rw [hlen] at hnext
    exact ⟨rfl, by simp, h2, by show p.2 + 1 ≤ int64Max; omega, hnext⟩

theorem rows_positions (d : RowDomain) (positions : List (ℕ × ℤ)) (k : ℕ) :
    ((positions.zipIdx k).map fun e => ({
      dataFilePath := d.identity e.1.1
      fileRowOffset := e.1.2
      batchRowOffset := e.2
      numRows := 1
      fileIndex := e.1.1 } : BatchRowRun)).flatMap BatchRowRun.rows =
      positions.map fun p => { path := d.identity p.1, file := p.1, row := p.2 } := by
  induction positions generalizing k with
  | nil => rfl
  | cons p positions ih =>
    have := ih (k + 1)
    simp only [List.zipIdx_cons, List.map_cons, List.flatMap_cons, this]
    simp [BatchRowRun.rows]

theorem rows_renamed (d : RowDomain) (runs : List BatchRowRun) :
    (runs.map fun run => { run with dataFilePath := d.identity run.fileIndex }).flatMap
      BatchRowRun.rows =
      (runs.flatMap BatchRowRun.rows).map fun r => { r with path := d.identity r.file } := by
  induction runs with
  | nil => rfl
  | cons run runs ih =>
    simp only [List.map_cons, List.flatMap_cons, List.map_append, ih]
    simp [BatchRowRun.rows]

theorem visibilityRuns_spec {n : ℕ} (h : d.validate n = .ok ())
    (havail : n = 0 ∨ d.available = true) :
    Tiles 0 d.visibilityRuns n ∧ d.visibilityRuns.flatMap BatchRowRun.rows = d.origins := by
  unfold RowDomain.validate at h
  simp only [ite_error_eq_ok] at h
  obtain ⟨hshape, -, h⟩ := h
  unfold RowDomain.visibilityRuns RowDomain.origins
  cases hpos : d.positions with
  | some positions =>
    rw [hpos] at h hshape
    simp only [ite_error_eq_ok, not_not] at h
    obtain ⟨hlen, hin, -⟩ := h
    have hruns : d.runs = [] := by
      by_contra hne
      exact hshape (Or.inr ⟨rfl, hne⟩)
    push Not at hin
    have hin' : ∀ p ∈ positions, p.1 < d.files.length ∧ 0 ≤ p.2 ∧ p.2 < d.rowsOf p.1 := hin
    have htiles := tiles_positions 0 hin'
    simp only [Nat.cast_zero, zero_add, hlen] at htiles
    simp only [hruns, List.nil_append]
    exact ⟨htiles, rows_positions d positions 0⟩
  | none =>
    rw [hpos] at h
    have hrows := rows_renamed d d.runs
    by_cases hruns : d.runs = []
    · -- without runs and positions the batch is empty
      have hzero : n = 0 := by simpa [RowDomain.available, hpos, hruns] using havail
      rw [hruns, hzero]
      exact ⟨rfl, rfl⟩
    · simp only [ne_eq, hruns, not_false_eq_true, if_true] at h
      exact ⟨tiles_of_validateRuns h _, hrows⟩

theorem undeleted_map (tbl : List α) (rows : List SourceRow) (f : SourceRow → SourceRow)
    (deleted : SourceRow → Prop) [DecidablePred deleted] :
    undeleted tbl (rows.map f) deleted = undeleted tbl rows fun r => deleted (f r) := by
  unfold undeleted
  rw [List.zip_map_right, List.filter_map, List.map_map]
  congr 1

/-- On a batch with a valid row domain. -/
theorem applyToBatch_eq (hmask : IsRetentionMask applyRetentionMask)
    (hs : Increasing positionsFor) (h : d.validate tbl.length = .ok ())
    (havail : tbl.length = 0 ∨ d.available = true) :
    applyToBatch applyRetentionMask { table := tbl, rows := tbl.length, lineage := d }
      positionsFor = .ok {
      table := undeleted tbl d.origins fun r => r.row ∈ positionsFor r.path
      rows := (undeleted tbl d.origins fun r => r.row ∈ positionsFor r.path).length
      lineage := {}
      visibilityComplete := true } := by
  obtain ⟨htiles, hrows⟩ := visibilityRuns_spec h havail
  have hguard : ¬((tbl.length : ℤ) ≠ 0 ∧ (!d.available) = true) := by
    rintro ⟨hne, hav⟩
    rcases havail with h0 | h0
    · omega
    · simp [h0] at hav
  unfold applyToBatch
  simp only [bind_eq_ok, ite_error_eq_ok, pure_eq_ok]
  refine ⟨(), h, hguard, _, applyPositionalVisibility_eq hmask hs htiles, ?_⟩
  rw [hrows]

/-- **Exactly the deleted rows are removed.** For every split and all strictly
    increasing deleted positions: `build_batch_layout` succeeds exactly on
    well-formed splits, and then its runs tile the batch without gap or overlap and
    list the decoded rows; on every table of these rows, with any
    `apply_retention_mask` that does what cuDF documents, `apply_positional_visibility`
    throws nothing (no position maps outside the batch) and keeps, in order,
    exactly the rows that are not deleted in their file; and so it does on every
    batch whose row domain holds these runs or single positions, where the files
    are those of the domain. -/
theorem undeleted_rows_kept (slices : List RowGroupSlice) (positionsFor : String → List ℤ)
    (hs : Increasing positionsFor) :
    ((∃ layout, buildBatchLayout slices = .ok layout) ↔ WellFormed slices) ∧
      (∀ layout, buildBatchLayout slices = .ok layout →
        Tiles 0 layout (decodedRows slices).length ∧
        layout.flatMap BatchRowRun.rows = decodedRows slices ∧
        ∀ (α : Type) (applyRetentionMask : List α → List Bool → List α),
          IsRetentionMask applyRetentionMask →
          ∀ tbl : List α, tbl.length = (decodedRows slices).length →
          applyPositionalVisibility applyRetentionMask tbl layout positionsFor =
              .ok (undeleted tbl (decodedRows slices) fun r => r.row ∈ positionsFor r.path) ∧
          ∀ files : List RowOrigin,
            RowDomain.validate { files, runs := layout } tbl.length = .ok () →
            applyToBatch applyRetentionMask
              { table := tbl, rows := tbl.length, lineage := { files, runs := layout } }
              positionsFor = .ok {
                table := undeleted tbl (decodedRows slices) fun r =>
                  r.row ∈ positionsFor (RowDomain.identity { files } r.file)
                rows := (undeleted tbl (decodedRows slices) fun r =>
                  r.row ∈ positionsFor (RowDomain.identity { files } r.file)).length
                lineage := {}
                visibilityComplete := true }) ∧
      ∀ (α : Type) (applyRetentionMask : List α → List Bool → List α),
        IsRetentionMask applyRetentionMask →
        ∀ (tbl : List α) (d : RowDomain), d.validate tbl.length = .ok () →
        (tbl.length = 0 ∨ d.available = true) →
        applyToBatch applyRetentionMask { table := tbl, rows := tbl.length, lineage := d }
          positionsFor = .ok {
          table := undeleted tbl d.origins fun r => r.row ∈ positionsFor r.path
          rows := (undeleted tbl d.origins fun r => r.row ∈ positionsFor r.path).length
          lineage := {}
          visibilityComplete := true } := by
  refine ⟨buildBatchLayout_ok_iff, fun layout hlayout => ?_, fun α _ hmask tbl d hd havail =>
    applyToBatch_eq hmask hs hd havail⟩
  obtain ⟨-, htiles, hrows⟩ := buildBatchLayout_spec hlayout
  refine ⟨htiles, hrows, fun α _ hmask tbl hlen => ?_⟩
  rw [← hlen] at htiles
  refine ⟨?_, fun files hd => ?_⟩
  · rw [applyPositionalVisibility_eq hmask hs htiles, hrows]
  · have havail : tbl.length = 0 ∨ RowDomain.available { files, runs := layout } = true := by
      by_cases hempty : layout = []
      · rw [hempty] at htiles
        rw [Tiles] at htiles
        left
        omega
      · right
        simp [RowDomain.available, hempty]
    rw [applyToBatch_eq hmask hs hd havail]
    simp only [RowDomain.origins, hrows, undeleted_map]
    rfl

/-- Two files, where the second row group of the first one is not selected: its
    row 4 is deleted and does not count. -/
theorem undeleted_rows_kept_pruned :
    ∃ layout, buildBatchLayout
        [{ filePath := "a", fileMetadata := some [3, 2, 4], rowGroupIndices := [0, 2],
            fileIndex := 0 },
          { filePath := "b", fileMetadata := some [2], rowGroupIndices := [0], fileIndex := 1 }] =
        .ok layout ∧
      applyPositionalVisibility retained [0, 1, 2, 3, 4, 5, 6, 7, 8] layout
        (fun path => if path = "a" then [1, 4, 6] else [0]) = .ok [0, 2, 3, 5, 6, 8] := by
  have hs : Increasing fun path => if path = "a" then [1, 4, 6] else [0] := by
    intro path
    dsimp only
    split_ifs <;> decide
  obtain ⟨layout, hl⟩ : ∃ layout, buildBatchLayout
      [{ filePath := "a", fileMetadata := some [3, 2, 4], rowGroupIndices := [0, 2],
          fileIndex := 0 },
        { filePath := "b", fileMetadata := some [2], rowGroupIndices := [0], fileIndex := 1 }] =
      .ok layout := ⟨_, rfl⟩
  refine ⟨layout, hl, ?_⟩
  rw [(((undeleted_rows_kept _ _ hs).2.1 layout hl).2.2 ℕ retained (fun _ _ _ => rfl)
    [0, 1, 2, 3, 4, 5, 6, 7, 8] rfl).1]
  decide

end Sirius.Scan
