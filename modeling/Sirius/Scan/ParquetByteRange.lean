import Sirius.Planner.SubstraitScanRanges

/-!
# Row groups of a byte range

Model of `row_group_start_offset` and `row_groups_in_byte_range`
(src/op/scan/parquet_byte_range.cpp:26-66): a reader owns the row groups that start in its byte
range. What the ranges are, the plan says (`Sirius.Planner.SubstraitScanRanges`).

* `rowGroupsInByteRange_eq`: the row groups of a range, in row-group order.
* `owned_once`: ranges that partition the file own every row group once.
* `byte_ranges_read_once`: the ranges of a plan and the row groups of a file.
-/

namespace Sirius.Scan.ParquetByteRange

open Sirius.Common
open Sirius.Planner.SubstraitScanRanges

/-! ## The functions -/

/-- The page offsets of a column chunk. -/
structure ColumnMetaData where
  dataPageOffset : ℤ
  indexPageOffset : ℤ
  dictionaryPageOffset : ℤ
  deriving DecidableEq, Repr

structure RowGroup where
  fileOffset : Option ℤ
  columns : List ColumnMetaData
  deriving DecidableEq, Repr

/-- The footer of a file. The length of a Thrift list is an `i32`. -/
structure FileMetaData where
  rowGroups : List RowGroup
  count : rowGroups.length < 2 ^ 31

def int64Max : ℤ := 2 ^ 63 - 1

/-- A candidate for the start, which counts when it is present. -/
def candidate (start offset : ℤ) : ℤ := if offset > 0 then min start offset else start

/-- `row_group_start_offset` (lines 26-48). -/
def rowGroupStartOffset (metadata : FileMetaData) (index : ℕ) : Except Error ℤ :=
  match metadata.rowGroups[index]? with
  | none => .error "out_of_range".toList
  | some rowGroup =>
    let start := match rowGroup.fileOffset with
      | some offset => candidate int64Max offset
      | none => int64Max
    let start := match rowGroup.columns.head? with
      | some first => [first.dataPageOffset, first.indexPageOffset,
          first.dictionaryPageOffset].foldl candidate start
      | none => start
    if start = int64Max then
      .error ("parquet row group ".toList ++ number index ++ (" has no page or file offset; "
        ++ "byte-range ownership would be undefined").toList)
    else pure start

/-- `static_cast<cudf::size_type>`. -/
def sizeType (i : ℕ) : ℤ := (i : ℤ).bmod (2 ^ 32)

/-- `row_groups_in_byte_range` (lines 50-66). -/
def rowGroupsInByteRange (metadata : FileMetaData) (start length : ℕ) : Except Error (List ℤ) :=
  if length = 0 then pure []
  else if length > 2 ^ 64 - 1 - start then
    .error ("byte range (".toList ++ number start ++ ", ".toList ++ number length
      ++ ") overflows a 64-bit offset".toList)
  else
    let last := start + length
    (List.range metadata.rowGroups.length).foldlM (fun owned i => do
      let rgStart ← rowGroupStartOffset metadata i
      pure (if start ≤ rgStart.toNat ∧ rgStart.toNat < last then owned ++ [sizeType i] else owned)) []

/-! ## The row groups of a range -/

variable {metadata : FileMetaData}

theorem candidate_pos {start offset : ℤ} (h : 0 < start) : 0 < candidate start offset := by
  unfold candidate
  split_ifs with hpos
  · exact lt_min h hpos
  · exact h

/-- A start is positive: what is absent does not count. -/
theorem rowGroupStartOffset_pos {i : ℕ} {offset : ℤ}
    (h : rowGroupStartOffset metadata i = .ok offset) : 0 < offset := by
  unfold rowGroupStartOffset at h
  cases hget : metadata.rowGroups[i]? with
  | none => simp [hget] at h
  | some rowGroup =>
    rw [hget] at h
    obtain ⟨-, h⟩ := ite_error_eq_ok.mp h
    rw [← pure_eq_ok.mp h]
    have hfile : 0 < (match rowGroup.fileOffset with
        | some offset => candidate int64Max offset
        | none => int64Max) := by
      cases rowGroup.fileOffset with
      | none => norm_num [int64Max]
      | some offset => exact candidate_pos (by norm_num [int64Max])
    cases rowGroup.columns.head? with
    | none => exact hfile
    | some first => exact candidate_pos (candidate_pos (candidate_pos hfile))

theorem sizeType_of_lt {i : ℕ} (h : i < metadata.rowGroups.length) : sizeType i = i := by
  have hcount := metadata.count
  unfold sizeType
  rw [Int.bmod_eq_of_le] <;> omega

/-- A range takes the row groups that start in it, in row-group order. -/
theorem rowGroupsInByteRange_eq {starts : ℕ → ℤ} {start length : ℕ}
    (hstarts : ∀ i < metadata.rowGroups.length, rowGroupStartOffset metadata i = .ok (starts i))
    (hfits : length ≠ 0 → start + length < 2 ^ 64) :
    rowGroupsInByteRange metadata start length = .ok (((List.range metadata.rowGroups.length).filter
      fun i => start ≤ (starts i).toNat ∧ (starts i).toNat < start + length).map Nat.cast) := by
  unfold rowGroupsInByteRange
  by_cases hzero : length = 0
  · have hnone : ((List.range metadata.rowGroups.length).filter
        fun i => start ≤ (starts i).toNat ∧ (starts i).toNat < start + length) = [] := by
      rw [List.filter_eq_nil_iff]
      intro i _
      simp only [decide_eq_true_eq]
      omega
    rw [if_pos hzero, hnone]
    rfl
  · have hlt := hfits hzero
    rw [if_neg hzero, if_neg (by omega)]
    have hloop : ∀ (is : List ℕ) (owned : List ℤ), (∀ i ∈ is, i < metadata.rowGroups.length) →
        is.foldlM (fun owned i => do
          let rgStart ← rowGroupStartOffset metadata i
          pure (if start ≤ rgStart.toNat ∧ rgStart.toNat < start + length then owned ++ [sizeType i]
            else owned)) owned
        = .ok (owned ++ (is.filter fun i =>
            start ≤ (starts i).toNat ∧ (starts i).toNat < start + length).map Nat.cast) := by
      intro is
      induction is with
      | nil =>
        intro owned _
        rw [List.filter_nil, List.map_nil, List.append_nil]
        rfl
      | cons i is ih =>
        intro owned hmem
        have hi := hmem i List.mem_cons_self
        have hrest : ∀ j ∈ is, j < metadata.rowGroups.length :=
          fun j hj => hmem j (List.mem_cons_of_mem i hj)
        rw [List.foldlM_cons, hstarts i hi, ok_bind, List.filter_cons]
        show is.foldlM _ _ = _
        rw [ih _ hrest, sizeType_of_lt hi]
        by_cases howns : start ≤ (starts i).toNat ∧ (starts i).toNat < start + length
        · simp [howns]
        · rw [if_neg howns, if_neg (by simpa using howns)]
    exact (hloop _ [] fun i hi => List.mem_range.mp hi).trans (by rw [List.nil_append])

/-- Ranges that partition `[0, size)`; an empty range may stand anywhere. -/
structure Partitions (ranges : List ByteRange) (size : ℕ) : Prop where
  inside : ∀ range ∈ ranges, range.2 ≠ 0 → range.1 + range.2 ≤ size
  once : ∀ x < size, ∃! k : ℕ, ∃ range, ranges[k]? = some range ∧ range.1 ≤ x ∧
    x < range.1 + range.2

/-- The row groups of each reader, and what they are together: every row group has one owner, and
    each owner has its row groups in order. -/
structure OwnedOnce (metadata : FileMetaData) (owned : List (List ℤ)) : Prop where
  ascending : ∀ rowGroups ∈ owned, rowGroups.Pairwise (· < ·)
  valid : ∀ rowGroups ∈ owned, ∀ x ∈ rowGroups, ∃ i < metadata.rowGroups.length, x = i
  once : ∀ i < metadata.rowGroups.length, ∃! k : ℕ, ∃ rowGroups, owned[k]? = some rowGroups ∧
    (i : ℤ) ∈ rowGroups

/-- The row groups of a reader. -/
def readerRowGroups (metadata : FileMetaData) (range : ByteRange) : Except Error (List ℤ) :=
  rowGroupsInByteRange metadata range.1 range.2

/-- **Ranges that partition the file own every row group once.** -/
theorem owned_once {size : ℕ} (hsize : size < 2 ^ 64)
    (hstarts : ∀ i < metadata.rowGroups.length,
      ∃ offset, rowGroupStartOffset metadata i = .ok offset ∧ offset < size)
    {ranges : List ByteRange} (hparts : Partitions ranges size) :
    ∃ owned, ranges.mapM (readerRowGroups metadata) = .ok owned ∧ OwnedOnce metadata owned := by
  choose! starts hok hlt using hstarts
  let ownedBy (range : ByteRange) : List ℤ := ((List.range metadata.rowGroups.length).filter
    fun i => range.1 ≤ (starts i).toNat ∧ (starts i).toNat < range.1 + range.2).map Nat.cast
  have hreader : ∀ range ∈ ranges, readerRowGroups metadata range = .ok (ownedBy range) := by
    intro range hrange
    refine rowGroupsInByteRange_eq hok fun hne => ?_
    have hinside := hparts.inside range hrange hne
    omega
  have hmem : ∀ (range : ByteRange) {i : ℕ}, i < metadata.rowGroups.length →
      ((i : ℤ) ∈ ownedBy range ↔
        range.1 ≤ (starts i).toNat ∧ (starts i).toNat < range.1 + range.2) := by
    intro range i hi
    simp [ownedBy, hi]
  refine ⟨ranges.map ownedBy, ?_, ?_, ?_, ?_⟩
  · apply mapM_eq_ok_of_forall₂
    rw [List.forall₂_map_right_iff, List.forall₂_same]
    exact hreader
  · intro rowGroups hmem'
    obtain ⟨range, -, rfl⟩ := List.mem_map.mp hmem'
    refine List.Pairwise.map _ (fun a b hab => Int.ofNat_lt.mpr hab) ?_
    exact (List.pairwise_lt_range).filter _
  · intro rowGroups hmem' x hx
    obtain ⟨range, -, rfl⟩ := List.mem_map.mp hmem'
    obtain ⟨i, hi, rfl⟩ := List.mem_map.mp hx
    exact ⟨i, List.mem_range.mp (List.mem_filter.mp hi).1, rfl⟩
  · intro i hi
    have hinside := hlt i hi
    have hpos := rowGroupStartOffset_pos (hok i hi)
    have hstart : (starts i).toNat < size := by omega
    obtain ⟨k, ⟨range, hk, howns⟩, hunique⟩ := hparts.once _ hstart
    refine ⟨k, ⟨ownedBy range, by simp [hk], (hmem range hi).mpr howns⟩, ?_⟩
    rintro k' ⟨rowGroups, hk', hi'⟩
    rw [List.getElem?_map, Option.map_eq_some_iff] at hk'
    obtain ⟨range', hrange', rfl⟩ := hk'
    exact hunique k' ⟨range', hrange', (hmem range' hi).mp hi'⟩

/-! ## A plan and a file -/

/-- **Byte ranges are read once.** Every ranged item of a plan stands, in order, in the list of its
    path, which one read names and nobody reads whole; and when the ranges of a file partition it,
    every row group has one reader. -/
theorem byte_ranges_read_once {β : Type} {parseFromString : β → Option Message} {planBytes : β}
    {out : List (Planner.SubstraitScanRanges.Path × List ByteRange)}
    (hout : extractScanByteRanges parseFromString planBytes = .ok out)
    {metadata : FileMetaData} {size : ℕ} (hsize : size < 2 ^ 64)
    (hstarts : ∀ i < metadata.rowGroups.length,
      ∃ offset, rowGroupStartOffset metadata i = .ok offset ∧ offset < size)
    {ranges : List ByteRange} (hparts : Partitions ranges size) :
    (∃ plan, parseFromString planBytes = some plan ∧ Extracted plan out) ∧
      ∃ owned, ranges.mapM (readerRowGroups metadata) = .ok owned ∧ OwnedOnce metadata owned :=
  ⟨extractScanByteRanges_ok parseFromString hout, owned_once hsize hstarts hparts⟩

/-- A join of two reads: two ranges of one file, spelled in two ways, and a whole file. -/
def shownPlan : Message :=
  .node none
    [.node (some ⟨some [⟨.uriFile "file:///d/t".toList, 0, 100⟩,
        ⟨.uriFile "/d/t".toList, 100, 60⟩], none⟩) [],
      .node none [.node (some ⟨some [⟨.uriFile "/d/u".toList, 0, 0⟩], none⟩) []]]

/-- A file of 160 bytes with two row groups. -/
def shownFile : FileMetaData where
  rowGroups := [⟨some 4, [⟨30, 0, 4⟩]⟩, ⟨none, [⟨100, 0, 0⟩]⟩]
  count := by decide

theorem byte_ranges_read_once_shownPlan :
    extractScanByteRanges some shownPlan = .ok [("/d/t".toList, [(0, 100), (100, 60)])] ∧
    Partitions [(0, 100), (100, 60)] 160 ∧
    Extracted shownPlan [("/d/t".toList, [(0, 100), (100, 60)])] ∧
      [(0, 100), (100, 60)].mapM (readerRowGroups shownFile) = .ok [[0], [1]] := by
  have hout : extractScanByteRanges some shownPlan
      = .ok [("/d/t".toList, [(0, 100), (100, 60)])] := by decide
  have hstarts : ∀ i < shownFile.rowGroups.length,
      ∃ offset, rowGroupStartOffset shownFile i = .ok offset ∧ offset < (160 : ℕ) := by
    intro i hi
    have hi' : i < 2 := hi
    interval_cases i
    · exact ⟨4, by decide, by decide⟩
    · exact ⟨100, by decide, by decide⟩
  have hparts : Partitions [(0, 100), (100, 60)] 160 := by
    refine ⟨by decide, fun x hx => ?_⟩
    by_cases hlt : x < 100
    · refine ⟨0, ⟨(0, 100), rfl, by simp [hlt]⟩, ?_⟩
      rintro k ⟨range, hk, howns⟩
      match k with
      | 0 => rfl
      | 1 =>
        obtain rfl := Option.some.inj hk
        simp at howns
        omega
      | k + 2 => simp at hk
    · refine ⟨1, ⟨(100, 60), rfl, by simp; omega⟩, ?_⟩
      rintro k ⟨range, hk, howns⟩
      match k with
      | 0 =>
        obtain rfl := Option.some.inj hk
        simp at howns
        omega
      | 1 => rfl
      | k + 2 => simp at hk
  obtain ⟨⟨plan, hplan, hextracted⟩, -⟩ :=
    byte_ranges_read_once hout (by norm_num) hstarts hparts
  obtain rfl := Option.some.inj hplan
  exact ⟨hout, hparts, hextracted, by decide⟩

end Sirius.Scan.ParquetByteRange
