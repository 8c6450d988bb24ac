import Sirius.Common.BitWords
import Sirius.Common.Checked

/-!
# Keep-masks of pinned chunks

Model of `src/op/scan/duckdb_mvcc_visibility.cpp`: `write_bit_range` (lines
55–81), `capture_mvcc_visibility_plan` (103–184) and
`fill_keep_mask_for_row_groups` (186–225). The row groups are DuckDB's: what
`GetPartitionStats` and `GetSelVector` return is a parameter, and `RowGroup.Reports`
says what it means.

* `bitAt_writeBitRange`: a range write sets the bits of its range and no other.
* `bitAt_fillSlice`: filling a slice leaves the visibility of its rows there.
* `capture_tiles`: the slices of a chunk tile its rows, in the order of the table.
-/

namespace Sirius.Scan

open Sirius.Common

/-! ## `write_bit_range` -/

/-- `tail_mask`: the bits below the end, or the whole word when the end is aligned. -/
def tailMask (stop : ℕ) : Word :=
  if stop % 32 ≠ 0 then ~~~(BitVec.allOnes 32 <<< (stop % 32)) else BitVec.allOnes 32

/-- The write to an edge word. -/
def edgeWrite (value : Bool) (word : ℕ) (mask : Word) : WordWrite :=
  ⟨word, if value then .set mask else .clear mask⟩

/-- `write_bit_range(words, begin, count, value)`: its writes, in order. -/
def writeBitRange (start count : ℕ) (value : Bool) : List WordWrite :=
  if count = 0 then []
  else
    let stop := start + count
    let first := start / 32
    let last := (stop - 1) / 32
    let headMask : Word := BitVec.allOnes 32 <<< (start % 32)
    if first = last then [edgeWrite value first (headMask &&& tailMask stop)]
    else
      [edgeWrite value first headMask] ++
        ((List.range' (first + 1) (last - (first + 1))).map fun word =>
          ⟨word, .store (if value then BitVec.allOnes 32 else 0)⟩) ++
        [edgeWrite value last (tailMask stop)]

/-- An edge word: the bits of the mask take the value. -/
theorem bitAt_edgeWrite (word : ℕ) (mask : Word) (value : Bool) (m : ℕ → Word) (k : ℕ) :
    bitAt (execWords [edgeWrite value word mask] m) k =
      if word = k / 32 ∧ mask.getLsbD (k % 32) = true then value else bitAt m k := by
  have hk : k % 32 < 32 := Nat.mod_lt _ (by decide)
  have hsame : (edgeWrite value word mask).word = word := rfl
  rw [bitAt_exec_single, hsame]
  by_cases hword : word = k / 32
  · rw [if_pos hword, bitAt]
    cases value <;>
      simp only [edgeWrite, WordWrite.act, if_true, Bool.false_eq_true, if_false,
        BitVec.getLsbD_or, BitVec.getLsbD_and, BitVec.getLsbD_not, hword, true_and, hk,
        decide_true, Bool.true_and] <;>
      cases mask.getLsbD (k % 32) <;> simp
  · rw [if_neg hword, if_neg fun h => hword h.1]

theorem getLsbD_tailMask_stop (stop : ℕ) {i : ℕ} (hi : i < 32) :
    (tailMask stop).getLsbD i = decide (stop % 32 = 0 ∨ i < stop % 32) := by
  unfold tailMask
  by_cases h : stop % 32 = 0
  · rw [if_neg (not_not.mpr h), BitVec.getLsbD_allOnes]
    simp [h, hi]
  · rw [if_pos h, getLsbD_tailMask _ hi]
    simp [h]

/-- **A range write** sets the bits of its range, and leaves the others. -/
theorem bitAt_writeBitRange (start count : ℕ) (value : Bool) (m : ℕ → Word) (k : ℕ) :
    bitAt (execWords (writeBitRange start count value) m) k =
      if start ≤ k ∧ k < start + count then value else bitAt m k := by
  have hk : k % 32 < 32 := Nat.mod_lt _ (by decide)
  unfold writeBitRange
  by_cases hcount : count = 0
  · rw [if_pos hcount, if_neg (by omega), execWords_nil]
  rw [if_neg hcount]
  dsimp only
  by_cases hword : start / 32 = (start + count - 1) / 32
  · rw [if_pos hword, bitAt_edgeWrite, BitVec.getLsbD_and, getLsbD_headMask _ hk,
      getLsbD_tailMask_stop _ hk]
    refine if_congr ?_ rfl rfl
    rw [Bool.and_eq_true, decide_eq_true_iff, decide_eq_true_iff]
    omega
  · have hones : ∀ b : Bool, (if b = true then BitVec.allOnes 32 else 0).getLsbD (k % 32) = b := by
      intro b
      cases b with
      | false => simp
      | true => rw [if_pos rfl, BitVec.getLsbD_allOnes, decide_eq_true hk]
    rw [if_neg hword, execWords_append, execWords_append, bitAt_edgeWrite, bitAt_exec_fill,
      bitAt_edgeWrite, getLsbD_headMask _ hk, getLsbD_tailMask_stop _ hk, hones]
    simp only [decide_eq_true_eq]
    split_ifs <;> first | rfl | omega

/-- The words of a range. -/
theorem word_of_mem_writeBitRange {start count : ℕ} {value : Bool} {w : WordWrite}
    (h : w ∈ writeBitRange start count value) :
    0 < count ∧ start / 32 ≤ w.word ∧ w.word ≤ (start + count - 1) / 32 := by
  unfold writeBitRange at h
  by_cases hcount : count = 0
  · rw [if_pos hcount] at h
    cases h
  have hle : start / 32 ≤ (start + count - 1) / 32 := Nat.div_le_div_right (by omega)
  refine ⟨Nat.pos_of_ne_zero hcount, ?_⟩
  rw [if_neg hcount] at h
  dsimp only at h
  by_cases hword : start / 32 = (start + count - 1) / 32
  · rw [if_pos hword, List.mem_singleton] at h
    subst h
    exact ⟨le_rfl, hle⟩
  · rw [if_neg hword] at h
    simp only [List.mem_append, List.mem_singleton, List.mem_map, List.mem_range'_1] at h
    rcases h with (rfl | ⟨word, hmem, rfl⟩) | rfl
    · exact ⟨le_rfl, hle⟩
    · dsimp only
      omega
    · exact ⟨hle, le_rfl⟩

/-- What cuDF documents of `cudf::set_bit_unsafe(words, bit_index)`, whose write is
    `setBit bit_index`: bit `bit_index % 32` of word `bit_index / 32` is set. Nothing is
    said of a negative index. -/
structure SetsBit (setBit : ℤ → WordWrite) : Prop where
  word : ∀ bit : ℕ, (setBit bit).word = bit / 32
  act : ∀ (bit : ℕ) (old : Word) (i : ℕ),
    ((setBit bit).act old).getLsbD i = (decide (i = bit % 32) || old.getLsbD i)

/-- `static_cast<cudf::size_type>`. -/
def sizeType (n : ℕ) : ℤ := Int.bmod n (2 ^ 32)

/-- No chunk reaches an index that the cast changes. -/
theorem sizeType_eq {n : ℕ} (h : n < 2 ^ 31) : sizeType n = n := by
  apply Int.bmod_eq_of_le <;> omega

variable {setBit : ℤ → WordWrite}

theorem bitAt_setBit (hset : SetsBit setBit) (bit : ℕ) (m : ℕ → Word) (k : ℕ) :
    bitAt (execWords [setBit bit] m) k = (decide (bit = k) || bitAt m k) := by
  rw [bitAt_exec_single, hset.word]
  by_cases hword : bit / 32 = k / 32
  · have hsame : k % 32 = bit % 32 ↔ bit = k := by omega
    rw [if_pos hword, hset.act, bitAt]
    simp only [hsame]
  · have hne : bit ≠ k := fun heq => hword (heq ▸ rfl)
    rw [if_neg hword]
    simp [hne]

/-- Bits set one by one. -/
theorem bitAt_setBits (hset : SetsBit setBit) (f : ℕ → ℕ) (n : ℕ) (hf : ∀ i < n, f i < 2 ^ 31)
    (m : ℕ → Word) (k : ℕ) :
    bitAt (execWords ((List.range n).map fun i => setBit (sizeType (f i))) m) k =
      (decide (∃ i < n, f i = k) || bitAt m k) := by
  induction n with
  | zero => simp
  | succ n ih =>
    rw [List.range_succ, List.map_append, execWords_append, List.map_singleton,
      sizeType_eq (hf n (by omega)), bitAt_setBit hset, ih fun i hi => hf i (by omega),
      ← Bool.or_assoc]
    congr 1
    rw [Bool.eq_iff_iff, Bool.or_eq_true, decide_eq_true_iff, decide_eq_true_iff,
      decide_eq_true_iff]
    constructor
    · rintro (h | ⟨i, hi, h⟩)
      · exact ⟨n, by omega, h⟩
      · exact ⟨i, by omega, h⟩
    · rintro ⟨i, hi, h⟩
      rcases Nat.lt_succ_iff_lt_or_eq.mp hi with hi | rfl
      · exact .inr ⟨i, hi, h⟩
      · exact .inl h

/-! ## Row groups -/

/-- `STANDARD_VECTOR_SIZE`. -/
def standardVectorSize : ℕ := 2048

/-- A row group, as the query's transaction sees it. `exactCount` is the count of
    `GetPartitionStats` if its type is `COUNT_EXACT`. `selVector v n` is what
    `GetSelVector` returns for the first `n` rows of vector `v`, and the selection
    vector that it leaves. `visible` is the visibility of the rows. -/
structure RowGroup where
  rowStart : ℕ
  count : ℕ
  exactCount : Option ℕ
  selVector : ℕ → ℕ → ℕ × (ℕ → ℕ)
  visible : ℕ → Bool

/-- What DuckDB reports about a row group. `GetSelVector` returns `n` exactly if all
    `n` rows are visible, and the selection vector may be unfilled then; otherwise it
    lists the visible ones. An exact count that equals the physical one means that
    every row is visible. -/
structure RowGroup.Reports (rg : RowGroup) : Prop where
  all_visible : ∀ v n, n ≤ standardVectorSize → v * standardVectorSize + n ≤ rg.count →
    ((rg.selVector v n).1 = n ↔ ∀ i < n, rg.visible (v * standardVectorSize + i) = true)
  selected : ∀ v n, n ≤ standardVectorSize → v * standardVectorSize + n ≤ rg.count →
    (rg.selVector v n).1 ≠ n → ∀ i, (∃ j < (rg.selVector v n).1, (rg.selVector v n).2 j = i) ↔
      i < n ∧ rg.visible (v * standardVectorSize + i) = true
  exact_visible : rg.exactCount = some rg.count → ∀ r < rg.count, rg.visible r = true

/-- `row_group_has_version_state`. -/
def RowGroup.hasVersionState (rg : RowGroup) : Bool := rg.exactCount != some rg.count

/-- `mvcc_row_group_slice`. -/
structure MvccRowGroupSlice where
  rowGroup : RowGroup
  rowGroupStart : ℕ
  chunkOffset : ℕ
  rowCount : ℕ
  hasVersionState : Bool

namespace MvccRowGroupSlice

/-- The rows of a slice are rows of its row group, and bits of a mask. -/
structure Ok (s : MvccRowGroupSlice) : Prop where
  reports : s.rowGroup.Reports
  rows : s.rowCount ≤ s.rowGroup.count
  bits : s.chunkOffset + s.rowCount < 2 ^ 31
  version : s.hasVersionState = s.rowGroup.hasVersionState

/-! ## `fill_keep_mask_for_row_groups` -/

/-- One vector of a slice (lines 205–221): the writes, and whether a row is
    dropped. -/
def fillVector (setBit : ℤ → WordWrite) (s : MvccRowGroupSlice) (v : ℕ) : List WordWrite × Bool :=
  let off := s.chunkOffset + v * standardVectorSize
  let maxCount := min standardVectorSize (s.rowCount - v * standardVectorSize)
  let count := (s.rowGroup.selVector v maxCount).1
  let sel := (s.rowGroup.selVector v maxCount).2
  if count = maxCount then (writeBitRange off maxCount true, false)
  else
    (writeBitRange off maxCount false ++
      (List.range count).map fun i => setBit (sizeType (off + sel i)), true)

def vectors (s : MvccRowGroupSlice) : ℕ :=
  (s.rowCount + standardVectorSize - 1) / standardVectorSize

/-- One slice. -/
def fill (setBit : ℤ → WordWrite) (s : MvccRowGroupSlice) : List WordWrite × Bool :=
  if s.hasVersionState = false then (writeBitRange s.chunkOffset s.rowCount true, false)
  else
    ((List.range s.vectors).flatMap fun v => (s.fillVector setBit v).1,
      (List.range s.vectors).any fun v => (s.fillVector setBit v).2)

variable {s : MvccRowGroupSlice}

/-- The rows of a vector: those of the slice that it covers. -/
theorem vector_rows (s : MvccRowGroupSlice) (v : ℕ) (hv : v * standardVectorSize < s.rowCount) :
    v * standardVectorSize + min standardVectorSize (s.rowCount - v * standardVectorSize) =
      min ((v + 1) * standardVectorSize) s.rowCount := by
  unfold standardVectorSize at hv ⊢
  omega

/-- A vector leaves the visibility of its rows. -/
theorem bitAt_fillVector (hset : SetsBit setBit) (h : s.Ok) {v : ℕ} (hv : v * standardVectorSize < s.rowCount)
    (m : ℕ → Word) (k : ℕ) :
    bitAt (execWords (s.fillVector setBit v).1 m) k =
      if s.chunkOffset + v * standardVectorSize ≤ k ∧
          k < s.chunkOffset + min ((v + 1) * standardVectorSize) s.rowCount then
        s.rowGroup.visible (k - s.chunkOffset)
      else bitAt m k := by
  have hrows := s.vector_rows v hv
  have hbits := h.bits
  have hcount := h.rows
  set n := min standardVectorSize (s.rowCount - v * standardVectorSize) with hn
  set base := v * standardVectorSize with hbase
  have hsize : n ≤ standardVectorSize := Nat.min_le_left _ _
  have hin : base + n ≤ s.rowGroup.count := by omega
  have hrange : ∀ x : ℕ, (s.chunkOffset + base ≤ x ∧ x < s.chunkOffset + base + n) ↔
      s.chunkOffset + base ≤ x ∧ x < s.chunkOffset + min ((v + 1) * standardVectorSize) s.rowCount := by
    intro x
    omega
  have hrow : ∀ x, s.chunkOffset + base ≤ x → x - s.chunkOffset =
      base + (x - (s.chunkOffset + base)) := by
    intro x hx
    omega
  unfold fillVector
  dsimp only
  rw [← hbase, ← hn]
  by_cases hall : (s.rowGroup.selVector v n).1 = n
  · rw [if_pos hall, bitAt_writeBitRange]
    refine (if_congr (hrange k) rfl rfl).trans (ite_congr rfl (fun hk => ?_) fun _ => rfl)
    rw [hrow k hk.1]
    exact ((h.reports.all_visible v n hsize hin).mp hall _ (by omega)).symm
  · have hsel := h.reports.selected v n hsize hin hall
    have hlt : ∀ i < (s.rowGroup.selVector v n).1, (s.rowGroup.selVector v n).2 i < n :=
      fun i hi => ((hsel _).mp ⟨i, hi, rfl⟩).1
    rw [if_neg hall, execWords_append, bitAt_setBits hset _ _ (fun i hi => by
      have := hlt i hi
      omega), bitAt_writeBitRange]
    by_cases hk : s.chunkOffset + base ≤ k ∧ k < s.chunkOffset + base + n
    · rw [if_pos hk, if_pos ((hrange k).mp hk), Bool.or_false, hrow k hk.1, Bool.eq_iff_iff,
        decide_eq_true_iff]
      have hmem : k - (s.chunkOffset + base) < n := by omega
      refine Iff.trans ?_ ((hsel _).trans (and_iff_right hmem))
      refine exists_congr fun i => and_congr_right fun hi => ?_
      omega
    · rw [if_neg hk, if_neg fun hk' => hk ((hrange k).mpr hk')]
      have hnone : ¬∃ i < (s.rowGroup.selVector v n).1,
          s.chunkOffset + base + (s.rowGroup.selVector v n).2 i = k := by
        rintro ⟨i, hi, rfl⟩
        have := hlt i hi
        omega
      rw [decide_eq_false hnone, Bool.false_or]

/-- A vector drops a row exactly if one of its rows is invisible. -/
theorem fillVector_dropped (h : s.Ok) {v : ℕ} (hv : v * standardVectorSize < s.rowCount) :
    (s.fillVector setBit v).2 = false ↔ ∀ r, v * standardVectorSize ≤ r →
      r < min ((v + 1) * standardVectorSize) s.rowCount → s.rowGroup.visible r = true := by
  have hrows := s.vector_rows v hv
  have hcount := h.rows
  set n := min standardVectorSize (s.rowCount - v * standardVectorSize) with hn
  set base := v * standardVectorSize with hbase
  have hreport := h.reports.all_visible v n (Nat.min_le_left _ _) (by omega)
  have hflag : (s.fillVector setBit v).2 = false ↔ (s.rowGroup.selVector v n).1 = n := by
    unfold fillVector
    dsimp only
    rw [← hbase, ← hn]
    split_ifs with hall <;> simp [hall]
  rw [hflag, hreport]
  constructor
  · intro hall r hlow hhigh
    have := hall (r - base) (by omega)
    rwa [← hbase, Nat.add_sub_cancel' hlow] at this
  · intro hall i hi
    exact hall _ (Nat.le_add_right _ _) (by omega)

/-- The vectors of a slice cover its rows. -/
theorem mul_lt_of_lt_vectors {v : ℕ} (hv : v < s.vectors) :
    v * standardVectorSize < s.rowCount := by
  unfold vectors standardVectorSize at hv
  unfold standardVectorSize
  omega

theorem le_vectors_mul (s : MvccRowGroupSlice) : s.rowCount ≤ s.vectors * standardVectorSize := by
  unfold vectors standardVectorSize
  omega

/-- The first vectors of a slice, by induction on their number. -/
theorem bitAt_fillVectors (hset : SetsBit setBit) (h : s.Ok) {n : ℕ} (hn : n ≤ s.vectors) (m : ℕ → Word) (k : ℕ) :
    bitAt (execWords ((List.range n).flatMap fun v => (s.fillVector setBit v).1) m) k =
      if s.chunkOffset ≤ k ∧ k < s.chunkOffset + min (n * standardVectorSize) s.rowCount then
        s.rowGroup.visible (k - s.chunkOffset)
      else bitAt m k := by
  induction n with
  | zero =>
    rw [if_neg (by omega)]
    rfl
  | succ n ih =>
    have hlt := mul_lt_of_lt_vectors (s := s) (v := n) (by omega)
    rw [List.range_succ, List.flatMap_append, List.flatMap_singleton, execWords_append,
      bitAt_fillVector hset h hlt, ih (by omega)]
    have hstep : n * standardVectorSize ≤ (n + 1) * standardVectorSize :=
      Nat.mul_le_mul_right _ (Nat.le_succ n)
    split_ifs <;> first | rfl | omega

/-- **Filling a slice** leaves the visibility of its rows in their bits, and leaves
    the other bits. -/
theorem bitAt_fill (hset : SetsBit setBit) (h : s.Ok) (m : ℕ → Word) (k : ℕ) :
    bitAt (execWords (s.fill setBit).1 m) k =
      if s.chunkOffset ≤ k ∧ k < s.chunkOffset + s.rowCount then
        s.rowGroup.visible (k - s.chunkOffset)
      else bitAt m k := by
  have hrows := h.rows
  unfold fill
  by_cases hversion : s.hasVersionState = false
  · rw [if_pos hversion, bitAt_writeBitRange]
    refine ite_congr rfl (fun hk => ?_) fun _ => rfl
    rw [h.version] at hversion
    have hexact : s.rowGroup.exactCount = some s.rowGroup.count := by
      simpa [RowGroup.hasVersionState] using hversion
    exact (h.reports.exact_visible hexact _ (by omega)).symm
  · rw [if_neg hversion, bitAt_fillVectors hset h le_rfl, Nat.min_eq_right s.le_vectors_mul]

/-- A slice drops a row exactly if one of its rows is invisible. -/
theorem fill_dropped (h : s.Ok) :
    (s.fill setBit).2 = false ↔ ∀ r < s.rowCount, s.rowGroup.visible r = true := by
  have hrows := h.rows
  unfold fill
  by_cases hversion : s.hasVersionState = false
  · rw [if_pos hversion]
    rw [h.version] at hversion
    have hexact : s.rowGroup.exactCount = some s.rowGroup.count := by
      simpa [RowGroup.hasVersionState] using hversion
    exact iff_of_true rfl fun r hr => h.reports.exact_visible hexact r (by omega)
  · rw [if_neg hversion]
    dsimp only
    rw [List.any_eq_false]
    have hpos : 0 < standardVectorSize := by decide
    constructor
    · intro hall r hr
      have hlt : r / standardVectorSize < s.vectors := by
        rw [Nat.div_lt_iff_lt_mul hpos]
        exact hr.trans_le s.le_vectors_mul
      have hvector := hall _ (List.mem_range.mpr hlt)
      rw [Bool.not_eq_true, fillVector_dropped h (mul_lt_of_lt_vectors hlt)] at hvector
      refine hvector r (Nat.div_mul_le_self r _) (lt_min ?_ hr)
      exact (Nat.div_lt_iff_lt_mul hpos).mp (Nat.lt_succ_self _)
    · intro hall v hv
      rw [Bool.not_eq_true, fillVector_dropped h (mul_lt_of_lt_vectors (List.mem_range.mp hv))]
      exact fun r _ hr => hall r (lt_of_lt_of_le hr (Nat.min_le_right _ _))

/-- The words that filling a vector writes hold bits of the slice. -/
theorem word_of_mem_fillVector (hset : SetsBit setBit) (h : s.Ok) {v : ℕ} (hv : v * standardVectorSize < s.rowCount)
    {w : WordWrite} (hw : w ∈ (s.fillVector setBit v).1) :
    s.chunkOffset / 32 ≤ w.word ∧ w.word ≤ (s.chunkOffset + s.rowCount - 1) / 32 := by
  have hrows := s.vector_rows v hv
  have hbits := h.bits
  have hcount := h.rows
  unfold fillVector at hw
  dsimp only at hw
  set n := min standardVectorSize (s.rowCount - v * standardVectorSize) with hn
  set base := v * standardVectorSize with hbase
  have hin : base + n ≤ s.rowCount := by omega
  have hrange : ∀ {value : Bool}, w ∈ writeBitRange (s.chunkOffset + base) n value →
      s.chunkOffset / 32 ≤ w.word ∧ w.word ≤ (s.chunkOffset + s.rowCount - 1) / 32 := by
    intro value hmem
    obtain ⟨hpos, hlow, hhigh⟩ := word_of_mem_writeBitRange hmem
    constructor
    · exact (Nat.div_le_div_right (Nat.le_add_right _ _)).trans hlow
    · exact hhigh.trans (Nat.div_le_div_right (by omega))
  by_cases hall : (s.rowGroup.selVector v n).1 = n
  · rw [if_pos hall] at hw
    exact hrange hw
  · rw [if_neg hall] at hw
    rcases List.mem_append.mp hw with hw | hw
    · exact hrange hw
    · obtain ⟨i, hi, rfl⟩ := List.mem_map.mp hw
      have hsel := (h.reports.selected v n (Nat.min_le_left _ _) (by omega) hall _).mp
        ⟨i, List.mem_range.mp hi, rfl⟩
      rw [sizeType_eq (by omega), hset.word]
      exact ⟨Nat.div_le_div_right (by omega), Nat.div_le_div_right (by omega)⟩

/-- The words that filling a slice writes hold bits of the slice. -/
theorem word_of_mem_fill (hset : SetsBit setBit) (h : s.Ok) {w : WordWrite} (hw : w ∈ (s.fill setBit).1) :
    s.chunkOffset / 32 ≤ w.word ∧ w.word ≤ (s.chunkOffset + s.rowCount - 1) / 32 := by
  unfold fill at hw
  by_cases hversion : s.hasVersionState = false
  · rw [if_pos hversion] at hw
    exact (word_of_mem_writeBitRange hw).2
  · rw [if_neg hversion] at hw
    obtain ⟨v, hv, hw⟩ := List.mem_flatMap.mp hw
    exact word_of_mem_fillVector hset h (mul_lt_of_lt_vectors (List.mem_range.mp hv)) hw

end MvccRowGroupSlice

/-! ## `capture_mvcc_visibility_plan` -/

/-- `mvcc_visibility_plan`: the slices of every chunk, and whether one of them has
    version state. -/
structure VisibilityPlan where
  rowGroups : List (List MvccRowGroupSlice)
  chunkHasVersionState : List Bool

/-- `any_version_state`. -/
def VisibilityPlan.anyVersionState (plan : VisibilityPlan) : Bool :=
  plan.chunkHasVersionState.any id

/-- The chunk that holds the next row, and the counts of those after it. -/
structure ChunkCursor where
  index : ℕ
  start : ℕ
  stop : ℕ
  rest : List ℕ
  deriving DecidableEq, Repr

/-- The loop that skips chunks without a row left (lines 130–134). -/
def skipChunks (expected index start stop : ℕ) : List ℕ → ChunkCursor
  | [] => ⟨index, start, stop, []⟩
  | count :: rest =>
    if expected = stop then skipChunks expected (index + 1) stop (stop + count) rest
    else ⟨index, start, stop, count :: rest⟩

/-- The slice is added to its chunk (lines 174–177). -/
def VisibilityPlan.push (plan : VisibilityPlan) (index : ℕ) (slice : MvccRowGroupSlice) :
    VisibilityPlan where
  rowGroups := plan.rowGroups.modify index (· ++ [slice])
  chunkHasVersionState :=
    plan.chunkHasVersionState.modify index (· || slice.hasVersionState)

/-- The loop over the row groups (lines 128–180), from row `expected` on. -/
def captureRowGroups (nCache : ℕ) :
    ℕ → List RowGroup → ChunkCursor → ℕ → VisibilityPlan → Except String VisibilityPlan
  | _, [], _, expected, plan =>
    if expected < nCache then
      .error ("[capture_mvcc_visibility_plan] row groups end at rowid " ++ toString expected ++
        " but the pin covers [0, " ++ toString nCache ++ ") — live coverage below the pinned prefix")
    else .ok plan
  | rgIndex, rg :: rgs, cursor, expected, plan =>
    if expected < nCache then
      let cur := skipChunks expected cursor.index cursor.start cursor.stop cursor.rest
      let covered := min rg.count (nCache - expected)
      if rg.rowStart ≠ expected then
        .error ("[capture_mvcc_visibility_plan] non-contiguous row groups: index " ++
          toString rgIndex ++ " starts at rowid " ++ toString rg.rowStart ++ ", expected " ++
          toString expected)
      else if covered = 0 then
        .error ("[capture_mvcc_visibility_plan] zero-row row group inside the pinned prefix at " ++
          "rowid " ++ toString expected)
      else if expected + covered > cur.stop then
        .error ("[capture_mvcc_visibility_plan] chunk boundary at rowid " ++ toString cur.stop ++
          " does not land on a row-group boundary (row group [" ++ toString expected ++ ", " ++
          toString (expected + covered) ++ "))")
      else
        captureRowGroups nCache (rgIndex + 1) rgs cur (expected + covered)
          (plan.push cur.index
            { rowGroup := rg
              rowGroupStart := rg.rowStart
              chunkOffset := expected - cur.start
              rowCount := covered
              hasVersionState := rg.hasVersionState })
    else .ok plan

/-- What `capture_mvcc_visibility_plan` reads: the counts of the cached chunks and
    the version of the pin, the start of the query, and the row groups. -/
structure CaptureInput where
  counts : List ℕ
  vBase : ℕ
  startTime : ℕ
  rowGroups : List RowGroup

/-- `capture_mvcc_visibility_plan`. -/
def captureVisibilityPlan (input : CaptureInput) : Except String VisibilityPlan :=
  let plan : VisibilityPlan :=
    { rowGroups := List.replicate input.counts.length []
      chunkHasVersionState := List.replicate input.counts.length false }
  if input.startTime < input.vBase then
    .error ("[capture_mvcc_visibility_plan] query snapshot (start_time " ++
      toString input.startTime ++ ") predates the pin snapshot (v_base " ++ toString input.vBase ++
      ") — a re-pin raced this query between plan and prepare")
  else if input.counts.sum = 0 then .ok plan
  else
    captureRowGroups input.counts.sum 0 input.rowGroups
      ⟨0, 0, input.counts.headD 0, input.counts.tail⟩ 0 plan

/-! ## What a captured plan says -/

/-- The visibility of row `r` of the table. -/
def rowVisible : List RowGroup → ℕ → Bool
  | [], _ => false
  | rg :: rest, r => if r < rg.count then rg.visible r else rowVisible rest (r - rg.count)

/-- The slices tile the rows `[off, stop)` of the chunk that starts at row `base`,
    and each row has the visibility of its slice's row group. -/
def Tiled (vis : ℕ → Bool) (base : ℕ) : ℕ → List MvccRowGroupSlice → ℕ → Prop
  | off, [], stop => off = stop
  | off, s :: rest, stop =>
    s.chunkOffset = off ∧ 0 < s.rowCount ∧ s.rowCount ≤ s.rowGroup.count ∧
      s.hasVersionState = s.rowGroup.hasVersionState ∧
      (∀ r < s.rowCount, vis (base + off + r) = s.rowGroup.visible r) ∧
      Tiled vis base (off + s.rowCount) rest stop

theorem Tiled.off_le {vis : ℕ → Bool} {base off stop : ℕ} {slices : List MvccRowGroupSlice}
    (h : Tiled vis base off slices stop) : off ≤ stop := by
  induction slices generalizing off with
  | nil => exact Nat.le_of_eq h
  | cons s rest ih =>
    have := ih h.2.2.2.2.2
    omega

theorem Tiled.append {vis : ℕ → Bool} {base off mid : ℕ} {slices : List MvccRowGroupSlice}
    {s : MvccRowGroupSlice} (h : Tiled vis base off slices mid) (hoff : s.chunkOffset = mid)
    (hpos : 0 < s.rowCount) (hrows : s.rowCount ≤ s.rowGroup.count)
    (hversion : s.hasVersionState = s.rowGroup.hasVersionState)
    (hvis : ∀ r < s.rowCount, vis (base + mid + r) = s.rowGroup.visible r) :
    Tiled vis base off (slices ++ [s]) (mid + s.rowCount) := by
  induction slices generalizing off with
  | nil =>
    obtain rfl : off = mid := h
    exact ⟨hoff, hpos, hrows, hversion, hvis, rfl⟩
  | cons s' rest ih =>
    obtain ⟨h₁, h₂, h₃, h₄, h₅, h₆⟩ := h
    exact ⟨h₁, h₂, h₃, h₄, h₅, ih h₆⟩

/-- The plan covers the rows below `e`. -/
structure PlanCovers (vis : ℕ → Bool) (counts : List ℕ) (e : ℕ) (plan : VisibilityPlan) :
    Prop where
  slots : plan.rowGroups.length = counts.length
  flags : plan.chunkHasVersionState =
    plan.rowGroups.map fun slices => slices.any fun s => s.hasVersionState
  tiled : ∀ c (hc : c < counts.length), Tiled vis (counts.take c).sum 0 (plan.rowGroups.getD c [])
    (min counts[c] (e - (counts.take c).sum))

/-- The cursor stands at the chunk of row `e`, or at the end of one before it. -/
structure CursorAt (counts : List ℕ) (e : ℕ) (cur : ChunkCursor) : Prop where
  start : cur.start = (counts.take cur.index).sum
  split : ∃ count, counts.drop cur.index = count :: cur.rest ∧ cur.stop = cur.start + count
  low : cur.start ≤ e
  high : e ≤ cur.stop

theorem CursorAt.skip {counts rest : List ℕ} {e index start stop : ℕ}
    (h : CursorAt counts e ⟨index, start, stop, rest⟩) :
    CursorAt counts e (skipChunks e index start stop rest) := by
  induction rest generalizing index start stop with
  | nil => exact h
  | cons count rest ih =>
    unfold skipChunks
    split_ifs with hstop
    · apply ih
      obtain ⟨hstart, ⟨c, hdrop, hend⟩, hlow, hhigh⟩ := h
      dsimp only at hstart hdrop hend
      have htake : (counts.take (index + 1)).sum = (counts.take index).sum + c := by
        rw [List.take_add_one, List.sum_append]
        congr 1
        have hget : counts[index]? = some c := by
          have := congrArg List.head? hdrop
          rwa [List.head?_drop, List.head?_cons] at this
        rw [hget]
        simp
      have hrest : counts.drop (index + 1) = count :: rest := by
        rw [← List.drop_drop, hdrop]
        rfl
      exact ⟨by dsimp only; omega, ⟨count, hrest, rfl⟩, hstop ▸ hhigh, by dsimp only; omega⟩
    · exact h

variable {counts : List ℕ}

theorem sum_take_le {i j : ℕ} (h : i ≤ j) : (counts.take i).sum ≤ (counts.take j).sum :=
  (List.take_prefix_take_left h).sublist.sum_le_sum fun _ _ => Nat.zero_le _

variable {cur : ChunkCursor}

theorem CursorAt.here {e : ℕ} (h : CursorAt counts e cur) :
    ∃ hc : cur.index < counts.length, cur.stop = cur.start + counts[cur.index] := by
  obtain ⟨count, hdrop, hstop⟩ := h.split
  have hget : counts[cur.index]? = some count := by
    have := congrArg List.head? hdrop
    rwa [List.head?_drop, List.head?_cons] at this
  obtain ⟨hc, heq⟩ := List.getElem?_eq_some_iff.mp hget
  exact ⟨hc, by rw [hstop, heq]⟩

variable {plan : VisibilityPlan}

/-- The next slice is covered. -/
theorem PlanCovers.push {vis : ℕ → Bool} {e : ℕ} {s : MvccRowGroupSlice}
    (h : PlanCovers vis counts e plan) (hcur : CursorAt counts e cur)
    (hoff : s.chunkOffset = e - cur.start) (hpos : 0 < s.rowCount)
    (hrows : s.rowCount ≤ s.rowGroup.count)
    (hversion : s.hasVersionState = s.rowGroup.hasVersionState)
    (hvis : ∀ r < s.rowCount, vis (e + r) = s.rowGroup.visible r)
    (hfits : e + s.rowCount ≤ cur.stop) :
    PlanCovers vis counts (e + s.rowCount) (plan.push cur.index s) := by
  obtain ⟨hidx, hstop⟩ := hcur.here
  have hstart := hcur.start
  have hlow := hcur.low
  have hget : ∀ c, (plan.push cur.index s).rowGroups.getD c [] =
      if cur.index = c then plan.rowGroups.getD c [] ++ [s] else plan.rowGroups.getD c [] := by
    intro c
    simp only [VisibilityPlan.push, List.getD_eq_getElem?_getD, List.getElem?_modify]
    split_ifs with heq
    · rw [← heq, List.getElem?_eq_getElem (by rw [h.slots]; exact hidx)]
      rfl
    · simp
  refine ⟨by simp [VisibilityPlan.push, h.slots], ?_, fun c hc => ?_⟩
  · simp only [VisibilityPlan.push, h.flags]
    apply List.ext_getElem?
    intro c
    simp only [List.getElem?_map, List.getElem?_modify]
    by_cases heq : cur.index = c
    · cases plan.rowGroups[c]? <;> simp [heq]
    · simp [heq]
  · rw [hget]
    have htiled := h.tiled c hc
    rcases lt_trichotomy c cur.index with hlt | heq | hgt
    · -- A chunk before that of the cursor is complete already.
      have hbefore : (counts.take c).sum + counts[c] ≤ cur.start := by
        rw [hstart, ← List.sum_take_succ counts c hc]
        exact sum_take_le hlt
      rw [if_neg (by omega), show min counts[c] (e + s.rowCount - (counts.take c).sum) =
        min counts[c] (e - (counts.take c).sum) by omega]
      exact htiled
    · subst heq
      rw [if_pos rfl]
      rw [← hstart] at htiled ⊢
      rw [show min counts[cur.index] (e - cur.start) = e - cur.start by omega] at htiled
      rw [show min counts[cur.index] (e + s.rowCount - cur.start) =
        e - cur.start + s.rowCount by omega]
      refine htiled.append hoff hpos hrows hversion fun r hr => ?_
      rw [Nat.add_sub_cancel' hlow]
      exact hvis r hr
    · -- A chunk after that of the cursor starts behind the slice.
      have hafter : cur.stop ≤ (counts.take c).sum := by
        rw [hstop, hstart, ← List.sum_take_succ counts cur.index hidx]
        exact sum_take_le hgt
      rw [if_neg (by omega), show min counts[c] (e + s.rowCount - (counts.take c).sum) =
        min counts[c] (e - (counts.take c).sum) by omega]
      exact htiled

/-- The loop over the row groups, by induction on those still to come. -/
theorem captureRowGroups_covers {vis : ℕ → Bool} {rgIndex e : ℕ} {rgs : List RowGroup}
    {plan plan' : VisibilityPlan}
    (hok : captureRowGroups counts.sum rgIndex rgs cur e plan = .ok plan')
    (hplan : PlanCovers vis counts e plan) (hcur : CursorAt counts e cur)
    (hvis : e < counts.sum → ∀ r, vis (e + r) = rowVisible rgs r) (hle : e ≤ counts.sum) :
    PlanCovers vis counts counts.sum plan' := by
  induction rgs generalizing rgIndex e cur plan with
  | nil =>
    unfold captureRowGroups at hok
    split_ifs at hok with hlt
    cases hok
    exact (by omega : e = counts.sum) ▸ hplan
  | cons rg rgs ih =>
    unfold captureRowGroups at hok
    by_cases hlt : e < counts.sum
    · rw [if_pos hlt] at hok
      dsimp only at hok
      simp only [ite_error_eq_ok] at hok
      obtain ⟨-, hcovered, hfits, hok⟩ := hok
      have hcur' := hcur.skip
      have hrow := hvis hlt
      set covered := min rg.count (counts.sum - e) with hdef
      have hlow := hcur'.low
      refine ih hok ?_ ?_ (fun hnext r => ?_) (by omega)
      · have hrows : covered ≤ rg.count := Nat.min_le_left _ _
        refine hplan.push (s := ⟨rg, rg.rowStart, _, covered, rg.hasVersionState⟩) hcur' rfl
          (Nat.pos_of_ne_zero hcovered) hrows rfl (fun r hr => ?_) (not_lt.mp hfits)
        rw [hrow, rowVisible, if_pos (lt_of_lt_of_le hr hrows)]
      · exact ⟨hcur'.start, hcur'.split, by omega, not_lt.mp hfits⟩
      · have hall : covered = rg.count := by omega
        rw [Nat.add_assoc, hrow, rowVisible, if_neg (by omega), hall, Nat.add_sub_cancel_left]
    · rw [if_neg hlt] at hok
      cases hok
      exact (by omega : e = counts.sum) ▸ hplan

/-- **The plan**: the slices of every chunk tile its rows, with the visibility of the
    table's rows, and the chunk is marked if one of them has version state. -/
theorem capture_tiles {input : CaptureInput} (hok : captureVisibilityPlan input = .ok plan) :
    plan.rowGroups.length = input.counts.length ∧
    (plan.chunkHasVersionState =
      plan.rowGroups.map fun slices => slices.any fun s => s.hasVersionState) ∧
    ∀ c (hc : c < input.counts.length),
      Tiled (rowVisible input.rowGroups) (input.counts.take c).sum 0 (plan.rowGroups.getD c [])
        input.counts[c] := by
  have hend : ∀ c (hc : c < input.counts.length),
      min input.counts[c] (input.counts.sum - (input.counts.take c).sum) = input.counts[c] := by
    intro c hc
    have hsum : (input.counts.take (c + 1)).sum ≤ (input.counts.take input.counts.length).sum :=
      sum_take_le hc
    rw [List.sum_take_succ _ _ hc, List.take_length] at hsum
    omega
  have hstart : PlanCovers (rowVisible input.rowGroups) input.counts 0
      { rowGroups := List.replicate input.counts.length []
        chunkHasVersionState := List.replicate input.counts.length false } := by
    refine ⟨by simp, by simp, fun c hc => ?_⟩
    simp [hc, Tiled]
  have hcovers : PlanCovers (rowVisible input.rowGroups) input.counts input.counts.sum plan := by
    unfold captureVisibilityPlan at hok
    dsimp only at hok
    rw [ite_error_eq_ok] at hok
    by_cases hzero : input.counts.sum = 0
    · rw [if_pos hzero] at hok
      cases hok.2
      exact hzero ▸ hstart
    · rw [if_neg hzero] at hok
      refine captureRowGroups_covers hok.2 hstart ?_ (fun _ r => by rw [Nat.zero_add])
        (Nat.zero_le _)
      cases hcounts : input.counts with
      | nil => simp [hcounts] at hzero
      | cons count rest => exact ⟨rfl, ⟨count, rfl, by simp⟩, le_rfl, Nat.zero_le _⟩
  refine ⟨hcovers.slots, hcovers.flags, fun c hc => ?_⟩
  have htiled := hcovers.tiled c hc
  rwa [hend c hc] at htiled

/-- The slices come from the row groups of the table. -/
theorem captureRowGroups_mem {nCache rgIndex e : ℕ} {rgs : List RowGroup}
    {plan plan' : VisibilityPlan} {P : RowGroup → Prop}
    (hok : captureRowGroups nCache rgIndex rgs cur e plan = .ok plan') (hrgs : ∀ rg ∈ rgs, P rg)
    (hplan : ∀ slices ∈ plan.rowGroups, ∀ s ∈ slices, P s.rowGroup) :
    ∀ slices ∈ plan'.rowGroups, ∀ s ∈ slices, P s.rowGroup := by
  induction rgs generalizing rgIndex e cur plan with
  | nil =>
    unfold captureRowGroups at hok
    split_ifs at hok
    cases hok
    exact hplan
  | cons rg rgs ih =>
    unfold captureRowGroups at hok
    by_cases hlt : e < nCache
    · rw [if_pos hlt] at hok
      dsimp only at hok
      simp only [ite_error_eq_ok] at hok
      obtain ⟨-, -, -, hok⟩ := hok
      refine ih hok (fun rg' hrg' => hrgs rg' (by simp [hrg'])) ?_
      intro slices hslices s hs
      obtain ⟨c, hc⟩ := List.mem_iff_getElem?.mp hslices
      simp only [VisibilityPlan.push, List.getElem?_modify] at hc
      obtain ⟨old, hold, rfl⟩ := Option.map_eq_some_iff.mp hc
      have hmem := hplan old (List.mem_of_getElem? hold)
      split_ifs at hs
      · rcases List.mem_append.mp hs with hs | hs
        · exact hmem s hs
        · rw [List.mem_singleton.mp hs]
          exact hrgs rg (by simp)
      · exact hmem s hs
    · rw [if_neg hlt] at hok
      cases hok
      exact hplan

theorem capture_reports {input : CaptureInput} (hok : captureVisibilityPlan input = .ok plan)
    (hrgs : ∀ rg ∈ input.rowGroups, rg.Reports) :
    ∀ slices ∈ plan.rowGroups, ∀ s ∈ slices, s.rowGroup.Reports := by
  have hempty : ∀ slices ∈ List.replicate input.counts.length ([] : List MvccRowGroupSlice),
      ∀ s ∈ slices, s.rowGroup.Reports := by
    intro slices hslices s hs
    rw [(List.mem_replicate.mp hslices).2] at hs
    cases hs
  unfold captureVisibilityPlan at hok
  dsimp only at hok
  rw [ite_error_eq_ok] at hok
  by_cases hzero : input.counts.sum = 0
  · rw [if_pos hzero] at hok
    cases hok.2
    exact hempty
  · rw [if_neg hzero] at hok
    exact captureRowGroups_mem hok.2 hrgs hempty

/-! ## Filling the slices of a chunk -/

section Slices

variable {vis : ℕ → Bool} {base off stop : ℕ} {slices : List MvccRowGroupSlice}

/-- The rows of tiled slices, in order. -/
theorem Tiled.mem_bounds (h : Tiled vis base off slices stop) {s : MvccRowGroupSlice}
    (hs : s ∈ slices) : off ≤ s.chunkOffset ∧ s.chunkOffset + s.rowCount ≤ stop ∧ 0 < s.rowCount := by
  induction slices generalizing off with
  | nil => cases hs
  | cons s' rest ih =>
    obtain ⟨hoff, hpos, -, -, -, hrest⟩ := h
    have hle := hrest.off_le
    rcases List.mem_cons.mp hs with rfl | hs
    · omega
    · have := ih hrest hs
      omega

theorem Tiled.ok (h : Tiled vis base off slices stop) (hstop : stop < 2 ^ 31)
    (hreports : ∀ s ∈ slices, s.rowGroup.Reports) {s : MvccRowGroupSlice} (hs : s ∈ slices) : s.Ok := by
  have hbounds := h.mem_bounds hs
  induction slices generalizing off with
  | nil => cases hs
  | cons s' rest ih =>
    obtain ⟨-, -, hrows, hversion, -, hrest⟩ := h
    rcases List.mem_cons.mp hs with rfl | hmem
    · exact ⟨hreports _ (by simp), hrows, by omega, hversion⟩
    · exact ih hrest (fun t ht => hreports t (by simp [ht])) hmem (hrest.mem_bounds hmem)

/-- The slices of a part of the list. -/
theorem Tiled.split {slices' : List MvccRowGroupSlice}
    (h : Tiled vis base off (slices ++ slices') stop) :
    ∃ mid, Tiled vis base off slices mid ∧ Tiled vis base mid slices' stop := by
  induction slices generalizing off with
  | nil => exact ⟨off, rfl, h⟩
  | cons s rest ih =>
    obtain ⟨h₁, h₂, h₃, h₄, h₅, h₆⟩ := h
    obtain ⟨mid, hrest, hrest'⟩ := ih h₆
    exact ⟨mid, ⟨h₁, h₂, h₃, h₄, h₅, hrest⟩, hrest'⟩

/-- The total of the row counts. -/
theorem Tiled.sum_rowCount (h : Tiled vis base off slices stop) :
    off + (slices.map MvccRowGroupSlice.rowCount).sum = stop := by
  induction slices generalizing off with
  | nil => exact h
  | cons s rest ih =>
    have := ih h.2.2.2.2.2
    rw [List.map_cons, List.sum_cons]
    omega

/-- Every row is in a slice. -/
theorem Tiled.exists_mem (h : Tiled vis base off slices stop) {r : ℕ} (hlow : off ≤ r)
    (hhigh : r < stop) : ∃ s ∈ slices, s.chunkOffset ≤ r ∧ r < s.chunkOffset + s.rowCount := by
  induction slices generalizing off with
  | nil =>
    have heq : off = stop := h
    omega
  | cons s rest ih =>
    obtain ⟨hoff, -, -, -, -, hrest⟩ := h
    by_cases hr : r < off + s.rowCount
    · exact ⟨s, by simp, by omega, by omega⟩
    · obtain ⟨s', hs', hbounds⟩ := ih hrest (by omega)
      exact ⟨s', by simp [hs'], hbounds⟩

/-- A later slice starts behind an earlier one. -/
theorem Tiled.pairwise (h : Tiled vis base off slices stop) :
    slices.Pairwise fun s s' => s.chunkOffset + s.rowCount ≤ s'.chunkOffset := by
  induction slices generalizing off with
  | nil => exact List.Pairwise.nil
  | cons s rest ih =>
    obtain ⟨hoff, -, -, -, -, hrest⟩ := h
    refine List.pairwise_cons.mpr ⟨fun s' hs' => ?_, ih hrest⟩
    have := hrest.mem_bounds hs'
    omega

/-- **Filling tiled slices** leaves the visibility of their rows. -/
theorem Tiled.bitAt_fill (hset : SetsBit setBit) (h : Tiled vis base off slices stop)
    (hstop : stop < 2 ^ 31)
    (hreports : ∀ s ∈ slices, s.rowGroup.Reports) (m : ℕ → Word) (k : ℕ) :
    bitAt (execWords (slices.flatMap fun s => (s.fill setBit).1) m) k =
      if off ≤ k ∧ k < stop then vis (base + k) else bitAt m k := by
  induction slices generalizing off m with
  | nil =>
    have heq : off = stop := h
    rw [if_neg (by omega)]
    rfl
  | cons s rest ih =>
    have hok := h.ok hstop hreports (s := s) (by simp)
    obtain ⟨hoff, hpos, -, -, hvis, hrest⟩ := h
    have hle := hrest.off_le
    rw [List.flatMap_cons, execWords_append, ih hrest fun t ht => hreports t (by simp [ht]),
      MvccRowGroupSlice.bitAt_fill hset hok, hoff]
    by_cases hk : off ≤ k ∧ k < off + s.rowCount
    · have hrow := hvis (k - off) (by omega)
      rw [show base + off + (k - off) = base + k by omega] at hrow
      rw [if_neg (by omega), if_pos hk, if_pos (by omega), hrow]
    · rw [if_neg hk]
      exact if_congr (by omega) rfl rfl

/-- Filling tiled slices drops a row exactly if one of their rows is invisible. -/
theorem Tiled.fill_dropped (setBit : ℤ → WordWrite) (h : Tiled vis base off slices stop)
    (hstop : stop < 2 ^ 31) (hreports : ∀ s ∈ slices, s.rowGroup.Reports) :
    (slices.any fun s => (s.fill setBit).2) = false ↔
      ∀ k, off ≤ k → k < stop → vis (base + k) = true := by
  induction slices generalizing off with
  | nil =>
    have heq : off = stop := h
    exact iff_of_true rfl fun k hlow hhigh => by omega
  | cons s rest ih =>
    have hok := h.ok hstop hreports (s := s) (by simp)
    obtain ⟨hoff, hpos, -, -, hvis, hrest⟩ := h
    have hle := hrest.off_le
    rw [List.any_cons, Bool.or_eq_false_iff, MvccRowGroupSlice.fill_dropped hok,
      ih hrest fun t ht => hreports t (by simp [ht])]
    constructor
    · rintro ⟨hhead, htail⟩ k hlow hhigh
      by_cases hk : k < off + s.rowCount
      · have hrow := hvis (k - off) (by omega)
        rw [show base + off + (k - off) = base + k by omega] at hrow
        rw [hrow]
        exact hhead _ (by omega)
      · exact htail k (by omega) hhigh
    · intro hall
      refine ⟨fun r hr => ?_, fun k hlow hhigh => hall k (by omega) hhigh⟩
      rw [← hvis r hr, Nat.add_assoc]
      exact hall _ (by omega) (by omega)

/-- Slices without version state have visible rows only. -/
theorem Tiled.clean (h : Tiled vis base off slices stop) (hstop : stop < 2 ^ 31)
    (hreports : ∀ s ∈ slices, s.rowGroup.Reports)
    (hclean : (slices.any fun s => s.hasVersionState) = false) :
    ∀ k, off ≤ k → k < stop → vis (base + k) = true := by
  refine (h.fill_dropped (fun _ => ⟨0, .set 0⟩) hstop hreports).mp ?_
  rw [List.any_eq_false] at hclean ⊢
  intro s hs
  have hversion := hclean s hs
  rw [Bool.not_eq_true] at hversion ⊢
  unfold MvccRowGroupSlice.fill
  rw [if_pos hversion]

end Slices

end Sirius.Scan
