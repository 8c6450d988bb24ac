import Sirius.Compression.ScanPushdown

/-!
# The bits of the combined mask

The filtered decode counts and gathers over whole strips of 1024 bits, so the bits past the
last row have to be zero. Every ballot zeroes them; a join filter that declines sets them,
and what the keep mask holds there is up to its owner.

* `kept`: the row passes every source that did not decline.
* `combinedMask_eq`: as long as one source did not decline, the combined mask has the bits
  of the kept rows and no others.
* `filter_combinedMask`: the rows that the decode gathers are the kept ones.
-/

namespace Sirius.Compression.Pushdown

variable {chunk : Chunk} {selected : List ℕ} {request : ScanFilterRequest}
  {answers : List (Option (ℕ → Bool))}

/-- The row lies in the range, on its column. -/
def inRange (chunk : Chunk) (selected : List ℕ) (row : ℕ) (filter : ℕ × DecodeRange) : Bool :=
  (columnAt chunk selected filter.1).any fun column =>
    decide (filter.2.lo ≤ column.lane row ∧ column.lane row ≤ filter.2.hi)

/-- The row has one of the texts, on their column. -/
def isListed (chunk : Chunk) (selected : List ℕ) (row : ℕ) (filter : ℕ × List String) : Bool :=
  (columnAt chunk selected filter.1).any fun column => decide (column.text row ∈ filter.2)

/-- The row passes every source; a join filter that declines lets every row pass. -/
def kept (chunk : Chunk) (selected : List ℕ) (request : ScanFilterRequest)
    (answers : List (Option (ℕ → Bool))) (row : ℕ) : Bool :=
  request.filters.all (inRange chunk selected row) &&
  request.bool8Filters.all (isListed chunk selected row) &&
  (answers.all fun a => a.all fun keeps => keeps row) &&
  request.keepMask.all fun mask => mask.2 row

/-- A source that did not decline. -/
def HasBallot (request : ScanFilterRequest) (answers : List (Option (ℕ → Bool))) : Prop :=
  request.filters ≠ [] ∨ request.bool8Filters ≠ [] ∨ ∃ keeps, some keeps ∈ answers

/-- If not every source declined, one of them ballots. -/
theorem hasBallot_of_declined_ne
    (h : answers.countP Option.isNone ≠
      request.filters.length + request.bool8Filters.length + answers.length) :
    HasBallot request answers := by
  by_contra hnone
  simp only [HasBallot, not_or, not_not, not_exists] at hnone
  obtain ⟨hfilters, hbool8, hanswers⟩ := hnone
  apply h
  simp only [hfilters, hbool8, List.length_nil, Nat.zero_add]
  rw [List.countP_eq_length]
  intro a ha
  cases a with
  | none => rfl
  | some keeps => exact absurd ha (hanswers keeps)

theorem memberStrip_apply (rows : ℕ) (a : Option (ℕ → Bool)) (bit : ℕ) :
    memberStrip rows a bit = a.all fun keeps => ballot rows keeps bit := by
  cases a <;> rfl

/-- The cascade ands in what the join filters answer. -/
theorem membershipCascade_eq (rows : ℕ) (combined : ℕ → Bool)
    (answers : List (Option (ℕ → Bool))) (bit : ℕ) :
    membershipCascade rows combined answers bit =
      (combined bit && answers.all fun a => memberStrip rows a bit) := by
  induction answers generalizing combined with
  | nil => exact (Bool.and_true _).symm
  | cons a rest ih =>
    cases a with
    | none =>
      rw [membershipCascade, ih, List.all_cons]
      rfl
    | some keeps =>
      rw [membershipCascade, ih, List.all_cons]
      simp only [combineMasksAnd, List.all_cons, List.all_nil, Bool.and_true, Bool.and_assoc]

/-- Both ways of running the join filters combine the same strips. -/
theorem combinedMask_apply (bit : ℕ) :
    combinedMask chunk selected request answers bit =
      ((request.filters.all fun f => rangeStrip chunk selected f bit) &&
        (request.bool8Filters.all fun f => bool8Strip chunk selected f bit) &&
        (answers.all fun a => memberStrip chunk.numRows.toNat a bit) &&
        request.keepMask.all fun mask => keepStrip mask bit) := by
  have hvisible : ((request.keepMask.toList.map keepStrip).all fun strip => strip bit) =
      request.keepMask.all fun mask => keepStrip mask bit := by
    cases request.keepMask with
    | none => rfl
    | some mask => exact Bool.and_true _
  simp only [combinedMask]
  split_ifs
  · rw [membershipCascade_eq]
    simp only [combineMasksAnd, List.all_append, List.all_map, Function.comp_def, hvisible]
    rw [Bool.and_assoc, Bool.and_comm (request.keepMask.all _), ← Bool.and_assoc]
  · simp only [combineMasksAnd, List.all_append, List.all_map, Function.comp_def, hvisible]

/-- The combined mask has the bits of the kept rows, and none past the last row. -/
theorem combinedMask_eq (hballot : HasBallot request answers)
    (hmask : ∀ mask ∈ request.keepMask, mask.1 = chunk.numRows.toNat) (bit : ℕ) :
    combinedMask chunk selected request answers bit =
      (decide (bit < chunk.numRows.toNat) && kept chunk selected request answers bit) := by
  rw [combinedMask_apply]
  by_cases hbit : bit < chunk.numRows.toNat
  · have hkeep : (request.keepMask.all fun mask => keepStrip mask bit) =
        request.keepMask.all fun mask => mask.2 bit := by
      cases hsome : request.keepMask with
      | none => rfl
      | some mask =>
        have hlength := hmask mask hsome
        have hword : bit < (mask.1 + 31) / 32 * 32 := by omega
        simp only [Option.all_some, keepStrip, decide_eq_true hword, Bool.true_and]
    simp only [rangeStrip, bool8Strip, memberStrip_apply, ballot, decide_eq_true hbit,
      Bool.true_and, hkeep, kept]
    rfl
  · rw [decide_eq_false hbit, Bool.false_and]
    simp only [Bool.and_eq_false_iff]
    -- past the last row it is the source that ballots whose bit is zero
    have hzero : ∀ keeps : ℕ → Bool, ballot chunk.numRows.toNat keeps bit = false := by
      intro keeps
      rw [ballot, decide_eq_false hbit, Bool.false_and]
    rcases hballot with hfilters | hbool8 | ⟨keeps, hkeeps⟩
    · obtain ⟨f, hf⟩ := List.exists_mem_of_ne_nil _ hfilters
      exact .inl (.inl (.inl (List.all_eq_false.mpr ⟨f, hf, by simp [rangeStrip, hzero]⟩)))
    · obtain ⟨f, hf⟩ := List.exists_mem_of_ne_nil _ hbool8
      exact .inl (.inl (.inr (List.all_eq_false.mpr ⟨f, hf, by simp [bool8Strip, hzero]⟩)))
    · exact .inl (.inr (List.all_eq_false.mpr ⟨some keeps, hkeeps, by simp [memberStrip, hzero]⟩))

theorem le_paddedBits (rows : ℕ) : rows ≤ paddedBits rows := by
  unfold paddedBits
  omega

/-- Counting over the strips counts the kept rows. -/
theorem filter_combinedMask (hballot : HasBallot request answers)
    (hmask : ∀ mask ∈ request.keepMask, mask.1 = chunk.numRows.toNat) :
    (List.range (paddedBits chunk.numRows.toNat)).filter
        (combinedMask chunk selected request answers) =
      (List.range chunk.numRows.toNat).filter (kept chunk selected request answers) := by
  obtain ⟨tail, htail⟩ := Nat.exists_eq_add_of_le (le_paddedBits chunk.numRows.toNat)
  have hbits : ∀ bit, combinedMask chunk selected request answers bit =
      (decide (bit < chunk.numRows.toNat) && kept chunk selected request answers bit) :=
    combinedMask_eq hballot hmask
  rw [htail, List.range_add, List.filter_append]
  have hempty : (List.map (chunk.numRows.toNat + ·) (List.range tail)).filter
      (combinedMask chunk selected request answers) = [] := by
    rw [List.filter_eq_nil_iff]
    intro bit hbit
    obtain ⟨i, -, rfl⟩ := List.mem_map.mp hbit
    rw [hbits]
    simp
  rw [hempty, List.append_nil]
  apply List.filter_congr
  intro bit hbit
  rw [hbits, decide_eq_true (List.mem_range.mp hbit), Bool.true_and]

end Sirius.Compression.Pushdown
