import Sirius.Common.Assoc

/-!
# The sizes of native segments

Model of `compute_segment_bytes_size` (src/op/scan/duckdb_native_metadata.cpp:376-403), which infers
the size of each persistent segment from the segment that follows it in its block. The segments are
reached through pointers into the metadata; a pointer is an `Address` here. The order that
`std::sort` gives to equal elements is not specified, so the sort is a parameter.

* `computeSegmentBytesSize`: the function.
* `Stored`: where the segments are in their blocks.
* `SizesRight`: every inferred range covers its segment and no other.
* `sizes_right_iff`: the ranges are right when no segment is described twice.
-/

namespace Sirius.Scan.NativeSegments

open Sirius.Common

/-! ## The metadata -/

/-- `duckdb_segment_descriptor`, with the fields that are read or written here. -/
structure Segment where
  blockId : ℤ
  blockOffset : ℕ
  bytesSize : ℕ := 0
  deriving DecidableEq, Repr

/-- The lists of segments of a column. -/
inductive Kind where
  | data
  | validity
  | arrayChildData
  | arrayChildValidity
  deriving DecidableEq, Repr

/-- `duckdb_column_metadata`. -/
structure ColumnMetadata where
  dataSegments : List Segment := []
  validitySegments : List Segment := []
  arrayChildDataSegments : List Segment := []
  arrayChildValiditySegments : List Segment := []
  deriving DecidableEq, Repr

def ColumnMetadata.segments (col : ColumnMetadata) : Kind → List Segment
  | .data => col.dataSegments
  | .validity => col.validitySegments
  | .arrayChildData => col.arrayChildDataSegments
  | .arrayChildValidity => col.arrayChildValiditySegments

/-- `duckdb_row_group_metadata`. -/
structure RowGroupMetadata where
  columns : List ColumnMetadata
  deriving DecidableEq, Repr

/-- A pointer to a descriptor. -/
structure Address where
  rowGroup : ℕ
  column : ℕ
  kind : Kind
  index : ℕ
  deriving DecidableEq, Repr

/-- The descriptor behind a pointer. -/
def segmentAt (rowGroups : List RowGroupMetadata) (a : Address) : Option Segment :=
  (rowGroups[a.rowGroup]?).bind fun rg =>
    (rg.columns[a.column]?).bind fun col => (col.segments a.kind)[a.index]?

/-- The descriptors, each changed in its place. -/
def mapSegments (f : Address → Segment → Segment) (rowGroups : List RowGroupMetadata) :
    List RowGroupMetadata :=
  rowGroups.mapIdx fun r rg =>
    { columns := rg.columns.mapIdx fun c col =>
        { dataSegments := col.dataSegments.mapIdx fun i => f ⟨r, c, .data, i⟩
          validitySegments := col.validitySegments.mapIdx fun i => f ⟨r, c, .validity, i⟩
          arrayChildDataSegments :=
            col.arrayChildDataSegments.mapIdx fun i => f ⟨r, c, .arrayChildData, i⟩
          arrayChildValiditySegments :=
            col.arrayChildValiditySegments.mapIdx fun i => f ⟨r, c, .arrayChildValidity, i⟩ } }

/-! ## The sizes -/

/-- The persistent descriptors of one list. -/
def segmentRefs (r c : ℕ) (kind : Kind) (segments : List Segment) : List (Address × Segment) :=
  (segments.zipIdx.filter fun p => decide (0 ≤ p.1.blockId)).map fun p => (⟨r, c, kind, p.2⟩, p.1)

/-- `refs` before the sort (lines 379–391). -/
def refs (rowGroups : List RowGroupMetadata) : List (Address × Segment) :=
  rowGroups.zipIdx.flatMap fun rg => rg.1.columns.zipIdx.flatMap fun col =>
    segmentRefs rg.2 col.2 .data col.1.dataSegments ++
    segmentRefs rg.2 col.2 .validity col.1.validitySegments ++
    segmentRefs rg.2 col.2 .arrayChildData col.1.arrayChildDataSegments ++
    segmentRefs rg.2 col.2 .arrayChildValidity col.1.arrayChildValiditySegments

/-- The comparison of the sort (lines 392–395). -/
def less (a b : Address × Segment) : Prop :=
  if a.2.blockId ≠ b.2.blockId then a.2.blockId < b.2.blockId
  else a.2.blockOffset < b.2.blockOffset

instance : DecidableRel less := fun a b => by
  unfold less
  infer_instance

/-- What `std::sort` promises. -/
def IsSort (sort : List (Address × Segment) → List (Address × Segment)) : Prop :=
  ∀ l, (sort l).Perm l ∧ (sort l).Pairwise fun a b => ¬ less b a

/-- The difference of two `size_t`. -/
def subSize (a b : ℕ) : ℕ := (a + 2 ^ 64 - b) % 2 ^ 64

/-- `end` (lines 398–400), for the segment and the one after it. -/
def endOf (blockSize : ℕ) (s : Segment) : Option (Address × Segment) → ℕ
  | none => blockSize
  | some next => if next.2.blockId ≠ s.blockId then blockSize else next.2.blockOffset

/-- The loop (lines 396–402): the sizes that it stores. -/
def sizes (blockSize : ℕ) : List (Address × Segment) → List (Address × ℕ)
  | [] => []
  | (a, s) :: rest =>
    (a, subSize (endOf blockSize s rest.head?) s.blockOffset) :: sizes blockSize rest

/-- `compute_segment_bytes_size(row_groups, block_size)`. -/
def computeSegmentBytesSize (sort : List (Address × Segment) → List (Address × Segment))
    (rowGroups : List RowGroupMetadata) (blockSize : ℕ) : List RowGroupMetadata :=
  let stored := sizes blockSize (sort (refs rowGroups))
  mapSegments (fun a s =>
    match stored.lookup a with
    | some n => { s with bytesSize := n }
    | none => s) rowGroups

/-! ## What the ranges should be -/

/-- A persistent descriptor of the metadata. -/
def Described (rowGroups : List RowGroupMetadata) (a : Address) (s : Segment) : Prop :=
  segmentAt rowGroups a = some s ∧ 0 ≤ s.blockId

/-- The stored segments, by the block and the offset where they start: they are inside their blocks,
    not empty, and disjoint. -/
structure Stored (rowGroups : List RowGroupMetadata) (blockSize : ℕ) (length : ℤ → ℕ → ℕ) :
    Prop where
  inside : ∀ a s, Described rowGroups a s →
    s.blockOffset + length s.blockId s.blockOffset ≤ blockSize
  pos : ∀ a s, Described rowGroups a s → 0 < length s.blockId s.blockOffset
  disjoint : ∀ a s b t, Described rowGroups a s → Described rowGroups b t →
    s.blockId = t.blockId → s.blockOffset ≠ t.blockOffset →
    s.blockOffset + length s.blockId s.blockOffset ≤ t.blockOffset ∨
      t.blockOffset + length t.blockId t.blockOffset ≤ s.blockOffset

/-- Every persistent descriptor has a range inside its block that contains the stored segment and
    does not reach into the next described one. -/
def SizesRight (rowGroups result : List RowGroupMetadata) (blockSize : ℕ) (length : ℤ → ℕ → ℕ) :
    Prop :=
  ∀ a s, Described rowGroups a s → ∃ n, segmentAt result a = some { s with bytesSize := n } ∧
    s.blockOffset + n ≤ blockSize ∧ length s.blockId s.blockOffset ≤ n ∧
    ∀ b t, Described rowGroups b t → t.blockId = s.blockId → s.blockOffset < t.blockOffset →
      s.blockOffset + n ≤ t.blockOffset

/-- No stored segment has two descriptors. -/
def DescribedOnce (rowGroups : List RowGroupMetadata) : Prop :=
  ∀ a s b t, Described rowGroups a s → Described rowGroups b t → s.blockId = t.blockId →
    s.blockOffset = t.blockOffset → a = b

/-! ## The pointers -/

variable {rowGroups : List RowGroupMetadata} {a b : Address} {s t : Segment}

theorem mem_segmentRefs {r c : ℕ} {kind : Kind} {segments : List Segment} :
    (a, s) ∈ segmentRefs r c kind segments ↔
      a.rowGroup = r ∧ a.column = c ∧ a.kind = kind ∧ segments[a.index]? = some s ∧
        0 ≤ s.blockId := by
  rw [segmentRefs, List.mem_map]
  constructor
  · rintro ⟨⟨s', i⟩, hmem, heq⟩
    obtain ⟨rfl, rfl⟩ := Prod.mk.inj heq
    rw [List.mem_filter, List.mem_zipIdx_iff_getElem?, decide_eq_true_eq] at hmem
    exact ⟨rfl, rfl, rfl, hmem⟩
  · rintro ⟨rfl, rfl, rfl, hget, hid⟩
    refine ⟨(s, a.index), ?_, rfl⟩
    rw [List.mem_filter, List.mem_zipIdx_iff_getElem?, decide_eq_true_eq]
    exact ⟨hget, hid⟩

/-- The four lists of a column are one list for each kind. -/
theorem mem_columnRefs {r c : ℕ} {col : ColumnMetadata} :
    (a, s) ∈ segmentRefs r c .data col.dataSegments ++
        segmentRefs r c .validity col.validitySegments ++
        segmentRefs r c .arrayChildData col.arrayChildDataSegments ++
        segmentRefs r c .arrayChildValidity col.arrayChildValiditySegments ↔
      a.rowGroup = r ∧ a.column = c ∧ (col.segments a.kind)[a.index]? = some s ∧
        0 ≤ s.blockId := by
  simp only [List.mem_append, mem_segmentRefs]
  cases hk : a.kind <;> simp [ColumnMetadata.segments]

theorem mem_refs : (a, s) ∈ refs rowGroups ↔ Described rowGroups a s := by
  simp only [refs, List.mem_flatMap, Prod.exists, List.mem_zipIdx_iff_getElem?, mem_columnRefs,
    Described, segmentAt, Option.bind_eq_some_iff]
  constructor
  · rintro ⟨rg, r, hrg, col, c, hcol, rfl, rfl, hget, hid⟩
    exact ⟨⟨rg, hrg, col, hcol, hget⟩, hid⟩
  · rintro ⟨⟨rg, hrg, col, hcol, hget⟩, hid⟩
    exact ⟨rg, a.rowGroup, hrg, col, a.column, hcol, rfl, rfl, hget, hid⟩

theorem nodup_segmentRefs (r c : ℕ) (kind : Kind) (segments : List Segment) :
    (segmentRefs r c kind segments).Nodup := by
  have hzip : segments.zipIdx.Nodup := by
    apply List.Nodup.of_map Prod.snd
    rw [List.zipIdx_map_snd]
    exact List.nodup_range'
  refine (hzip.filter _).map ?_
  rintro ⟨s, i⟩ ⟨t, j⟩ heq
  simp only [Prod.mk.injEq, Address.mk.injEq] at heq
  rw [heq.2, heq.1.2.2.2]

/-- What is collected under different indices is different. -/
theorem pairwise_zipIdx {α β : Type} {l : List α} {f : α × ℕ → List β} (key : β → ℕ)
    (h : ∀ p, ∀ x ∈ f p, key x = p.2) : l.zipIdx.Pairwise (Function.onFun List.Disjoint f) := by
  have hne : l.zipIdx.Pairwise fun p q => p.2 ≠ q.2 := by
    rw [← List.pairwise_map, List.zipIdx_map_snd]
    exact List.nodup_range'
  refine hne.imp fun hpq x hx hx' => hpq ?_
  rw [← h _ x hx, ← h _ x hx']

theorem nodup_refs (rowGroups : List RowGroupMetadata) : (refs rowGroups).Nodup := by
  rw [refs, List.nodup_flatMap]
  refine ⟨fun rg _ => ?_, ?_⟩
  · rw [List.nodup_flatMap]
    refine ⟨fun col _ => ?_, ?_⟩
    · have hdisjoint : ∀ {k k' : Kind} {l l' : List Segment}, k ≠ k' →
          (segmentRefs rg.2 col.2 k l).Disjoint (segmentRefs rg.2 col.2 k' l') := by
        intro k k' l l' hk x hx hx'
        exact hk ((mem_segmentRefs.mp hx).2.2.1.symm.trans (mem_segmentRefs.mp hx').2.2.1)
      simp only [List.nodup_append', List.disjoint_append_left]
      exact ⟨⟨⟨nodup_segmentRefs _ _ _ _, nodup_segmentRefs _ _ _ _, hdisjoint (by decide)⟩,
        nodup_segmentRefs _ _ _ _, hdisjoint (by decide), hdisjoint (by decide)⟩,
        nodup_segmentRefs _ _ _ _, ⟨hdisjoint (by decide), hdisjoint (by decide)⟩,
        hdisjoint (by decide)⟩
    · exact pairwise_zipIdx (fun x => x.1.column) fun _ x hx => (mem_columnRefs.mp hx).2.1
  · refine pairwise_zipIdx (fun x => x.1.rowGroup) fun _ x hx => ?_
    obtain ⟨col, -, hx⟩ := List.mem_flatMap.mp hx
    exact (mem_columnRefs.mp hx).1

/-- A pointer is there once. -/
theorem nodup_addresses {l : List (Address × Segment)} (h : l.Perm (refs rowGroups)) :
    (l.map Prod.fst).Nodup := by
  refine ((nodup_refs rowGroups).perm h.symm).map_on ?_
  rintro ⟨a, s⟩ hs ⟨b, t⟩ ht rfl
  have hs' := (mem_refs.mp (h.mem_iff.mp hs)).1
  have ht' := (mem_refs.mp (h.mem_iff.mp ht)).1
  rw [Option.some.inj (hs'.symm.trans ht')]

/-! ## The stores -/

theorem segmentAt_mapSegments (f : Address → Segment → Segment) (a : Address) :
    segmentAt (mapSegments f rowGroups) a = (segmentAt rowGroups a).map (f a) := by
  obtain ⟨r, c, k, i⟩ := a
  simp only [segmentAt, mapSegments, List.getElem?_mapIdx]
  cases rowGroups[r]? with
  | none => rfl
  | some rg =>
    simp only [Option.map_some, Option.bind_some, List.getElem?_mapIdx]
    cases rg.columns[c]? with
    | none => rfl
    | some col => cases k <;> simp [ColumnMetadata.segments]

theorem map_fst_sizes (blockSize : ℕ) (l : List (Address × Segment)) :
    (sizes blockSize l).map Prod.fst = l.map Prod.fst := by
  induction l with
  | nil => rfl
  | cons x l ih => rw [sizes, List.map_cons, List.map_cons, ih]

theorem mem_sizes (blockSize : ℕ) {l : List (Address × Segment)}
    (pre rest : List (Address × Segment)) (h : l = pre ++ (a, s) :: rest) :
    (a, subSize (endOf blockSize s rest.head?) s.blockOffset) ∈ sizes blockSize l := by
  subst h
  induction pre with
  | nil => exact List.mem_cons_self
  | cons x pre ih => exact List.mem_cons_of_mem _ ih

variable {pre rest : List (Address × Segment)}

/-- The size that is stored for a segment, by what follows it in the sorted list. -/
theorem segmentAt_compute {sort : List (Address × Segment) → List (Address × Segment)}
    (hsort : IsSort sort) {blockSize : ℕ} (h : segmentAt rowGroups a = some s)
    (hl : sort (refs rowGroups) = pre ++ (a, s) :: rest) :
    segmentAt (computeSegmentBytesSize sort rowGroups blockSize) a =
      some { s with bytesSize := subSize (endOf blockSize s rest.head?) s.blockOffset } := by
  have hlookup := lookup_of_nodup
    (by rw [map_fst_sizes]; exact nodup_addresses (hsort (refs rowGroups)).1)
    (mem_sizes blockSize pre rest hl)
  rw [computeSegmentBytesSize, segmentAt_mapSegments, h, Option.map_some, hlookup]

/-! ## The ranges -/

theorem subSize_of_le {a b : ℕ} (h : b ≤ a) (ha : a < 2 ^ 64) : subSize a b = a - b := by
  rw [subSize, show a + 2 ^ 64 - b = a - b + 2 ^ 64 by omega, Nat.add_mod_right,
    Nat.mod_eq_of_lt (by omega)]

/-- What is not less comes no earlier in the block. -/
theorem not_less {x y : Address × Segment} :
    ¬ less y x ↔ x.2.blockId < y.2.blockId ∨
      x.2.blockId = y.2.blockId ∧ x.2.blockOffset ≤ y.2.blockOffset := by
  rw [less]
  split_ifs <;> omega

/-- A descriptor in the sorted list: what is before it is not behind it in the block, and what is
    after it is not before the next. -/
structure Placed (rowGroups : List RowGroupMetadata)
    (sort : List (Address × Segment) → List (Address × Segment)) (a : Address) (s : Segment)
    (pre rest : List (Address × Segment)) : Prop where
  eq : sort (refs rowGroups) = pre ++ (a, s) :: rest
  before : ∀ x ∈ pre, ¬ less (a, s) x
  next : ∀ x ∈ rest, ¬ less x (a, s)
  after : ∀ y ∈ rest.head?, ∀ x ∈ rest, x = y ∨ ¬ less x y

theorem Placed.of_eq {sort : List (Address × Segment) → List (Address × Segment)}
    (hsort : IsSort sort) (heq : sort (refs rowGroups) = pre ++ (a, s) :: rest) :
    Placed rowGroups sort a s pre rest := by
  have hsorted := (hsort (refs rowGroups)).2
  rw [heq, List.pairwise_append, List.pairwise_cons] at hsorted
  obtain ⟨-, ⟨hnext, hrest⟩, hbefore⟩ := hsorted
  refine ⟨heq, fun x hx => hbefore x hx _ List.mem_cons_self, hnext, ?_⟩
  intro y hy x hx
  cases rest with
  | nil => cases hy
  | cons z rest =>
    cases hy
    rcases List.mem_cons.mp hx with rfl | hx
    · exact .inl rfl
    · exact .inr ((List.pairwise_cons.mp hrest).1 x hx)

theorem exists_placed {sort : List (Address × Segment) → List (Address × Segment)}
    (hsort : IsSort sort) (h : Described rowGroups a s) :
    ∃ pre rest, Placed rowGroups sort a s pre rest := by
  have hmem := (hsort (refs rowGroups)).1.mem_iff.mpr (mem_refs.mpr h)
  obtain ⟨pre, rest, heq⟩ := List.append_of_mem hmem
  exact ⟨pre, rest, .of_eq hsort heq⟩

/-- A described segment is somewhere in the sorted list. -/
theorem Placed.mem {sort : List (Address × Segment) → List (Address × Segment)}
    (hsort : IsSort sort) (h : Placed rowGroups sort a s pre rest) (ht : Described rowGroups b t) :
    (b, t) ∈ pre ∨ (b, t) = (a, s) ∨ (b, t) ∈ rest := by
  have hmem := (hsort (refs rowGroups)).1.mem_iff.mpr (mem_refs.mpr ht)
  rw [h.eq] at hmem
  simpa using hmem

theorem Placed.described {sort : List (Address × Segment) → List (Address × Segment)}
    (hsort : IsSort sort) (h : Placed rowGroups sort a s pre rest) {x : Address × Segment}
    (hx : x ∈ pre ∨ x ∈ rest) : Described rowGroups x.1 x.2 := by
  refine mem_refs.mp ((hsort (refs rowGroups)).1.mem_iff.mp ?_)
  rw [h.eq]
  simp only [List.mem_append, List.mem_cons]
  tauto

variable {sort : List (Address × Segment) → List (Address × Segment)} {blockSize : ℕ}
  {length : ℤ → ℕ → ℕ}

/-- The range of a segment that is described once. -/
theorem endOf_right (hsort : IsSort sort) (hstored : Stored rowGroups blockSize length)
    (honce : DescribedOnce rowGroups) (hs : Described rowGroups a s)
    (h : Placed rowGroups sort a s pre rest) :
    s.blockOffset + length s.blockId s.blockOffset ≤ endOf blockSize s rest.head? ∧
      endOf blockSize s rest.head? ≤ blockSize ∧
      ∀ b t, Described rowGroups b t → t.blockId = s.blockId → s.blockOffset < t.blockOffset →
        endOf blockSize s rest.head? ≤ t.blockOffset := by
  have hinside := hstored.inside a s hs
  -- what is after `s` in its block is in `rest`
  have hrest : ∀ b t, Described rowGroups b t → t.blockId = s.blockId →
      s.blockOffset < t.blockOffset → (b, t) ∈ rest := by
    intro b t ht hid hlt
    rcases h.mem hsort ht with hpre | heq | hmem
    · have := not_less.mp (h.before _ hpre)
      dsimp only at this
      omega
    · rw [(Prod.mk.inj heq).2] at hlt
      exact absurd hlt (lt_irrefl _)
    · exact hmem
  cases rest with
  | nil => exact ⟨hinside, le_rfl, fun b t ht hid hlt => nomatch hrest b t ht hid hlt⟩
  | cons y rest =>
    have hy := not_less.mp (h.next y List.mem_cons_self)
    have hdescribed := h.described hsort (.inr List.mem_cons_self : y ∈ pre ∨ y ∈ y :: rest)
    have hafter : ∀ b t, Described rowGroups b t → t.blockId = s.blockId →
        s.blockOffset < t.blockOffset → y.2.blockId < t.blockId ∨
          y.2.blockId = t.blockId ∧ y.2.blockOffset ≤ t.blockOffset := by
      intro b t ht hid hlt
      rcases h.after y rfl (b, t) (hrest b t ht hid hlt) with rfl | hyt
      · exact .inr ⟨rfl, le_rfl⟩
      · exact not_less.mp hyt
    rw [List.head?_cons, endOf]
    dsimp only at hy
    split_ifs with hblock
    · refine ⟨hinside, le_rfl, fun b t ht hid hlt => ?_⟩
      have := hafter b t ht hid hlt
      omega
    · rw [not_not] at hblock
      have hne : s.blockOffset ≠ y.2.blockOffset := by
        intro heq
        have haddress := honce a s y.1 y.2 hs hdescribed hblock.symm heq
        have hnodup := nodup_addresses (hsort (refs rowGroups)).1
        rw [h.eq, List.map_append, List.nodup_append', List.map_cons, List.nodup_cons] at hnodup
        exact hnodup.2.1.1 (List.mem_map.mpr ⟨y, List.mem_cons_self, haddress.symm⟩)
      have hpos := hstored.pos _ _ hdescribed
      refine ⟨?_, ?_, fun b t ht hid hlt => ?_⟩
      · rcases hstored.disjoint a s y.1 y.2 hs hdescribed hblock.symm hne with hle | hle
        · exact hle
        · omega
      · have := hstored.inside _ _ hdescribed
        omega
      · have := hafter b t ht hid hlt
        omega

/-- Of two descriptors of a segment, the one that is sorted first has size zero. -/
theorem endOf_twice (h : Placed rowGroups sort a s pre rest) (hb : (b, t) ∈ rest)
    (hid : s.blockId = t.blockId) (hoffset : s.blockOffset = t.blockOffset) :
    endOf blockSize s rest.head? = s.blockOffset := by
  cases rest with
  | nil => cases hb
  | cons y rest =>
    have hy := not_less.mp (h.next y List.mem_cons_self)
    rw [List.head?_cons, endOf]
    rcases h.after y rfl (b, t) hb with rfl | hyt
    · rw [if_neg (by simp [hid]), hoffset]
    · have hyt := not_less.mp hyt
      dsimp only at hy hyt
      rw [if_neg (by omega)]
      omega

/-- Of two descriptors of one segment, the one that is sorted first has a range of size zero. -/
theorem ne_of_placed (hsize : blockSize < 2 ^ 64) (hsort : IsSort sort)
    (hstored : Stored rowGroups blockSize length)
    (hright : SizesRight rowGroups (computeSegmentBytesSize sort rowGroups blockSize) blockSize
      length) (hs : Described rowGroups a s)
    (h : Placed rowGroups sort a s pre rest) (hb : (b, t) ∈ rest) (hid : s.blockId = t.blockId) :
    s.blockOffset ≠ t.blockOffset := by
  intro hoffset
  obtain ⟨n, hn, -, hlength, -⟩ := hright a s hs
  have hpos := hstored.pos a s hs
  have hinside := hstored.inside a s hs
  rw [segmentAt_compute hsort hs.1 h.eq, endOf_twice h hb hid hoffset,
    subSize_of_le le_rfl (by omega), Nat.sub_self] at hn
  have : 0 = n := congrArg Segment.bytesSize (Option.some.inj hn)
  omega

theorem describedOnce_of_sizesRight (hsort : IsSort sort) (hsize : blockSize < 2 ^ 64)
    (hstored : Stored rowGroups blockSize length)
    (hright : SizesRight rowGroups (computeSegmentBytesSize sort rowGroups blockSize) blockSize
      length) : DescribedOnce rowGroups := by
  intro a s b t hs ht hid hoffset
  obtain ⟨pre, rest, h⟩ := exists_placed hsort hs
  rcases h.mem hsort ht with hpre | heq | hrest
  · obtain ⟨pre', mid, rfl⟩ := List.append_of_mem hpre
    have heq := h.eq
    rw [List.append_assoc, List.cons_append] at heq
    have hmem : (a, s) ∈ mid ++ (a, s) :: rest := by simp
    exact absurd hoffset.symm
      (ne_of_placed hsize hsort hstored hright ht (.of_eq hsort heq) hmem hid.symm)
  · exact (Prod.mk.inj heq).1.symm
  · exact absurd hoffset (ne_of_placed hsize hsort hstored hright hs h hrest hid)

theorem sizesRight_of_describedOnce (hsort : IsSort sort) (hsize : blockSize < 2 ^ 64)
    (hstored : Stored rowGroups blockSize length) (honce : DescribedOnce rowGroups) :
    SizesRight rowGroups (computeSegmentBytesSize sort rowGroups blockSize) blockSize length := by
  intro a s hs
  obtain ⟨pre, rest, h⟩ := exists_placed hsort hs
  obtain ⟨hlow, hhigh, hnext⟩ := endOf_right hsort hstored honce hs h
  refine ⟨_, segmentAt_compute hsort hs.1 h.eq, ?_⟩
  rw [subSize_of_le (by omega) (by omega)]
  refine ⟨by omega, by omega, fun b t ht hid hlt => ?_⟩
  have := hnext b t ht hid hlt
  omega

/-- **When the inferred ranges are right.** However equal elements are sorted, every persistent
    descriptor has a range in its block that contains its stored segment and does not reach into the
    next one, if and only if no stored segment is described twice. -/
theorem sizes_right_iff (hsort : IsSort sort) (hsize : blockSize < 2 ^ 64)
    (hstored : Stored rowGroups blockSize length) :
    SizesRight rowGroups (computeSegmentBytesSize sort rowGroups blockSize) blockSize length ↔
      DescribedOnce rowGroups :=
  ⟨describedOnce_of_sizesRight hsort hsize hstored,
    sizesRight_of_describedOnce hsort hsize hstored⟩

/-- The sort by insertion. -/
def insertionSort (l : List (Address × Segment)) : List (Address × Segment) :=
  l.insertionSort fun a b => ¬ less b a

theorem isSort_insertionSort : IsSort insertionSort := by
  have htotal : Std.Total fun a b : Address × Segment => ¬ less b a :=
    ⟨fun a b => by
      rw [not_less, not_less]
      omega⟩
  have htrans : IsTrans (Address × Segment) fun a b => ¬ less b a :=
    ⟨fun a b c hab hbc => by
      rw [not_less] at hab hbc ⊢
      omega⟩
  exact fun l => ⟨List.perm_insertionSort _ l, List.pairwise_insertionSort _ l⟩

/-- Two segments of a block, and a column whose data is in another block. -/
def twoBlocks : List RowGroupMetadata :=
  [{ columns :=
      [{ dataSegments := [{ blockId := 3, blockOffset := 40 }],
         validitySegments :=
           [{ blockId := 3, blockOffset := 8 }, { blockId := -1, blockOffset := 0 }] },
       { dataSegments := [{ blockId := 2, blockOffset := 0 }] }] }]

/-- A column that is projected twice. -/
def projectedTwice : List RowGroupMetadata :=
  let column : ColumnMetadata := { dataSegments := [{ blockId := 3, blockOffset := 8 }] }
  [{ columns := [column, column] }]

/-- Whatever holds of the described segments holds of the collected ones, and conversely. -/
theorem forall_described {p : Address → Segment → Prop} :
    (∀ a s, Described rowGroups a s → p a s) ↔ ∀ x ∈ refs rowGroups, p x.1 x.2 :=
  ⟨fun h x hx => h x.1 x.2 (mem_refs.mp hx), fun h a s hs => h (a, s) (mem_refs.mpr hs)⟩

theorem stored_of_refs
    (h : ∀ x ∈ refs rowGroups,
      (x.2.blockOffset + length x.2.blockId x.2.blockOffset ≤ blockSize ∧
        0 < length x.2.blockId x.2.blockOffset) ∧
      ∀ y ∈ refs rowGroups, x.2.blockId = y.2.blockId → x.2.blockOffset ≠ y.2.blockOffset →
        x.2.blockOffset + length x.2.blockId x.2.blockOffset ≤ y.2.blockOffset ∨
          y.2.blockOffset + length y.2.blockId y.2.blockOffset ≤ x.2.blockOffset) :
    Stored rowGroups blockSize length where
  inside := forall_described.mpr fun x hx => (h x hx).1.1
  pos := forall_described.mpr fun x hx => (h x hx).1.2
  disjoint a s b t hs ht := (h (a, s) (mem_refs.mpr hs)).2 (b, t) (mem_refs.mpr ht)

theorem sizes_right_iff_twoBlocks :
    SizesRight twoBlocks (computeSegmentBytesSize insertionSort twoBlocks 256) 256 (fun _ _ => 16) ∧
      DescribedOnce twoBlocks := by
  have hstored : Stored twoBlocks 256 (fun _ _ => 16) := stored_of_refs (by decide)
  have honce : DescribedOnce twoBlocks := by
    intro a s b t hs ht
    have hrefs : ∀ x ∈ refs twoBlocks, ∀ y ∈ refs twoBlocks, x.2.blockId = y.2.blockId →
        x.2.blockOffset = y.2.blockOffset → x.1 = y.1 := by
      decide
    exact hrefs (a, s) (mem_refs.mpr hs) (b, t) (mem_refs.mpr ht)
  exact ⟨(sizes_right_iff isSort_insertionSort (by norm_num) hstored).mpr honce, honce⟩

/-- The first of the two descriptors has a range without bytes. -/
theorem sizes_wrong_projectedTwice :
    Stored projectedTwice 256 (fun _ _ => 16) ∧
      (segmentAt (computeSegmentBytesSize insertionSort projectedTwice 256) ⟨0, 0, .data, 0⟩ =
        some { blockId := 3, blockOffset := 8, bytesSize := 0 }) ∧
      ∀ sort, IsSort sort → ¬ SizesRight projectedTwice
        (computeSegmentBytesSize sort projectedTwice 256) 256 (fun _ _ => 16) := by
  have hstored : Stored projectedTwice 256 (fun _ _ => 16) := stored_of_refs (by decide)
  refine ⟨hstored, by decide, fun sort hsort hright => ?_⟩
  have honce := describedOnce_of_sizesRight hsort (by norm_num) hstored hright
  have hsame := honce ⟨0, 0, .data, 0⟩ { blockId := 3, blockOffset := 8 } ⟨0, 1, .data, 0⟩
    { blockId := 3, blockOffset := 8 } ⟨rfl, by decide⟩ ⟨rfl, by decide⟩ rfl rfl
  exact absurd hsame (by decide)

end Sirius.Scan.NativeSegments
