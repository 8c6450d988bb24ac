import Sirius.Compression.HplnRoundTrip

/-!
# Reading a compressed table back

The model of `rep_from_leaf_desc`, `reconstruct_from_records` and
`read_compressed_table`
(src/compression/simpatico_codegen/src/api/compressed_table_io.cpp:246-322, 663-845):
what the reader allocates and what it copies there. `reconstruct_representation` and
the steps on a whole plan tree (`compute_input_sources`, the dictionary hints) only
accept or refuse what they are given, and are parameters.

* `fetches_in_payload`: every copy of an accepted file lies inside its payload.
* `read_safe_iff`: when every destination holds what is copied into it, and every mask a
  bit for each row.
-/

namespace Sirius.Compression.Hpln

open Sirius.Common Sirius.Common.Wire

/-! ## Model -/

/-- A copy out of the payload, and the size of the device buffer it goes to. -/
structure Copy where
  offset : UInt64
  size : UInt64
  allocated : ℕ
  deriving DecidableEq, Repr

/-- `make_col` (compressed_table_io.cpp:260-275). `make_fixed_width_column` throws on a
type without a fixed width and on a negative size. -/
def makeCol (cudf : Cudf) (bd : LeafBufferDesc) (offset : UInt64) : Except HplnError Copy :=
  match cudf.sizeOf (tagToDtype bd.typeTag).id with
  | none => .error .thrown
  | some width =>
    let rows := bd.numRows.toUInt32.toInt32
    if rows < 0 then .error .thrown
    else .ok ⟨offset, bd.sizeBytes, rows.toInt.toNat * width⟩

/-- The kinds that are rebuilt as a fused representation
(compressed_table_io.cpp:293-300). -/
def LeafDesc.fused (ld : LeafDesc) : Bool :=
  ld.kind.code ∈ [1, 2, 6, 15, 4] ||
    (ld.kind.code == 5 && ld.buffers.map LeafBufferDesc.name != [[100, 97, 116, 97]])

/-- The columns of a leaf, one for each of its buffers. -/
def makeCols (cudf : Cudf) (ld : LeafDesc) (offsets : List UInt64) :
    Except HplnError (List Copy) :=
  (ld.buffers.zip offsets).mapM fun b => makeCol cudf b.1 b.2

section Reader

variable (cudf : Cudf) (major : UInt8) (rebuild : LeafDesc → Bool) (finish : ColRecord → Bool)

/-- `rep_from_leaf_desc` (compressed_table_io.cpp:246-322); `rebuild` is whether
`reconstruct_representation` returns a representation. -/
def repFromLeafDesc (ld : LeafDesc) (offsets : List UInt64) : Except HplnError (List Copy) :=
  if ld.fused then makeCols cudf ld offsets
  else if ld.kind.code = 255 then .error (.bad "rep_from_leaf_desc: unknown leaf kind in file")
  else do
    let copies ← makeCols cudf ld offsets
    if rebuild ld then .ok copies else .error (.bad "rep_from_leaf_desc")

/-- The slot of a leaf names its node's own representation or one of its outputs
(compressed_table_io.cpp:731-738). -/
def slotOk (node : PlanNode) (slot : Int32) : Bool :=
  slot == -1 || (decide (0 ≤ slot) && decide (slot.toInt.toNat < node.outputPaths.length))

/-- One leaf of a column (compressed_table_io.cpp:713-739). -/
def reconstructLeaf (r : ColRecord) (l : LeafDesc × List UInt64) :
    Except HplnError (List Copy) :=
  match r.nodes[l.1.nodeIndex.toNat]? with
  | none => .error (.bad "leaf node_index out of range in col")
  | some node => do
    let copies ← repFromLeafDesc cudf rebuild l.1 l.2
    if slotOk node l.1.slot then .ok copies else .error (.bad "leaf slot out of range in col")

/-- What a column's reconstruction copies. -/
structure ColumnRead where
  rows : Int64
  mask : Option Copy
  leaves : List (List Copy)
  deriving DecidableEq, Repr

/-- One column of `reconstruct_from_records` (compressed_table_io.cpp:679-751); `finish`
is whether `compute_input_sources` and the dictionary hints accept the tree. -/
def reconstructColumn (r : ColRecord) : Except HplnError ColumnRead :=
  if r.nodes = [] then .ok ⟨r.numRows, none, []⟩
  else do
    let mask : Option Copy :=
      if r.validity.kind = .mask then
        some ⟨r.validity.payloadOffset, r.validity.sizeBytes, r.validity.sizeBytes.toNat⟩
      else none
    let leaves ← (r.leafDescs.zip r.bufOffsets).mapM (reconstructLeaf cudf rebuild r)
    if finish r then .ok ⟨r.numRows, mask, leaves⟩ else .error (.bad "in col")

/-- `in_payload` (compressed_table_io.cpp:813-819). -/
def inPayload (total : ℕ) (offset size : UInt64) : Bool :=
  size == 0 || (decide (offset.toNat ≤ total) && decide (size.toNat ≤ total - offset.toNat))

/-- The check of a column's buffers (compressed_table_io.cpp:820-832). -/
def boundsOk (total : ℕ) (r : ColRecord) : Bool :=
  (r.validity.kind != .mask || inPayload total r.validity.payloadOffset r.validity.sizeBytes) &&
    (r.leafDescs.zip r.bufOffsets).all fun l =>
      (l.1.buffers.zip l.2).all fun b => inPayload total b.2 b.1.sizeBytes

/-- `read_compressed_table` (compressed_table_io.cpp:783-845), on the bytes of the file. -/
def readCompressedTable (raw : List UInt8) : Except HplnError (List ColumnRead) := do
  let (recs, payload) ← (parseHplnHeader cudf major).run raw
  if !recs.all (boundsOk payload.length) then .error (.bad "payload out of bounds")
  else recs.mapM (reconstructColumn cudf rebuild finish)

end Reader

/-! ## Specification -/

/-- The copy lies inside a payload of `total` bytes. -/
def Copy.InPayload (total : ℕ) (c : Copy) : Prop :=
  c.size = 0 ∨ c.offset.toNat + c.size.toNat ≤ total

/-- The destination of the copy holds it. -/
def Copy.Holds (c : Copy) : Prop := c.size.toNat ≤ c.allocated

/-- What must hold of a column read out of a payload of `total` bytes. -/
structure ColumnRead.Safe (total : ℕ) (c : ColumnRead) : Prop where
  leaves_in : ∀ l ∈ c.leaves, ∀ b ∈ l, b.InPayload total
  leaves_hold : ∀ l ∈ c.leaves, ∀ b ∈ l, b.Holds
  mask_in : ∀ m, c.mask = some m → m.InPayload total
  mask_holds : ∀ m, c.mask = some m → m.Holds
  mask_bits : ∀ m, c.mask = some m → c.rows.toInt ≤ 8 * m.allocated

/-- A leaf buffer that the header declares: whole elements of its type, as many as a
`cudf::size_type` counts. -/
def LeafBufferDesc.Whole (cudf : Cudf) (bd : LeafBufferDesc) : Prop :=
  ∀ width, cudf.sizeOf (tagToDtype bd.typeTag).id = some width →
    width ∣ bd.sizeBytes.toNat ∧ bd.sizeBytes.toNat / width < 2 ^ 31

/-- What the header must declare of a column with a plan. -/
structure ColRecord.Declares (cudf : Cudf) (r : ColRecord) : Prop where
  buffers : ∀ l ∈ r.leafDescs, ∀ b ∈ l.buffers, b.Whole cudf
  mask : r.validity.kind = .mask →
    r.numRows.toInt < 2 ^ 31 ∨ r.numRows.toInt ≤ 8 * r.validity.sizeBytes.toNat

/-! ## What a parse declares -/

/-- The elements of a parsed buffer are its bytes by the width of its type, rounded
down. -/
def LeafBufferDesc.Counted (cudf : Cudf) (bd : LeafBufferDesc) : Prop :=
  if 0 < bd.sizeBytes ∧ bd.typeTag < 255 then
    ∃ width, cudf.sizeOf (tagToDtype bd.typeTag).id = some width ∧
      bd.numRows = bd.sizeBytes / UInt64.ofNat width
  else bd.numRows = 0

/-- The shape of a parsed column: an offset for each buffer, counted buffers, and a
validity that passed the check. -/
structure ColRecord.Parsed (cudf : Cudf) (r : ColRecord) : Prop where
  offsets : List.Forall₂ (fun l os => l.buffers.length = os.length) r.leafDescs r.bufOffsets
  counted : ∀ l ∈ r.leafDescs, ∀ b ∈ l.buffers, b.Counted cudf
  validity : validityError cudf r.numRows r.validity = none

section Parsed

variable {cudf : Cudf} {major : UInt8}

theorem bufferRows_yields (tag : UInt8) (size : UInt64) (name : Str) :
    Yields (bufferRows cudf tag size) fun rows =>
      LeafBufferDesc.Counted cudf ⟨name, tag, rows, size⟩ := by
  unfold bufferRows LeafBufferDesc.Counted
  split_ifs with h
  · cases hwidth : cudf.sizeOf (tagToDtype tag).id with
    | none => exact Yields.throw _
    | some width => exact Yields.pure ⟨width, hwidth, rfl⟩
  · exact Yields.pure rfl

theorem readBuffer_counted : Yields (readBuffer cudf) fun b => b.1.Counted cudf :=
  (Yields.true _).bind fun name _ => (Yields.true _).bind fun tag _ =>
    (Yields.true _).bind fun size _ => (Yields.true _).bind fun _ _ =>
      (bufferRows_yields tag size name).bind fun _ hrows => Yields.pure hrows

theorem readLeaf_parsed : Yields (readLeaf cudf major) fun l =>
    l.1.buffers.length = l.2.length ∧ ∀ b ∈ l.1.buffers, b.Counted cudf := by
  refine (Yields.true _).bind fun nodeIndex _ => (Yields.true _).bind fun slot _ => ?_
  refine (Yields.true _).bind fun kind _ => (Yields.true _).bind fun typeTag _ => ?_
  refine (Yields.true _).bind fun numRows _ => (Yields.true _).bind fun metadata _ => ?_
  refine (Yields.true _).bind fun _ _ => (Yields.true _).bind fun nb _ => ?_
  refine (readBuffer_counted.readN nb.toNat).bind fun buffers hbuffers => Yields.pure ⟨?_, ?_⟩
  · simp only [List.length_map]
  · intro b hb
    obtain ⟨e, he, rfl⟩ := List.mem_map.mp hb
    exact hbuffers.2 e he

theorem readColumn_parsed : Yields (readColumn cudf major) fun r => r.Parsed cudf := by
  refine (Yields.true _).bind fun name _ => (Yields.true _).bind fun tag _ => ?_
  refine (Yields.true _).bind fun scale _ => (Yields.true _).bind fun numRows _ => ?_
  refine (Yields.true _).bind fun validity _ => (check_yields _).bind fun _ hvalidity => ?_
  refine (Yields.true _).bind fun nn _ => (Yields.true _).bind fun nodes _ => ?_
  refine (Yields.true _).bind fun nl _ => ?_
  refine (readLeaf_parsed.readN nl.toNat).bind fun leaves hleaves => Yields.pure ⟨?_, ?_, hvalidity⟩
  · rw [List.forall₂_map_left_iff, List.forall₂_map_right_iff, List.forall₂_same]
    exact fun l hl => (hleaves.2 l hl).1
  · intro l hl
    obtain ⟨e, he, rfl⟩ := List.mem_map.mp hl
    exact (hleaves.2 e he).2

/-- Whatever the bytes, the records a parse returns have this shape. -/
theorem parse_parsed : Yields (parseHplnHeader cudf major) fun rs =>
    ∀ r ∈ rs, r.Parsed cudf := by
  refine (Yields.true _).bind fun m _ => (Yields.true _).bind fun _ _ => ?_
  refine (Yields.true _).bind fun ver _ => (Yields.true _).bind fun _ _ => ?_
  refine (Yields.true _).bind fun numCols _ => ?_
  exact (readColumn_parsed.readN numCols.toNat).mono fun rs hrs => hrs.2

end Parsed

/-! ## One buffer -/

theorem toInt32_of_nonneg {x : UInt32} (h : ¬x.toInt32 < 0) :
    x.toInt32.toInt.toNat = x.toNat ∧ x.toNat < 2 ^ 31 := by
  rw [Int32.lt_iff_toInt_lt, Int32.toInt_zero, not_lt] at h
  have hbv : 0 ≤ x.toBitVec.toInt := h
  have heq := BitVec.toInt_eq_toNat_cond x.toBitVec
  have hint : x.toInt32.toInt = x.toBitVec.toInt := rfl
  have hnat : x.toNat = x.toBitVec.toNat := rfl
  have hlt := x.toBitVec.isLt
  split_ifs at heq <;> omega

/-- The rows a column is allocated for, of a parsed buffer of `size` bytes: the elements
that fit, cast to `cudf::size_type`. -/
theorem makeCol_allocated {cudf : Cudf} {bd : LeafBufferDesc} (hbd : bd.Counted cudf)
    {offset : UInt64} {c : Copy} (h : makeCol cudf bd offset = .ok c) :
    ∃ width, cudf.sizeOf (tagToDtype bd.typeTag).id = some width ∧
      c = ⟨offset, bd.sizeBytes, bd.sizeBytes.toNat / width % 2 ^ 32 * width⟩ ∧
      bd.sizeBytes.toNat / width % 2 ^ 32 < 2 ^ 31 := by
  unfold makeCol at h
  cases hwidth : cudf.sizeOf (tagToDtype bd.typeTag).id with
  | none => rw [hwidth] at h; cases h
  | some width =>
    rw [hwidth] at h
    simp only [ite_error_eq_ok, Except.ok.injEq] at h
    obtain ⟨hsign, rfl⟩ := h
    obtain ⟨hrows, hlt⟩ := toInt32_of_nonneg hsign
    have hpos := cudf.sizeOf_pos _ _ hwidth
    have hle := cudf.sizeOf_le _ _ hwidth
    have hwidthNat : (UInt64.ofNat width).toNat = width := by
      rw [UInt64.toNat_ofNat']
      omega
    have hcount : bd.numRows.toNat = bd.sizeBytes.toNat / width := by
      unfold LeafBufferDesc.Counted at hbd
      split_ifs at hbd with hcase
      · obtain ⟨width', hwidth', hnum⟩ := hbd
        obtain rfl : width = width' := by
          rw [hwidth] at hwidth'
          exact Option.some.inj hwidth'
        rw [hnum, UInt64.toNat_div, hwidthNat]
      · have hzero : bd.sizeBytes.toNat = 0 := by
          by_contra hne
          have hsize : 0 < bd.sizeBytes := by
            rw [UInt64.lt_iff_toNat_lt]
            exact Nat.pos_of_ne_zero hne
          have htag : bd.typeTag = 255 := by
            have hge : ¬bd.typeTag < 255 := fun ht => hcase ⟨hsize, ht⟩
            apply UInt8.toNat_inj.mp
            rw [UInt8.lt_iff_toNat_lt] at hge
            have hmax := bd.typeTag.toNat_lt
            have h255 : (255 : UInt8).toNat = 255 := rfl
            omega
          rw [htag] at hwidth
          exact absurd ((cudf.sizeOf_empty).symm.trans hwidth) (by simp)
        rw [hbd, hzero, Nat.zero_div]
        rfl
    have hcast : bd.numRows.toUInt32.toNat = bd.sizeBytes.toNat / width % 2 ^ 32 := by
      rw [UInt64.toNat_toUInt32, hcount]
    rw [hcast] at hrows hlt
    exact ⟨width, rfl, by rw [hrows], hlt⟩

/-- A column holds its buffer exactly when the buffer is whole. -/
theorem makeCol_holds_iff {cudf : Cudf} {bd : LeafBufferDesc} (hbd : bd.Counted cudf)
    {offset : UInt64} {c : Copy} (h : makeCol cudf bd offset = .ok c) :
    c.Holds ↔ bd.Whole cudf := by
  obtain ⟨width, hwidth, rfl, hlt⟩ := makeCol_allocated hbd h
  have hpos := cudf.sizeOf_pos _ _ hwidth
  have hfloor : bd.sizeBytes.toNat / width * width ≤ bd.sizeBytes.toNat := Nat.div_mul_le_self _ _
  constructor
  · intro hholds width' hwidth'
    obtain rfl : width = width' := Option.some.inj (hwidth.symm.trans hwidth')
    have hholds' : bd.sizeBytes.toNat ≤ bd.sizeBytes.toNat / width % 2 ^ 32 * width := hholds
    have hmod : bd.sizeBytes.toNat / width % 2 ^ 32 ≤ bd.sizeBytes.toNat / width :=
      Nat.mod_le _ _
    have hmul : bd.sizeBytes.toNat / width % 2 ^ 32 * width ≤
        bd.sizeBytes.toNat / width * width := Nat.mul_le_mul_right _ hmod
    have heq : bd.sizeBytes.toNat / width * width = bd.sizeBytes.toNat := by omega
    have hrows : bd.sizeBytes.toNat / width ≤ bd.sizeBytes.toNat / width % 2 ^ 32 :=
      Nat.le_of_mul_le_mul_right (by omega) hpos
    exact ⟨⟨_, by rw [Nat.mul_comm]; exact heq.symm⟩, by omega⟩
  · intro hwhole
    obtain ⟨hdvd, hsmall⟩ := hwhole width hwidth
    show bd.sizeBytes.toNat ≤ bd.sizeBytes.toNat / width % 2 ^ 32 * width
    rw [Nat.mod_eq_of_lt (by omega), Nat.div_mul_cancel hdvd]

/-! ## The mask -/

theorem toNat_toUInt64_of_nonneg {x : Int64} (h : 0 ≤ x.toInt) :
    x.toUInt64.toNat = x.toInt.toNat := by
  have heq := BitVec.toInt_eq_toNat_cond x.toBitVec
  have hint : x.toInt = x.toBitVec.toInt := rfl
  have hnat : x.toUInt64.toNat = x.toBitVec.toNat := rfl
  have hlt := x.toBitVec.isLt
  split_ifs at heq <;> omega

/-- The parser's check of a mask, on a row count that a `cudf::size_type` holds. -/
theorem mask_bits_of_small {cudf : Cudf} {numRows : Int64} {v : ValidityRecord}
    (hkind : v.kind = .mask) (hcheck : validityError cudf numRows v = none)
    (hsmall : numRows.toInt < 2 ^ 31) : numRows.toInt ≤ 8 * v.sizeBytes.toNat := by
  unfold validityError at hcheck
  rw [hkind] at hcheck
  simp only [ite_eq_right_iff, reduceCtorEq, imp_false, not_or] at hcheck
  obtain ⟨hsign, hsize, -⟩ := hcheck
  have hnonneg : 0 ≤ numRows.toInt := by
    rw [Int64.lt_iff_toInt_lt, Int64.toInt_zero] at hsign
    omega
  have hcast : numRows.toInt32.toInt = numRows.toInt := by
    rw [Int64.toInt_toInt32]
    exact Int.bmod_eq_of_le (by norm_num; omega) (by norm_num; omega)
  have hwords := cudf.words_eq numRows.toInt32 (by
    rw [Int32.le_iff_toInt_le, Int32.toInt_zero, hcast]
    exact hnonneg)
  rw [hcast] at hwords
  have hmin : (minMaskBytes cudf numRows).toNat = ((numRows.toInt + 31) / 32).toNat * 4 := by
    rw [minMaskBytes, if_neg hsign, UInt64.toNat_mul]
    have hint : (cudf.numBitmaskWords numRows.toInt32).toInt64.toInt =
        (numRows.toInt + 31) / 32 := by
      rw [Int32.toInt_toInt64, hwords]
    have hnat : ((cudf.numBitmaskWords numRows.toInt32).toInt64.toUInt64).toNat =
        ((numRows.toInt + 31) / 32).toNat := by
      rw [← hint]
      exact toNat_toUInt64_of_nonneg (by rw [hint]; omega)
    rw [hnat]
    have hfour : (4 : UInt64).toNat = 4 := rfl
    rw [hfour]
    omega
  rw [UInt64.lt_iff_toNat_lt, hmin] at hsize
  omega

/-! ## Leaves and columns -/

section Columns

variable {cudf : Cudf} {major : UInt8} {rebuild : LeafDesc → Bool} {finish : ColRecord → Bool}
  {total : ℕ}

theorem exists_mem_zip {α β : Type} {as : List α} {bs : List β} (h : as.length = bs.length) {a : α}
    (ha : a ∈ as) : ∃ b, (a, b) ∈ as.zip bs := by
  obtain ⟨i, hi, rfl⟩ := List.mem_iff_getElem.mp ha
  refine ⟨bs[i], ?_⟩
  rw [List.mem_iff_getElem]
  exact ⟨i, by rw [List.length_zip]; omega, List.getElem_zip⟩

theorem inPayload_sound {offset size : UInt64} (h : inPayload total offset size = true)
    (allocated : ℕ) : Copy.InPayload total ⟨offset, size, allocated⟩ := by
  unfold inPayload at h
  rw [Bool.or_eq_true, Bool.and_eq_true, beq_iff_eq, decide_eq_true_eq, decide_eq_true_eq] at h
  rcases h with h | ⟨hoffset, hsize⟩
  · exact .inl h
  · exact .inr (by simp only; omega)

variable {offsets : List UInt64} {copies : List Copy}

theorem makeCols_in {ld : LeafDesc} (h : makeCols cudf ld offsets = .ok copies)
    (hin : ∀ b ∈ ld.buffers.zip offsets, inPayload total b.2 b.1.sizeBytes = true) :
    ∀ c ∈ copies, c.InPayload total := by
  intro c hc
  obtain ⟨b, hb, hcol⟩ := exists_of_mapM_eq_ok h c hc
  unfold makeCol at hcol
  cases hwidth : cudf.sizeOf (tagToDtype b.1.typeTag).id with
  | none => rw [hwidth] at hcol; cases hcol
  | some width =>
    rw [hwidth] at hcol
    simp only [ite_error_eq_ok, Except.ok.injEq] at hcol
    rw [← hcol.2]
    exact inPayload_sound (hin b hb) _

theorem makeCols_hold_iff {ld : LeafDesc} (hlength : ld.buffers.length = offsets.length)
    (hcounted : ∀ b ∈ ld.buffers, b.Counted cudf) (h : makeCols cudf ld offsets = .ok copies) :
    (∀ c ∈ copies, c.Holds) ↔ ∀ b ∈ ld.buffers, b.Whole cudf := by
  constructor
  · intro hholds b hb
    obtain ⟨offset, hzip⟩ := exists_mem_zip hlength hb
    obtain ⟨c, hc, hcol⟩ := exists_of_mem_mapM h (b, offset) hzip
    exact (makeCol_holds_iff (hcounted b hb) hcol).mp (hholds c hc)
  · intro hwhole c hc
    obtain ⟨b, hb, hcol⟩ := exists_of_mapM_eq_ok h c hc
    have hmem := (List.of_mem_zip hb).1
    exact (makeCol_holds_iff (hcounted b.1 hmem) hcol).mpr (hwhole b.1 hmem)

theorem repFromLeafDesc_cols {ld : LeafDesc}
    (h : repFromLeafDesc cudf rebuild ld offsets = .ok copies) :
    makeCols cudf ld offsets = .ok copies := by
  unfold repFromLeafDesc at h
  by_cases hfused : ld.fused = true
  · rwa [if_pos hfused] at h
  rw [if_neg hfused, ite_error_eq_ok, bind_eq_ok] at h
  obtain ⟨-, cs, hcols, hrebuild⟩ := h
  split_ifs at hrebuild with hb
  obtain ⟨rfl⟩ := hrebuild
  exact hcols

variable {r : ColRecord}

theorem reconstructLeaf_cols {l : LeafDesc × List UInt64}
    (h : reconstructLeaf cudf rebuild r l = .ok copies) : makeCols cudf l.1 l.2 = .ok copies := by
  unfold reconstructLeaf at h
  cases hnode : r.nodes[l.1.nodeIndex.toNat]? with
  | none => rw [hnode] at h; cases h
  | some node =>
    rw [hnode] at h
    simp only [bind_eq_ok] at h
    obtain ⟨cs, hrep, h⟩ := h
    split_ifs at h with hslot
    obtain ⟨rfl⟩ := h
    exact repFromLeafDesc_cols hrep

/-- A column without a plan copies nothing; another its mask and its leaves. -/
theorem reconstructColumn_cases {c : ColumnRead}
    (h : reconstructColumn cudf rebuild finish r = .ok c) :
    (r.nodes = [] ∧ c = ⟨r.numRows, none, []⟩) ∨
    (r.nodes ≠ [] ∧ ∃ leaves,
      (r.leafDescs.zip r.bufOffsets).mapM (reconstructLeaf cudf rebuild r) = .ok leaves ∧
      c = ⟨r.numRows, if r.validity.kind = .mask then
        some ⟨r.validity.payloadOffset, r.validity.sizeBytes, r.validity.sizeBytes.toNat⟩
        else none, leaves⟩) := by
  unfold reconstructColumn at h
  by_cases hnodes : r.nodes = []
  · rw [if_pos hnodes] at h
    exact .inl ⟨hnodes, (Except.ok.inj h).symm⟩
  · rw [if_neg hnodes] at h
    obtain ⟨leaves, hmap, hend⟩ := bind_eq_ok.mp h
    by_cases hfinish : finish r = true
    · rw [if_pos hfinish] at hend
      exact .inr ⟨hnodes, leaves, hmap, (Except.ok.inj hend).symm⟩
    · rw [if_neg hfinish] at hend
      cases hend

/-- A column whose buffers passed the check is copied from inside the payload. -/
theorem reconstructColumn_in {c : ColumnRead} (hbounds : boundsOk total r = true)
    (h : reconstructColumn cudf rebuild finish r = .ok c) :
    (∀ l ∈ c.leaves, ∀ b ∈ l, b.InPayload total) ∧ ∀ m, c.mask = some m → m.InPayload total := by
  unfold boundsOk at hbounds
  rw [Bool.and_eq_true, Bool.or_eq_true, List.all_eq_true] at hbounds
  obtain ⟨hmask, hleaves⟩ := hbounds
  obtain ⟨-, rfl⟩ | ⟨-, leaves, hmap, rfl⟩ := reconstructColumn_cases h
  · exact ⟨by simp, by simp⟩
  · refine ⟨fun copies hcopies => ?_, fun m hm => ?_⟩
    · obtain ⟨l, hl, hleaf⟩ := exists_of_mapM_eq_ok hmap copies hcopies
      have hin := hleaves l hl
      rw [List.all_eq_true] at hin
      exact makeCols_in (reconstructLeaf_cols hleaf) hin
    · simp only at hm
      split_ifs at hm with hkind
      obtain ⟨rfl⟩ := hm
      rcases hmask with hne | hin
      · rw [hkind] at hne
        exact absurd hne (by decide)
      · exact inPayload_sound hin _

/-- The destinations of a column hold what is copied, and its mask a bit for each row,
exactly when the header declares whole buffers and a mask for a row count in range. -/
theorem reconstructColumn_holds_iff {c : ColumnRead} (hparsed : r.Parsed cudf)
    (h : reconstructColumn cudf rebuild finish r = .ok c) :
    ((∀ l ∈ c.leaves, ∀ b ∈ l, b.Holds) ∧ (∀ m, c.mask = some m → m.Holds) ∧
        ∀ m, c.mask = some m → c.rows.toInt ≤ 8 * m.allocated) ↔
      (r.nodes ≠ [] → r.Declares cudf) := by
  obtain ⟨hnodes, rfl⟩ | ⟨hnodes, leaves, hmap, rfl⟩ := reconstructColumn_cases h
  · simp [hnodes]
  have hlengths := hparsed.offsets
  have hleaf : ∀ l ∈ r.leafDescs.zip r.bufOffsets, ∀ copies,
      reconstructLeaf cudf rebuild r l = .ok copies →
      ((∀ b ∈ copies, b.Holds) ↔ ∀ b ∈ l.1.buffers, b.Whole cudf) := by
    intro l hl copies hcopies
    exact makeCols_hold_iff (List.forall₂_zip hlengths hl)
      (hparsed.counted l.1 (List.of_mem_zip hl).1) (reconstructLeaf_cols hcopies)
  constructor
  · rintro ⟨hleaves, -, hbits⟩ -
    refine ⟨fun l hl => ?_, fun hkind => .inr ?_⟩
    · obtain ⟨os, hzip⟩ := exists_mem_zip hlengths.length_eq hl
      obtain ⟨copies, hcopies, hok⟩ := exists_of_mem_mapM hmap (l, os) hzip
      exact (hleaf (l, os) hzip copies hok).mp (hleaves copies hcopies)
    · simp only [if_pos hkind] at hbits
      exact_mod_cast hbits _ rfl
  · intro hdeclares
    obtain ⟨hbuffers, hmask⟩ := hdeclares hnodes
    refine ⟨fun copies hcopies => ?_, fun m hm => ?_, fun m hm => ?_⟩
    · obtain ⟨l, hl, hok⟩ := exists_of_mapM_eq_ok hmap copies hcopies
      exact (hleaf l hl copies hok).mpr (hbuffers l.1 (List.of_mem_zip hl).1)
    · simp only at hm
      split_ifs at hm with hkind
      obtain ⟨rfl⟩ := hm
      exact le_rfl
    · simp only at hm
      split_ifs at hm with hkind
      obtain ⟨rfl⟩ := hm
      rcases hmask hkind with hsmall | hbits
      · exact mask_bits_of_small hkind hparsed.validity hsmall
      · exact hbits

/-- What an accepted file passed: the check of each column, and its reconstruction. -/
theorem readCompressedTable_records {raw payload : List UInt8} {recs : List ColRecord}
    {reads : List ColumnRead} (hparse : (parseHplnHeader cudf major).run raw = .ok (recs, payload))
    (hread : readCompressedTable cudf major rebuild finish raw = .ok reads) :
    (∀ r ∈ recs, boundsOk payload.length r = true) ∧
      recs.mapM (reconstructColumn cudf rebuild finish) = .ok reads := by
  unfold readCompressedTable at hread
  rw [hparse, ok_bind] at hread
  simp only [ite_error_eq_ok, Bool.not_eq_true', Bool.not_eq_false] at hread
  exact ⟨List.all_eq_true.mp hread.1, hread.2⟩

/-- **Every copy of an accepted file lies inside its payload**, whatever its header
declares. -/
theorem fetches_in_payload {raw payload : List UInt8} {recs : List ColRecord}
    {reads : List ColumnRead} (hparse : (parseHplnHeader cudf major).run raw = .ok (recs, payload))
    (hread : readCompressedTable cudf major rebuild finish raw = .ok reads) :
    ∀ c ∈ reads, (∀ l ∈ c.leaves, ∀ b ∈ l, b.InPayload payload.length) ∧
      ∀ m, c.mask = some m → m.InPayload payload.length := by
  obtain ⟨hbounds, hmap⟩ := readCompressedTable_records hparse hread
  intro c hc
  obtain ⟨r, hr, hcolumn⟩ := exists_of_mapM_eq_ok hmap c hc
  exact reconstructColumn_in (hbounds r hr) hcolumn

end Columns

/-- **Reading is safe exactly on headers that declare what they store.** For every byte
string the parser and the reconstruction accept: each fetch lies inside the payload, each
destination holds what is copied into it and each mask a bit for each row, if and only if
the leaf buffers of the columns with a plan are whole and their masks belong to a row count
in range. -/
theorem read_safe_iff (cudf : Cudf) (major : UInt8) (rebuild : LeafDesc → Bool)
    (finish : ColRecord → Bool) (raw payload : List UInt8) (recs : List ColRecord)
    (reads : List ColumnRead) (hparse : (parseHplnHeader cudf major).run raw = .ok (recs, payload))
    (hread : readCompressedTable cudf major rebuild finish raw = .ok reads) :
    (∀ c ∈ reads, c.Safe payload.length) ↔ ∀ r ∈ recs, r.nodes ≠ [] → r.Declares cudf := by
  have hin := fetches_in_payload hparse hread
  have hparsed : ∀ r ∈ recs, r.Parsed cudf := parse_parsed _ _ _ hparse
  obtain ⟨-, hmap⟩ := readCompressedTable_records hparse hread
  constructor
  · intro hsafe r hr
    obtain ⟨c, hc, hcolumn⟩ := exists_of_mem_mapM hmap r hr
    have hsafe := hsafe c hc
    exact (reconstructColumn_holds_iff (hparsed r hr) hcolumn).mp
      ⟨hsafe.leaves_hold, hsafe.mask_holds, hsafe.mask_bits⟩
  · intro hdeclares c hc
    obtain ⟨r, hr, hcolumn⟩ := exists_of_mapM_eq_ok hmap c hc
    obtain ⟨hleaves, hmask⟩ := hin c hc
    obtain ⟨hhold, hmasks, hbits⟩ :=
      (reconstructColumn_holds_iff (hparsed r hr) hcolumn).mpr (hdeclares r hr)
    exact ⟨hleaves, hhold, hmask, hmasks, hbits⟩

/-- A file with one `delta` leaf of `size` bytes of `INT32`. -/
def deltaFile (size : UInt64) (payload : List UInt8) : List UInt8 :=
  magic ++ pushU8 version ++ pushU16 1 ++
    (pushStr16 [97] ++ pushU8 2 ++ pushI32 0 ++ pushI64 1 ++ pushU8 ValidityKind.allValid.code) ++
    pushU16 2 ++ pushNode ⟨[105, 110, 112, 117, 116], none, [⟨[100, 101, 108, 116, 97], 1⟩], [], [],
      none, []⟩ ++
    pushNode ⟨[100, 101, 108, 116, 97], none, [], [], [], none, []⟩ ++ pushU16 1 ++
    pushLeaf ⟨1, -1, ⟨1⟩, 2, 1, .none, [⟨[98], 2, 1, size⟩]⟩ ++
    (pushStr16 [98] ++ pushU8 2 ++ pushU64 size ++ pushU64 0) ++ payload

/-- The record of its column. -/
def deltaRecord (size : UInt64) : ColRecord where
  name := [97]
  dtypeTag := 2
  scale := 0
  numRows := 1
  validity := ⟨.allValid, 0, 0, 0⟩
  nodes := [⟨[105, 110, 112, 117, 116], none, [⟨[100, 101, 108, 116, 97], 1⟩], [], [], none, []⟩,
    ⟨[100, 101, 108, 116, 97], none, [], [], [], none, []⟩]
  leafDescs := [⟨1, -1, ⟨1⟩, 2, 1, .none, [⟨[98], 2, size / 4, size⟩]⟩]
  bufOffsets := [[0]]

set_option maxRecDepth 20000 in
theorem parse_deltaFile :
    (parseHplnHeader standardCudf 5).run (deltaFile 8 [1, 2, 3, 4, 5, 6, 7, 8]) =
      .ok ([deltaRecord 8], [1, 2, 3, 4, 5, 6, 7, 8]) := rfl

theorem read_safe_eight_bytes :
    ∃ reads, readCompressedTable standardCudf 5 (fun _ => true) (fun _ => true)
        (deltaFile 8 [1, 2, 3, 4, 5, 6, 7, 8]) = .ok reads ∧ ∀ c ∈ reads, c.Safe 8 := by
  have hread : readCompressedTable standardCudf 5 (fun _ => true) (fun _ => true)
      (deltaFile 8 [1, 2, 3, 4, 5, 6, 7, 8]) = .ok [⟨1, none, [[⟨0, 8, 8⟩]]⟩] := by
    decide +kernel
  refine ⟨_, hread, (read_safe_iff standardCudf 5 _ _ _ _ _ _ parse_deltaFile hread).mpr ?_⟩
  intro r hr _
  obtain rfl := List.mem_singleton.mp hr
  refine ⟨?_, by simp [deltaRecord]⟩
  intro l hl b hb width hwidth
  obtain rfl := List.mem_singleton.mp hl
  obtain rfl := List.mem_singleton.mp hb
  obtain rfl : 4 = width := Option.some.inj hwidth
  decide

/-- Five bytes of `INT32` are one element: four bytes are allocated and five copied. -/
theorem read_five_bytes :
    ∃ reads, readCompressedTable standardCudf 5 (fun _ => true) (fun _ => true)
        (deltaFile 5 [1, 2, 3, 4, 5]) = .ok reads ∧ ¬∀ c ∈ reads, c.Safe 5 := by
  refine ⟨[⟨1, none, [[⟨0, 5, 4⟩]]⟩], by decide +kernel, fun hsafe => ?_⟩
  have hholds : (⟨0, 5, 4⟩ : Copy).Holds :=
    (hsafe _ List.mem_cons_self).leaves_hold _ List.mem_cons_self _ List.mem_cons_self
  exact absurd hholds (by simp [Copy.Holds])

end Sirius.Compression.Hpln
