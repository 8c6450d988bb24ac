import Sirius.Compression.PlanTree

/-!
# The layout of a bitjoin

Model of `resolve_bitjoin_layout`
(src/compression/simpatico_codegen/src/plan/bitjoin_layout.cpp:23-104). The widths, their total and
the positions are `UInt32` and wrap as in the source. `cudf::size_of` is a parameter.

* `resolveBitjoinLayout`: the layout, or the message of the error.
* `requestedWidths`: the widths that the fields ask for, as unbounded integers.
* `bitjoin_layout_contiguous`: what a resolved layout is, when these do not pass `2 ^ 32`.
-/

namespace Sirius.Compression.Plan

open Sirius.Common

/-- `bitjoin_layout`. -/
structure BitjoinLayout where
  widths : List UInt32
  srcLos : List UInt32
  dstLos : List UInt32
  outputType : String
  deriving DecidableEq, Repr

/-- The message of a rejected layout. Reading a range past the end of the list is undefined. -/
inductive LayoutError where
  | message (text : String)
  | outOfBounds
  deriving DecidableEq, Repr

/-- What cuDF documents of `cudf::size_of`: the bytes of an element, of which the widest
    fixed-width type has 16. -/
def IsSizeOf (cudfSizeOf : String → ℕ) : Prop := ∀ type, cudfSizeOf type ≤ 16

/-- One round of the loop over ranged inputs (lines 55–67): the width and the low source bit. -/
def rangedField : Option (Option BitRange) → Except LayoutError (UInt32 × UInt32)
  | none => .error .outOfBounds
  | some none => .error (.message "bitjoin: mixing ranged and unranged inputs is not allowed")
  | some (some (hi, lo)) =>
    if hi < lo then .error (.message "bitjoin: input range hi < lo")
    else .ok (hi - lo + 1, lo)

/-- The widths and the low source bits of the fields (lines 43–83). -/
def fieldSources (spec : BitSpec) (nFields : ℕ) (inputRanges : List (Option BitRange)) :
    Except LayoutError (List (UInt32 × UInt32)) :=
  if inputRanges.any Option.isSome then
    (List.range nFields).mapM fun fi => rangedField inputRanges[fi]?
  else if spec.fields = [] then
    .error (.message "bitjoin: no field widths (use an alias or provide ranges)")
  else if spec.fields.length ≠ nFields then
    .error (.message ("bitjoin: input count (" ++ toString nFields ++ ") != field count (" ++
      toString spec.fields.length ++ ")"))
  else .ok (spec.fields.map fun field => (field.1, 0))

/-- The loop over the destinations (lines 96–100), from `offset_from_msb` on. -/
def dstPositions (outWidth : UInt32) : UInt32 → List UInt32 → List UInt32
  | _, [] => []
  | offsetFromMsb, width :: widths =>
    (outWidth - offsetFromMsb - width) :: dstPositions outWidth (offsetFromMsb + width) widths

variable (cudfSizeOf : String → ℕ)

/-- `resolve_bitjoin_layout`. -/
def resolveBitjoinLayout (compressorName : Str) (nFields : ℕ)
    (inputRanges : List (Option BitRange)) : Except LayoutError BitjoinLayout :=
  if ¬ ("bitjoin_".toList.length < compressorName.length ∧ "bitjoin_".toList <+: compressorName) then
    .error (.message ("only bitjoin_* supports multiple inputs (step: '" ++
      String.ofList compressorName ++ "')"))
  else
    let spec := parseBitjoinSpec (bitjoinSpecSuffix compressorName)
    match spec.outputType with
    | none => .error (.message ("bitjoin: bad spec '" ++ String.ofList compressorName ++ "'"))
    | some type => do
      let fields ← fieldSources spec nFields inputRanges
      let widths := fields.map Prod.fst
      let totalBits := widths.foldl (· + ·) 0
      let outWidth := UInt32.ofNat (cudfSizeOf type) * 8
      if totalBits > outWidth then
        .error (.message ("bitjoin: total bits (" ++ toString totalBits ++
          ") exceeds output type width (" ++ toString outWidth ++ ")"))
      else .ok ⟨widths, fields.map Prod.snd, dstPositions outWidth 0 widths, type⟩

/-! ## What the fields ask for -/

/-- The width and the low source bit that a ranged field asks for. -/
def requestedRange : Option BitRange → ℕ × ℕ
  | some (hi, lo) => (hi.toNat + 1 - lo.toNat, lo.toNat)
  | none => (0, 0)

/-- The widths and the low source bits that the fields ask for, as unbounded integers: those of the
    ranges if there are any, else those in the operator's name. -/
def requestedFields (compressorName : Str) (nFields : ℕ) (inputRanges : List (Option BitRange)) :
    List (ℕ × ℕ) :=
  if inputRanges.any Option.isSome then (inputRanges.take nFields).map requestedRange
  else (parseBitjoinSpec (bitjoinSpecSuffix compressorName)).fields.map fun field =>
    (field.1.toNat, 0)

/-- The destinations of the fields: the low bit and the width of each. -/
def BitjoinLayout.destinations (layout : BitjoinLayout) : List (ℕ × ℕ) :=
  (layout.dstLos.map UInt32.toNat).zip (layout.widths.map UInt32.toNat)

/-- The bits of the output. -/
def BitjoinLayout.outWidth (layout : BitjoinLayout) : ℕ := 8 * cudfSizeOf layout.outputType

/-- One interval ends where the one above it begins. -/
def Below (above below : ℕ × ℕ) : Prop := below.1 + below.2 = above.1

/-- A layout that puts the fields, as they were asked for, one after the other from the top. -/
structure LaidOut (layout : BitjoinLayout) (requested : List (ℕ × ℕ)) : Prop where
  widths : layout.widths.map UInt32.toNat = requested.map Prod.fst
  sources : layout.srcLos.map UInt32.toNat = requested.map Prod.snd
  positive : ∀ w ∈ layout.widths, 1 ≤ w.toNat
  total : (layout.widths.map UInt32.toNat).sum ≤ layout.outWidth cudfSizeOf
  length : layout.dstLos.length = layout.widths.length
  contiguous : ((layout.outWidth cudfSizeOf, 0) :: layout.destinations).IsChain Below
  disjoint : layout.destinations.Pairwise fun a b => b.1 + b.2 ≤ a.1

/-! ## Fields -/

theorem parseBitfield_pos {tok : Str} {field : UInt32 × Str} (h : parseBitfield tok = some field) :
    1 ≤ field.1.toNat := by
  simp only [parseBitfield] at h
  split_ifs at h with _ hzero
  cases h
  rw [Nat.one_le_iff_ne_zero]
  exact fun hne => hzero (UInt32.toNat_inj.mp hne)

theorem mapM_parseBitfield_pos {toks : List Str} {fields : List (UInt32 × Str)}
    (h : toks.mapM parseBitfield = some fields) : ∀ field ∈ fields, 1 ≤ field.1.toNat := by
  induction toks generalizing fields with
  | nil =>
    cases h
    exact nofun
  | cons tok toks ih =>
    rw [List.mapM_cons] at h
    obtain ⟨first, hfirst, h⟩ := Option.bind_eq_some_iff.mp h
    obtain ⟨rest, hrest, h⟩ := Option.bind_eq_some_iff.mp h
    cases h
    exact List.forall_mem_cons.mpr ⟨parseBitfield_pos hfirst, ih hrest⟩

theorem parseBitfieldList_pos (fieldsSuffix : Str) :
    ∀ field ∈ parseBitfieldList fieldsSuffix, 1 ≤ field.1.toNat := by
  unfold parseBitfieldList
  rcases hm : (fieldsSuffix.splitOn '_').mapM parseBitfield with _ | fields
  · exact nofun
  · exact mapM_parseBitfield_pos hm

theorem parseBitjoinSpec_pos (suffix : Str) :
    ∀ field ∈ (parseBitjoinSpec suffix).fields, 1 ≤ field.1.toNat := by
  unfold parseBitjoinSpec
  split
  · next spec halias =>
    unfold parseFloatAlias at halias
    split_ifs at halias <;> cases halias <;> decide
  · dsimp only
    split
    · exact nofun
    · split_ifs
      · exact nofun
      · exact nofun
      · exact parseBitfieldList_pos _

/-- A range that does not span `2 ^ 32` bits. -/
theorem rangedField_eq {range : Option (Option BitRange)} {field : UInt32 × UInt32}
    (h : rangedField range = .ok field) :
    ∃ r, range = some r ∧ 1 ≤ (requestedRange r).1 ∧ field.2.toNat = (requestedRange r).2 ∧
      ((requestedRange r).1 < 2 ^ 32 → field.1.toNat = (requestedRange r).1) := by
  match range, h with
  | some (some (hi, lo)), h =>
    simp only [rangedField, ite_error_eq_ok, Except.ok.injEq] at h
    obtain ⟨hle, rfl⟩ := h
    rw [UInt32.lt_iff_toNat_lt] at hle
    have hlt := hi.toNat_lt
    refine ⟨_, rfl, ?_, rfl, fun hspan => ?_⟩
    · simp only [requestedRange]
      omega
    · simp only [requestedRange] at hspan ⊢
      rw [UInt32.toNat_add, UInt32.toNat_sub_of_le, UInt32.toNat_one]
      · omega
      · rw [UInt32.le_iff_toNat_le]
        omega

/-- The fields are those that were asked for, as long as no width reaches `2 ^ 32`. -/
theorem fieldSources_eq {name : Str} {nFields : ℕ} {inputRanges : List (Option BitRange)}
    {fields : List (UInt32 × UInt32)}
    (h : fieldSources (parseBitjoinSpec (bitjoinSpecSuffix name)) nFields inputRanges = .ok fields)
    (hspan : ∀ r ∈ requestedFields name nFields inputRanges, r.1 < 2 ^ 32) :
    fields.map (fun f => (f.1.toNat, f.2.toNat)) = requestedFields name nFields inputRanges ∧
      ∀ r ∈ requestedFields name nFields inputRanges, 1 ≤ r.1 := by
  unfold fieldSources at h
  unfold requestedFields at hspan ⊢
  split_ifs at h hspan ⊢ with hany
  · have hpairs := forall₂_of_mapM_eq_ok h
    have hlength : fields.length = nFields := by
      rw [← hpairs.length_eq, List.length_range]
    have hfield : ∀ fi < nFields, ∃ field r, fields[fi]? = some field ∧
        inputRanges[fi]? = some r ∧ rangedField (some r) = .ok field := by
      intro fi hfi
      obtain ⟨field, hfield, hok⟩ := forall₂_getElem? hpairs (List.getElem?_range hfi)
      obtain ⟨r, hr, -⟩ := rangedField_eq hok
      exact ⟨field, r, hfield, hr, hr ▸ hok⟩
    have hmem : ∀ fi < nFields, ∀ r, inputRanges[fi]? = some r →
        requestedRange r ∈ (inputRanges.take nFields).map requestedRange := by
      intro fi hfi r hr
      have htake : (inputRanges.take nFields)[fi]? = some r := by
        rw [List.getElem?_take_of_lt hfi, hr]
      exact List.mem_map_of_mem (List.mem_of_getElem? htake)
    constructor
    · refine List.ext_getElem? fun fi => ?_
      rw [List.getElem?_map, List.getElem?_map]
      by_cases hfi : fi < nFields
      · obtain ⟨field, r, hf, hr, hok⟩ := hfield fi hfi
        obtain ⟨r', heq, -, hlo, hwidth⟩ := rangedField_eq hok
        cases heq
        rw [List.getElem?_take_of_lt hfi, hf, hr, Option.map_some, Option.map_some, hlo,
          hwidth (hspan _ (hmem fi hfi r hr))]
      · rw [List.getElem?_eq_none (by omega), List.getElem?_eq_none (by simp; omega)]
        rfl
    · intro q hq
      obtain ⟨r, hr, rfl⟩ := List.mem_map.mp hq
      obtain ⟨fi, hfi⟩ := List.mem_iff_getElem?.mp hr
      have hlt : fi < nFields := by
        by_contra hge
        rw [List.getElem?_take_eq_none (by omega)] at hfi
        cases hfi
      rw [List.getElem?_take_of_lt hlt] at hfi
      obtain ⟨field, r', -, hr', hok⟩ := hfield fi hlt
      rw [hfi] at hr'
      cases hr'
      obtain ⟨r', heq, hpos, -⟩ := rangedField_eq hok
      cases heq
      exact hpos
  · cases h
    constructor
    · rw [List.map_map]
      rfl
    · intro r hr
      obtain ⟨field, hfield, rfl⟩ := List.mem_map.mp hr
      exact parseBitjoinSpec_pos _ field hfield

/-! ## Positions -/

theorem toNat_foldl_add (widths : List UInt32) (start : UInt32)
    (h : start.toNat + (widths.map UInt32.toNat).sum < 2 ^ 32) :
    (widths.foldl (· + ·) start).toNat = start.toNat + (widths.map UInt32.toNat).sum := by
  induction widths generalizing start with
  | nil => simp
  | cons w widths ih =>
    rw [List.map_cons, List.sum_cons] at h ⊢
    have hadd : (start + w).toNat = start.toNat + w.toNat := by
      rw [UInt32.toNat_add]
      omega
    rw [List.foldl_cons, ih (start + w) (by omega), hadd]
    omega

theorem length_dstPositions (outWidth offset : UInt32) (widths : List UInt32) :
    (dstPositions outWidth offset widths).length = widths.length := by
  induction widths generalizing offset with
  | nil => rfl
  | cons w widths ih => rw [dstPositions, List.length_cons, List.length_cons, ih]

/-- The intervals of the loop, below the offset that it starts at. -/
theorem dstPositions_chain {outWidth offset : UInt32} {widths : List UInt32}
    (h : offset.toNat + (widths.map UInt32.toNat).sum ≤ outWidth.toNat) (n : ℕ) :
    ((outWidth.toNat - offset.toNat, n) ::
      ((dstPositions outWidth offset widths).map UInt32.toNat).zip
        (widths.map UInt32.toNat)).IsChain Below := by
  induction widths generalizing offset n with
  | nil => exact List.isChain_singleton _
  | cons w widths ih =>
    rw [List.map_cons, List.sum_cons] at h
    have hout := outWidth.toNat_lt
    have hadd : (offset + w).toNat = offset.toNat + w.toNat := by
      rw [UInt32.toNat_add]
      omega
    have hdst : (outWidth - offset - w).toNat = outWidth.toNat - (offset + w).toNat := by
      rw [UInt32.toNat_sub, UInt32.toNat_sub, hadd]
      omega
    rw [dstPositions, List.map_cons, List.map_cons, List.zip_cons_cons, List.isChain_cons_cons, hdst]
    refine ⟨?_, ih (by omega) _⟩
    show outWidth.toNat - (offset + w).toNat + w.toNat = outWidth.toNat - offset.toNat
    omega

/-- Intervals that follow each other are below the first. -/
theorem pairwise_of_chain_below {l : List (ℕ × ℕ)} (h : l.IsChain Below) :
    l.Pairwise fun a b => b.1 + b.2 ≤ a.1 := by
  have htrans : IsTrans (ℕ × ℕ) fun a b => b.1 + b.2 ≤ a.1 :=
    ⟨fun a b c hab hbc => by omega⟩
  refine List.isChain_iff_pairwise.mp (h.imp fun a b hab => ?_)
  exact le_of_eq hab

/-- **A layout that is resolved, for fields whose widths add up to less than `2 ^ 32`, holds the
    fields as they were asked for, each of at least one bit, one below the other from the top bit of
    the output, and their widths fit the output.** -/
theorem bitjoin_layout_contiguous (hsize : IsSizeOf cudfSizeOf) (compressorName : Str)
    (nFields : ℕ) (inputRanges : List (Option BitRange)) (layout : BitjoinLayout)
    (h : resolveBitjoinLayout cudfSizeOf compressorName nFields inputRanges = .ok layout)
    (hsum : ((requestedFields compressorName nFields inputRanges).map Prod.fst).sum < 2 ^ 32) :
    LaidOut cudfSizeOf layout (requestedFields compressorName nFields inputRanges) := by
  unfold resolveBitjoinLayout at h
  obtain ⟨-, h⟩ := ite_error_eq_ok.mp h
  dsimp only at h
  rcases htype : (parseBitjoinSpec (bitjoinSpecSuffix compressorName)).outputType with _ | type
  · rw [htype] at h
    cases h
  · rw [htype] at h
    simp only [bind_eq_ok, ite_error_eq_ok, Except.ok.injEq] at h
    obtain ⟨fields, hfields, htotal, rfl⟩ := h
    have hspan : ∀ r ∈ requestedFields compressorName nFields inputRanges, r.1 < 2 ^ 32 :=
      fun r hr => (List.le_sum_of_mem (List.mem_map_of_mem hr)).trans_lt hsum
    obtain ⟨heq, hpos⟩ := fieldSources_eq hfields hspan
    have hwidths : (fields.map Prod.fst).map UInt32.toNat =
        (requestedFields compressorName nFields inputRanges).map Prod.fst := by
      rw [← heq, List.map_map, List.map_map]
      rfl
    have hout : (UInt32.ofNat (cudfSizeOf type) * 8).toNat = 8 * cudfSizeOf type := by
      have hle := hsize type
      have height : (8 : UInt32).toNat = 8 := rfl
      rw [UInt32.toNat_mul, UInt32.toNat_ofNat', height]
      omega
    have hfits : ((fields.map Prod.fst).map UInt32.toNat).sum ≤
        (UInt32.ofNat (cudfSizeOf type) * 8).toNat := by
      rw [← hwidths] at hsum
      have hfold := toNat_foldl_add (fields.map Prod.fst) 0 (by simpa using hsum)
      rw [gt_iff_lt, UInt32.lt_iff_toNat_lt, hfold] at htotal
      simpa using htotal
    have hstart : (0 : UInt32).toNat + ((fields.map Prod.fst).map UInt32.toNat).sum ≤
        (UInt32.ofNat (cudfSizeOf type) * 8).toNat := by
      rw [UInt32.toNat_zero, Nat.zero_add]
      exact hfits
    have hchain := dstPositions_chain hstart 0
    rw [UInt32.toNat_zero, Nat.sub_zero, hout] at hchain
    rw [hout] at hfits
    refine ⟨hwidths, ?_, ?_, hfits, length_dstPositions _ _ _, hchain, ?_⟩
    · show (fields.map Prod.snd).map UInt32.toNat = _
      rw [← heq, List.map_map, List.map_map]
      rfl
    · intro w hw
      have hmem : w.toNat ∈ (fields.map Prod.fst).map UInt32.toNat := List.mem_map_of_mem hw
      rw [hwidths] at hmem
      obtain ⟨r, hr, hw⟩ := List.mem_map.mp hmem
      rw [← hw]
      exact hpos r hr
    · exact (List.pairwise_cons.mp (pairwise_of_chain_below hchain)).2

/-- The bytes of the types of `parse_packed_type_token`. -/
def packedSizeOf (type : String) : ℕ :=
  if type = "UINT8" ∨ type = "INT8" then 1
  else if type = "UINT16" ∨ type = "INT16" then 2
  else if type = "UINT32" ∨ type = "INT32" ∨ type = "FLOAT32" then 4
  else 8

theorem isSizeOf_packedSizeOf : IsSizeOf packedSizeOf := by
  intro type
  unfold packedSizeOf
  split_ifs <;> omega

/-- The nibbles of a byte in the other order. -/
def swappedNibbles : BitjoinLayout where
  widths := [4, 4]
  srcLos := [0, 4]
  dstLos := [4, 0]
  outputType := "UINT8"

theorem swapped_nibbles_contiguous :
    resolveBitjoinLayout packedSizeOf "bitjoin_u8".toList 2 [some (3, 0), some (7, 4)] =
        .ok swappedNibbles ∧ LaidOut packedSizeOf swappedNibbles [(4, 0), (4, 4)] := by
  have h : resolveBitjoinLayout packedSizeOf "bitjoin_u8".toList 2 [some (3, 0), some (7, 4)] =
      .ok swappedNibbles := by rfl
  exact ⟨h, bitjoin_layout_contiguous _ isSizeOf_packedSizeOf _ _ _ _ h (by decide)⟩

/-- The source bits of every field are inside the width of its source. -/
def InsideSources (layout : BitjoinLayout) (sourceWidths : List ℕ) : Prop :=
  List.Forall₂ (fun field width => field ≤ width)
    (List.zipWith (fun lo w => lo.toNat + w.toNat) layout.srcLos layout.widths) sourceWidths

/-- The width of a source is not looked at: a range above the bits of a byte is resolved. -/
theorem range_above_source_resolved :
    ∃ layout, resolveBitjoinLayout packedSizeOf "bitjoin_u8".toList 2
        [some (15, 12), some (3, 0)] = .ok layout ∧ ¬ InsideSources layout [8, 8] := by
  refine ⟨⟨[4, 4], [12, 0], [4, 0], "UINT8"⟩, by rfl, fun h => ?_⟩
  cases h with
  | cons hfirst _ => exact absurd hfirst (by decide)

end Sirius.Compression.Plan
