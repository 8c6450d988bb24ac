import Sirius.Compression.ReadyChunk
import Sirius.Compression.SelectionMask

/-!
# What the forecast of a compaction promises

`forecast_compaction` decides from the plans of a chunk whether its decode will hand back
compacted columns, and the memory of the decode is reserved by it. The decode decides
again, in `build_chunk_pushdown_config`, in the preconditions of `try_decompress_fused` and
by the selectivity that it measures.

* `Evaluates`: the decode evaluates a range on its column. The forecast leaves two of its
  conditions out: that the range is not empty, and that the type of the column compares.
* `forecast_kept_iff`: when a chunk that is forecast to compact is compacted to its
  surviving rows, or reported as not worth it.
-/

namespace Sirius.Compression.Pushdown

open Sirius.Common

variable {F : Type} (d : Decoder F)

/-! ## What is promised -/

/-- Something of the request drives a row selection on the chunk. -/
def Drives (chunk : Chunk) (selected : List ℕ) (request : Request) : Prop :=
  (∃ i range, request.rangeAt i = some range ∧ Evaluates d chunk selected i range) ∨
    ∃ entry ∈ request.columns, entry.equalsAny ≠ []

/-- The row satisfies what the chunk evaluates of the request. -/
def Survives (chunk : Chunk) (selected : List ℕ) (request : Request) (row : ℕ) : Prop :=
  ∀ i column, columnAt chunk selected i = some column →
    (∀ entry, request.columns[i]? = some entry → entry.equalsAny ≠ [] →
      column.text row ∈ entry.equalsAny) ∧
    ∀ range, request.rangeAt i = some range → Evaluates d chunk selected i range →
      range.lo ≤ column.lane row ∧ column.lane row ≤ range.hi

/-- The batch holds the surviving rows of `rows`, in order. -/
structure CompactedTo (chunk : Chunk) (selected : List ℕ) (request : Request) (rows : ℕ)
    (batch : List ℕ) : Prop where
  ordered : batch.Pairwise (· < ·)
  mem_iff : ∀ row, row ∈ batch ↔ row < rows ∧ Survives d chunk selected request row

/-- The decode of a chunk of `rows` rows does what the forecast says. -/
structure Kept [LinearOrder F] (chunk : Chunk) (selected : List ℕ) (request : Request)
    (rows : ℕ) (forecast : Forecast) (decoded : Decoded) : Prop where
  compacts : (∃ batch, decoded.batch = .compacted batch ∧
      CompactedTo d chunk selected request rows batch) ∨
    decoded.outcome.selectionUnprofitable = true
  bounded : forecast.survivorsBounded = true → ∀ batch, decoded.batch = .compacted batch →
    d.quotient batch.length rows ≤ d.maxSelectivity

/-! ## The preconditions of the filtered decode -/

variable {d} {chunk : Chunk} {selected : List ℕ} {request : Request}
  {capabilities : List Capability}

section Ready

variable (hmembership : ∀ entry ∈ request.columns, entry.membership = [])
  (hwidth : request.columns.length ≤ selected.length)
  (hready : List.Forall₂ (Ready d chunk) selected capabilities)

/-- The computation declines the request. -/
def Refuses {α : Type} (x : Except Halt α) : Prop := ∃ why, x = .error (.refused why)

theorem Refuses.bind {α β : Type} {x : Except Halt α} (h : Refuses x) (f : α → Except Halt β) :
    Refuses (x >>= f) := by
  obtain ⟨why, rfl⟩ := h
  exact ⟨why, rfl⟩

/-- A check that fails declines, and the others are left. -/
theorem Refuses.refuseIf_bind {β : Type} {condition : Bool} {why : String}
    {f : Unit → Except Halt β} (h : Refuses (f ())) : Refuses (refuseIf condition why >>= f) := by
  cases condition with
  | true => exact ⟨why, rfl⟩
  | false => exact h

theorem refuseIf_false {condition : Bool} (h : condition = false) (why : String) :
    refuseIf condition why = .ok () := by
  rw [refuseIf, h]
  rfl

include hready in
theorem checkColumn_ok
    (hrows : ∀ index ∈ selected, ∀ column, chunk.columns[index]? = some column →
      column.numRows = chunk.numRows) : ∀ index ∈ selected, checkColumn chunk index = .ok () := by
  intro index hindex
  obtain ⟨i, hi⟩ := List.mem_iff_getElem?.mp hindex
  obtain ⟨c, -, column, tree, hcolumn, htree, hprobe, -, hroute⟩ := forall₂_getElem? hready hi
  simp only [checkColumn, hcolumn, htree]
  rw [refuseIf_false (by simp [hrows index hindex column hcolumn]), ok_bind, refuseIf_false]
  simp [validity_of_probePlan hprobe hroute]

include hready in
theorem checkColumn_refuses (hselected : selected ≠ [])
    (hrows : ∀ index ∈ selected, ∀ column, chunk.columns[index]? = some column →
      column.numRows ≠ chunk.numRows) : Refuses (selected.forM (checkColumn chunk)) := by
  cases hready with
  | nil => exact absurd rfl hselected
  | @cons index c rest cs hcolumn _ =>
    obtain ⟨column, tree, hcolumn, htree, -⟩ := hcolumn
    have hne := hrows index List.mem_cons_self column hcolumn
    refine Refuses.bind ⟨"selected column missing plan_tree or row-count mismatch", ?_⟩ _
    simp only [checkColumn, hcolumn, htree, refuseIf, decide_eq_true hne, if_true]
    rfl

include hmembership hwidth hready in
theorem checkFilter_ok : ∀ f ∈ (readyWave selected request capabilities).filters,
    checkFilter d chunk selected f = .ok () := by
  rintro ⟨i, bounds⟩ hmem
  obtain ⟨-, hevaluates⟩ := (mem_readyWave_filters hmembership hwidth hready).mp hmem
  obtain ⟨c, hc, hmask⟩ := canProduceMask_of_evaluates hready hevaluates
  have hlength : i < selected.length := by
    rw [hready.length_eq]
    exact (List.getElem?_eq_some_iff.mp hc).1
  simp only [checkFilter]
  rw [refuseIf_false (by simpa using hlength), ok_bind,
    refuseIf_false (by simpa using hevaluates.1), ok_bind, probeAt_eq hready hc, ok_bind,
    refuseIf_false (by rw [hmask]; rfl)]

include hmembership hwidth hready in
theorem checkBool8_ok (hanswers : Answers d chunk selected request) :
    ∀ f ∈ (readyWave selected request capabilities).bool8Filters,
      checkBool8 d chunk selected f = .ok () := by
  rintro ⟨i, values⟩ hmem
  obtain ⟨entry, hentry, hany, rfl⟩ := (mem_readyWave_bool8Filters hmembership hwidth).mp hmem
  obtain ⟨index, capability, hindex, hprobe, hanswer⟩ := hanswers i entry hentry hany
  obtain ⟨c, hc, hcolumn⟩ := forall₂_getElem? hready hindex
  rw [hcolumn.probeColumn] at hprobe
  cases hprobe
  have hlength : i < selected.length := (List.getElem?_eq_some_iff.mp hindex).1
  simp only [checkBool8]
  rw [refuseIf_false (by simpa using hlength), ok_bind, refuseIf_false (by simpa using hany),
    ok_bind, probeAt_eq hready hc, ok_bind, refuseIf_false (by rw [hanswer]; rfl)]

include hmembership hwidth hready in
theorem checkRoute_ok :
    ∀ slot ∈ (effectiveRoutes (readyWave selected request capabilities)).zipIdx,
      checkRoute d chunk selected (readyWave selected request capabilities) slot = .ok () := by
  rw [effectiveRoutes_readyWave hmembership hwidth hready]
  rintro ⟨route, i⟩ hmem
  rw [List.mem_zipIdx_iff_getElem?, List.getElem?_map, Option.map_eq_some_iff] at hmem
  obtain ⟨c, hc, hroute⟩ := hmem
  simp only [checkRoute]
  split_ifs
  · rfl
  · rw [probeAt_eq hready hc, ok_bind, refuseIf_false]
    simpa using hroute.symm

/-- The prefix of the columns that is delivered is never empty. -/
theorem delivered_readyWave (request : Request) (capabilities : List Capability)
    (hselected : selected ≠ []) :
    (readyWave selected request capabilities).delivered selected ≠ 0 ∧
      (readyWave selected request capabilities).delivered selected ≤ selected.length := by
  have hpos : 0 < selected.length := List.length_pos_iff.mpr hselected
  simp only [ScanFilterRequest.delivered, readyWave, waveRequest]
  split_ifs
  · cases hw : request.outputPrefixWidth.filter (· < selected.length) with
    | none => exact ⟨hpos.ne', le_rfl⟩
    | some w =>
      obtain ⟨hw, hlt⟩ := Option.filter_eq_some_iff.mp hw
      have hw1 := (request.prefix_pos w hw).1
      simp only [decide_eq_true_eq] at hlt
      exact ⟨by simp only [Option.getD_some]; omega, by simp only [Option.getD_some]; omega⟩
  · exact ⟨hpos.ne', le_rfl⟩

/-- What is asked of a chunk whose decode is to compact. -/
structure Sound (d : Decoder F) (chunk : Chunk) (selected : List ℕ) (request : Request)
    (capabilities : List Capability) : Prop where
  enabled : d.enabled = true
  selecting : request.rowSelectionDisabled = false
  ranges : (request.columns.any fun entry => entry.range.isSome) = true
  total : request.totalSources ≤ kMaxSelectionSources
  membership : ∀ entry ∈ request.columns, entry.membership = []
  width : request.columns.length ≤ selected.length
  ready : List.Forall₂ (Ready d chunk) selected capabilities
  answers : Answers d chunk selected request

namespace Sound

variable (hsound : Sound d chunk selected request capabilities)

include hsound

theorem selected_ne_nil : selected ≠ [] := by
  rintro rfl
  have hwidth := hsound.width
  have hany := hsound.ranges
  have hnil : request.columns = [] := List.length_eq_zero_iff.mp (Nat.le_zero.mp hwidth)
  rw [hnil] at hany
  cases hany

/-- The request drives a row selection just when it has a source on the chunk. -/
theorem drives_iff :
    Drives d chunk selected request ↔ readySources selected request capabilities ≠ [] := by
  rw [ne_eq, List.eq_nil_iff_forall_not_mem, not_forall_not]
  constructor
  · rintro (⟨i, bounds, hrange, hevaluates⟩ | ⟨entry, hentry, hany⟩)
    · obtain ⟨slot, hslot, hselects, -⟩ :=
        (selects_iff hsound.ready i bounds).mpr ⟨hrange, hevaluates⟩
      exact ⟨.range i, List.mem_append_right _
        (mem_rangeSources.mpr ⟨i, slot, hslot, hselects, rfl⟩)⟩
    · obtain ⟨i, hi⟩ := List.mem_iff_getElem?.mp hentry
      exact ⟨.equality i, List.mem_append_left _
        ((mem_externalSources hsound.membership hsound.width).mpr ⟨i, entry, hi, hany, rfl⟩)⟩
  · rintro ⟨source, hsource⟩
    rcases List.mem_append.mp hsource with hmem | hmem
    · obtain ⟨i, entry, hi, hany, -⟩ :=
        (mem_externalSources hsound.membership hsound.width).mp hmem
      exact .inr ⟨entry, List.mem_of_getElem? hi, hany⟩
    · obtain ⟨i, slot, hslot, hselects, -⟩ := mem_rangeSources.mp hmem
      exact .inl ⟨i, slot.bounds, (selects_iff hsound.ready i slot.bounds).mp
        ⟨slot, hslot, hselects, rfl⟩⟩

theorem checkRequest_ok (hdrives : Drives d chunk selected request)
    (hrows : ∀ index ∈ selected, ∀ column, chunk.columns[index]? = some column →
      column.numRows = chunk.numRows)
    (hpos : 1 ≤ chunk.numRows) (hmax : chunk.numRows ≤ 2 ^ 31 - 1) :
    checkRequest d chunk selected (readyWave selected request capabilities) = .ok () := by
  obtain ⟨hlength, hmember⟩ :=
    length_readyWave capabilities hsound.membership hsound.width
  have hle : (readySources selected request capabilities).length ≤ 8 :=
    (length_readySources_le hsound.membership hsound.width).trans hsound.total
  have hne := List.length_pos_iff.mpr (hsound.drives_iff.mp hdrives)
  obtain ⟨hdelivered, hprefix⟩ :=
    delivered_readyWave request capabilities hsound.selected_ne_nil
  have hroutes : (readyWave selected request capabilities).routes.length = selected.length := by
    rw [hsound.ready.length_eq]
    exact List.length_map _
  have hmask : (readyWave selected request capabilities).keepMask = none := rfl
  simp only [checkRequest, hmember, List.take_nil, List.length_nil, Nat.add_zero, hlength, hmask,
    Option.isSome_none, Bool.false_eq_true, if_false, Option.any_none]
  rw [refuseIf_false (by rw [hsound.enabled]; rfl), ok_bind,
    refuseIf_false (decide_eq_false hne.ne'), ok_bind,
    refuseIf_false (decide_eq_false (Nat.not_lt.mpr hle)), ok_bind,
    refuseIf_false (decide_eq_false (not_not.mpr hroutes)), ok_bind,
    refuseIf_false (decide_eq_false (not_or.mpr ⟨hdelivered, Nat.not_lt.mpr hprefix⟩)), ok_bind,
    refuseIf_false (decide_eq_false (by omega)), ok_bind,
    refuseIf_false (decide_eq_false (by omega)), ok_bind,
    refuseIf_false rfl, ok_bind, forM_eq_ok (checkColumn_ok hsound.ready hrows), ok_bind,
    forM_eq_ok (checkFilter_ok hsound.membership hsound.width hsound.ready), ok_bind,
    forM_eq_ok (checkBool8_ok hsound.membership hsound.width hsound.ready hsound.answers), ok_bind,
    forM_eq_ok (by simp), ok_bind,
    refuseIf_false (decide_eq_false
      (not_not.mpr (nodup_bool8Filters hsound.membership hsound.width))), ok_bind,
    forM_eq_ok (checkRoute_ok hsound.membership hsound.width hsound.ready)]

/-- A chunk whose row count is not the one of its columns is declined. -/
theorem checkRequest_refuses
    (hrows : ∀ index ∈ selected, ∀ column, chunk.columns[index]? = some column →
      column.numRows ≠ chunk.numRows) (wave : ScanFilterRequest) :
    Refuses (checkRequest d chunk selected wave) := by
  rw [checkRequest]
  iterate 8 apply Refuses.refuseIf_bind
  exact (checkColumn_refuses hsound.ready hsound.selected_ne_nil hrows).bind _

/-- A row that passes every source is one that survives. -/
theorem kept_iff (row : ℕ) :
    kept chunk selected (readyWave selected request capabilities) [] row = true ↔
      Survives d chunk selected request row := by
  have hmask : (readyWave selected request capabilities).keepMask = none := rfl
  simp only [kept, inRange, isListed, hmask, List.all_nil, Option.all_none, Bool.and_true, Bool.and_eq_true,
    List.all_eq_true, Option.any_eq_true, decide_eq_true_eq, Prod.forall]
  constructor
  · rintro ⟨hfilters, hbool8⟩ i column hcolumn
    constructor
    · intro entry hentry hany
      obtain ⟨column', hcolumn', htext⟩ := hbool8 i entry.equalsAny
        ((mem_readyWave_bool8Filters hsound.membership hsound.width).mpr
          ⟨entry, hentry, hany, rfl⟩)
      rw [hcolumn] at hcolumn'
      cases hcolumn'
      exact htext
    · intro range hrange hevaluates
      obtain ⟨column', hcolumn', hlane⟩ := hfilters i range
        ((mem_readyWave_filters hsound.membership hsound.width hsound.ready).mpr
          ⟨hrange, hevaluates⟩)
      rw [hcolumn] at hcolumn'
      cases hcolumn'
      exact hlane
  · intro hsurvives
    have hcolumnAt : ∀ (i index : ℕ), selected[i]? = some index →
        ∃ column, columnAt chunk selected i = some column := by
      intro i index hindex
      obtain ⟨c, -, column, tree, hcolumn, -⟩ := forall₂_getElem? hsound.ready hindex
      exact ⟨column, by rw [columnAt, hindex, Option.bind_some, hcolumn]⟩
    constructor
    · intro i range hmem
      obtain ⟨hrange, hevaluates⟩ :=
        (mem_readyWave_filters hsound.membership hsound.width hsound.ready).mp hmem
      obtain ⟨index, -, hindex, -⟩ := hevaluates.2
      obtain ⟨column, hcolumn⟩ := hcolumnAt i index hindex
      exact ⟨column, hcolumn, (hsurvives i column hcolumn).2 range hrange hevaluates⟩
    · intro i values hmem
      obtain ⟨entry, hentry, hany, rfl⟩ :=
        (mem_readyWave_bool8Filters hsound.membership hsound.width).mp hmem
      obtain ⟨index, -, hindex, -⟩ := hsound.answers i entry hentry hany
      obtain ⟨column, hcolumn⟩ := hcolumnAt i index hindex
      exact ⟨column, hcolumn, (hsurvives i column hcolumn).1 entry hentry hany⟩

theorem decodeTableColumns_ok :
    decodeTableColumns chunk selected = .ok { batch := .full, width := selected.length } := by
  rw [decodeTableColumns, forM_eq_ok]
  · rfl
  · intro index hindex
    obtain ⟨i, hi⟩ := List.mem_iff_getElem?.mp hindex
    obtain ⟨c, -, column, tree, hcolumn, htree, -⟩ := forall₂_getElem? hsound.ready hi
    simp only [hcolumn, htree, Option.isNone_some, Bool.false_eq_true, if_false]

theorem request_nonempty : request.empty = false := by
  obtain ⟨entry, hentry, hrange⟩ := List.any_eq_true.mp hsound.ranges
  obtain ⟨range, hsome⟩ := Option.isSome_iff_exists.mp hrange
  rw [Request.empty, List.all_eq_false]
  exact ⟨entry, hentry, by simp [ColumnEntry.empty, hsome]⟩

/-- The configuration is the ready one if the request drives a selection, else nothing. -/
theorem config_eq :
    buildChunkPushdownConfig d chunk selected request
        (!(externalSources request selected.length).isEmpty) =
      .ok (if readySources selected request capabilities = [] then {}
        else readyConfig request capabilities) := by
  rw [buildChunkPushdownConfig_eq hsound.ready hsound.ranges hsound.width]
  have hiff : ((slots request capabilities).countP RangeSlot.selects = 0 ∧
      (!(externalSources request selected.length).isEmpty) = false) ↔
      readySources selected request capabilities = [] := by
    rw [readySources, List.append_eq_nil_iff, ← List.length_eq_zero_iff (l := rangeSources _),
      length_rangeSources, and_comm]
    simp only [Bool.not_eq_false', List.isEmpty_iff]
    rfl
  simp only [hiff]

/-- The rows that pass every source. -/
def survivors (chunk : Chunk) (selected : List ℕ) (request : Request)
    (capabilities : List Capability) : List ℕ :=
  (List.range chunk.numRows.toNat).filter
    (kept chunk selected (readyWave selected request capabilities) [])

theorem compactedTo_survivors :
    CompactedTo d chunk selected request chunk.numRows.toNat
      (survivors chunk selected request capabilities) where
  ordered := List.pairwise_lt_range.filter _
  mem_iff row := by
    rw [survivors, List.mem_filter, List.mem_range, hsound.kept_iff row]

variable [LinearOrder F]

/-- The decode hands on what the pushdown did, and is plain when it did nothing. -/
theorem decompressChunk_of_pushed {pushed : Option Decoded}
    (h : decompressWithPushdown d chunk selected request none = .ok pushed) :
    ∃ decoded, decompressChunk d chunk selected request none = .ok decoded ∧
      decoded.batch = pushed.elim .full Decoded.batch ∧
      decoded.outcome.selectionUnprofitable =
        pushed.elim false fun x => x.outcome.selectionUnprofitable := by
  have hnarrow : ¬((request.columns.any fun entry => !entry.equalsAny.isEmpty) = true ∧
      request.columns.length > selected.length) :=
    fun hwide => Nat.not_lt.mpr hsound.width hwide.2
  simp only [decompressChunk, if_neg hnarrow, hsound.request_nonempty, hsound.selecting,
    Bool.not_false, Bool.and_self, Bool.true_or, if_true, h]
  cases pushed with
  | some x => exact ⟨_, rfl, rfl, rfl⟩
  | none =>
    simp only [hsound.decodeTableColumns_ok]
    exact ⟨_, rfl, rfl, rfl⟩

/-- The filtered decode compacts to the survivors, unless these are too many. -/
theorem tryDecompressFused_eq (hdrives : Drives d chunk selected request)
    (hrows : ∀ index ∈ selected, ∀ column, chunk.columns[index]? = some column →
      column.numRows = chunk.numRows)
    (hpos : 1 ≤ chunk.numRows) (hmax : chunk.numRows ≤ 2 ^ 31 - 1) :
    tryDecompressFused d chunk selected (readyWave selected request capabilities) =
      .ok (if givesUp d (readyWave selected request capabilities)
            (survivors chunk selected request capabilities).length chunk.numRows.toNat then
          .declinedUnselective 0
        else .applied (survivors chunk selected request capabilities) 0) := by
  obtain ⟨hlength, hmember⟩ :=
    length_readyWave capabilities hsound.membership hsound.width
  have hne := List.length_pos_iff.mpr (hsound.drives_iff.mp hdrives)
  have hballot : HasBallot (readyWave selected request capabilities) [] := by
    apply hasBallot_of_declined_ne
    simp only [List.countP_nil, List.length_nil, Nat.add_zero, hlength]
    exact hne.ne
  have hgathered : (List.range (paddedBits chunk.numRows.toNat)).filter
      (combinedMask chunk selected (readyWave selected request capabilities) []) =
        survivors chunk selected request capabilities :=
    filter_combinedMask hballot fun mask hmask => by cases hmask
  rw [tryDecompressFused, hsound.checkRequest_ok hdrives hrows hpos hmax, ok_bind]
  simp only [hmember, List.take_nil, List.map_nil, List.countP_nil, List.length_nil, Nat.add_zero,
    hlength, Nat.sub_self]
  rw [refuseIf_false (decide_eq_false hne.ne), ok_bind, hgathered]
  split_ifs <;> rfl

/-- Nothing is pushed down when nothing drives a selection. -/
theorem decompressWithPushdown_idle (hidle : ¬Drives d chunk selected request) :
    decompressWithPushdown d chunk selected request none = .ok none := by
  rw [hsound.drives_iff, not_not] at hidle
  rw [decompressWithPushdown, hsound.config_eq, if_pos hidle]
  rfl

/-- A chunk of too many rows is decoded plainly. -/
theorem decompressWithPushdown_large (hdrives : Drives d chunk selected request)
    (hlarge : chunk.numRows > 2 ^ 31 - 1) :
    decompressWithPushdown d chunk selected request none = .ok none := by
  rw [decompressWithPushdown, hsound.config_eq, if_neg (hsound.drives_iff.mp hdrives), ok_bind]
  rw [if_neg (by simp [readyConfig])]
  exact if_pos (.inr hlarge)

omit hsound [LinearOrder F] in
/-- An applied decode has the width that its caller expects. -/
theorem width_readyWave (rows : List ℕ) (ran : ℕ) :
    (readyWave selected request capabilities).delivered selected =
      if (pushdownOutcome (readyConfig request capabilities)
          (readyWave selected request capabilities)
          (some (.applied rows ran))).filterOnlyColumnsDropped then
        (readyWave selected request capabilities).deliveredPrefix.getD 0
      else selected.length := by
  simp only [pushdownOutcome, Bool.true_and, ScanFilterRequest.delivered]
  cases hcovers : (readyConfig request capabilities).coversWholeFilter with
  | false =>
    have hnone : (readyWave selected request capabilities).deliveredPrefix = none := by
      simp [readyWave, waveRequest, hcovers]
    rw [hnone]
    rfl
  | true =>
    cases (readyWave selected request capabilities).deliveredPrefix with
    | none => rfl
    | some w => rfl

/-- Without a dictionary and with every column compacted, a decode that does not give up
    has few enough survivors. -/
theorem le_of_not_givesUp {survivors rows : ℕ}
    (hdict : ∀ c ∈ capabilities, c.decode.compactRoute ≠ .dictCodes)
    (h : ¬givesUp d (readyWave selected request capabilities) survivors rows = true) :
    d.quotient survivors rows ≤ d.maxSelectivity := by
  have hroute : ∀ slot ∈ (effectiveRoutes (readyWave selected request capabilities)).zipIdx,
      slot.1 ≠ .full ∧ slot.1 ≠ .dictCodes := by
    rw [effectiveRoutes_readyWave hsound.membership hsound.width hsound.ready]
    rintro ⟨route, i⟩ hmem
    rw [List.mem_zipIdx_iff_getElem?, List.getElem?_map, Option.map_eq_some_iff] at hmem
    obtain ⟨c, hc, rfl⟩ := hmem
    obtain ⟨index, -, column, tree, -, -, -, -, hfull⟩ := forall₂_getElem? hsound.ready.flip hc
    exact ⟨hfull, hdict c (List.mem_of_getElem? hc)⟩
  have hnone : ∀ route : Route, route = .full ∨ route = .dictCodes →
      (((effectiveRoutes (readyWave selected request capabilities)).zipIdx.filter fun slot =>
        slot.2 ∉ (readyWave selected request capabilities).bool8Filters.map Prod.fst).any
          fun slot => slot.1 = route) = false := by
    intro route hor
    rw [List.any_eq_false]
    intro slot hslot
    have := hroute slot (List.mem_of_mem_filter hslot)
    rcases hor with rfl | rfl
    · simpa using this.1
    · simpa using this.2
  simp only [givesUp, hnone .full (.inl rfl), hnone .dictCodes (.inr rfl), Bool.false_eq_true,
    if_false, Bool.not_false, Bool.and_true, decide_eq_true_eq] at h
  exact not_lt.mp h

/-- What the decode of wave 1 and wave 2 does decides what is pushed down. -/
theorem decompressWithPushdown_eq (hdrives : Drives d chunk selected request)
    (hmax : chunk.numRows ≤ 2 ^ 31 - 1) {table : Decoded} {result : Option Fused}
    (h : decompressScanFilter d chunk selected (readyWave selected request capabilities) =
      .ok (table, result))
    (hwidth : table.width =
      if (pushdownOutcome (readyConfig request capabilities)
          (readyWave selected request capabilities) result).filterOnlyColumnsDropped then
        (readyWave selected request capabilities).deliveredPrefix.getD 0
      else selected.length) :
    decompressWithPushdown d chunk selected request none =
      .ok (some { table with
        outcome := pushdownOutcome (readyConfig request capabilities)
          (readyWave selected request capabilities) result }) := by
  have hle : (readySources selected request capabilities).length ≤ kMaxSelectionSources :=
    (length_readySources_le hsound.membership hsound.width).trans hsound.total
  have hfits : ¬((readySources selected request capabilities).length > kMaxSelectionSources ∨
      chunk.numRows > 2 ^ 31 - 1) := by
    omega
  have hsorted := insertionSort_exact
    (readySources_exact hsound.membership hsound.width :
      ∀ s ∈ readySources selected request capabilities, s.Exact)
  rw [decompressWithPushdown, hsound.config_eq, if_neg (hsound.drives_iff.mp hdrives), ok_bind]
  rw [if_neg (by simp [readyConfig])]
  dsimp only
  rw [← readySources, if_neg hfits, hsorted, ← readyWave, h, ok_bind]
  dsimp only
  rw [if_neg (not_not.mpr hwidth)]
  rfl

/-- The decode of a chunk that drives a selection does what the forecast says. -/
theorem kept_of_drives {forecast : Forecast} (hdrives : Drives d chunk selected request)
    (hrows : ∀ index ∈ selected, ∀ column, chunk.columns[index]? = some column →
      column.numRows = chunk.numRows)
    (hpos : 1 ≤ chunk.numRows) (hmax : chunk.numRows ≤ 2 ^ 31 - 1)
    (hbounded : forecast.survivorsBounded = true →
      ∀ c ∈ capabilities, c.decode.compactRoute ≠ .dictCodes) :
    ∃ decoded, decompressChunk d chunk selected request none = .ok decoded ∧
      Kept d chunk selected request chunk.numRows.toNat forecast decoded := by
  have hfused := hsound.tryDecompressFused_eq hdrives hrows hpos hmax
  split_ifs at hfused with hgive
  · have hscan : decompressScanFilter d chunk selected (readyWave selected request capabilities) =
        .ok ({ batch := .full, width := selected.length }, some (.declinedUnselective 0)) := by
      simp only [decompressScanFilter, hfused, hsound.decodeTableColumns_ok]
      rfl
    obtain ⟨decoded, hdecoded, hbatch, hunprofitable⟩ := hsound.decompressChunk_of_pushed
      (hsound.decompressWithPushdown_eq hdrives hmax hscan rfl)
    refine ⟨decoded, hdecoded, .inr hunprofitable, ?_⟩
    intro _ batch heq
    rw [hbatch] at heq
    cases heq
  · have hscan : decompressScanFilter d chunk selected (readyWave selected request capabilities) =
        .ok ({ batch := .compacted (survivors chunk selected request capabilities),
               width := (readyWave selected request capabilities).delivered selected },
          some (.applied (survivors chunk selected request capabilities) 0)) := by
      simp only [decompressScanFilter, hfused]
    obtain ⟨decoded, hdecoded, hbatch, -⟩ := hsound.decompressChunk_of_pushed
      (hsound.decompressWithPushdown_eq hdrives hmax hscan (width_readyWave _ _))
    refine ⟨decoded, hdecoded, .inl ⟨_, hbatch, hsound.compactedTo_survivors⟩, ?_⟩
    intro hb batch heq
    rw [hbatch] at heq
    cases heq
    exact hsound.le_of_not_givesUp (hbounded hb) hgive

/-- A chunk on which nothing drives a selection, or whose row count is not the one of its
    columns, is decoded plainly. -/
theorem plain_of_not
    (h : ¬Drives d chunk selected request ∨
      ∀ index ∈ selected, ∀ column, chunk.columns[index]? = some column →
        column.numRows ≠ chunk.numRows) :
    ∃ decoded, decompressChunk d chunk selected request none = .ok decoded ∧
      decoded.batch = .full ∧ decoded.outcome.selectionUnprofitable = false := by
  by_cases hdrives : Drives d chunk selected request
  · obtain hrows := h.resolve_left (not_not.mpr hdrives)
    by_cases hmax : chunk.numRows ≤ 2 ^ 31 - 1
    · obtain ⟨why, hwhy⟩ :=
        hsound.checkRequest_refuses hrows (readyWave selected request capabilities)
      have hscan : decompressScanFilter d chunk selected
          (readyWave selected request capabilities) =
            .ok ({ batch := .full, width := selected.length }, none) := by
        have hfused : tryDecompressFused d chunk selected
            (readyWave selected request capabilities) = .error (.refused why) := by
          rw [tryDecompressFused, hwhy]
          rfl
        simp only [decompressScanFilter, hfused, hsound.decodeTableColumns_ok]
        rfl
      exact hsound.decompressChunk_of_pushed
        (hsound.decompressWithPushdown_eq hdrives hmax hscan rfl)
    · exact hsound.decompressChunk_of_pushed
        (hsound.decompressWithPushdown_large hdrives (Int.not_le.mp hmax))
  · exact hsound.decompressChunk_of_pushed (hsound.decompressWithPushdown_idle hdrives)

end Sound

/-- A request that was narrowed to the chunk has only equalities that the chunk answers. -/
theorem answers_of_forChunk {request₀ : Request}
    (h : forChunk d chunk selected request₀ = .ok (some request)) :
    Answers d chunk selected request := by
  simp only [forChunk] at h
  split at h
  · cases h
  · next columns hcolumns =>
    have hnarrowed : request.columns = columns := by
      split_ifs at h
      · cases h
      · cases h
        rfl
    intro i entry hentry hany
    rw [hnarrowed] at hentry
    obtain ⟨⟨old, j⟩, hold, hentry⟩ :=
      forall₂_getElem? (forall₂_of_mapM_eq_ok hcolumns).flip hentry
    have hij : i = j := by
      rw [List.getElem?_zipIdx, Option.map_eq_some_iff] at hold
      obtain ⟨x, -, hx⟩ := hold
      cases hx
      omega
    subst hij
    simp only [narrowEntry] at hentry
    split_ifs at hentry with hempty
    · cases hentry
      exact absurd (List.isEmpty_iff.mp hempty) hany
    · split at hentry
      · cases hentry
        exact absurd rfl hany
      · next index hindex =>
        obtain ⟨capability, hprobe, hentry⟩ := bind_eq_ok.mp hentry
        split_ifs at hentry with hanswer
        · exact ⟨index, capability, hindex, hprobe, hanswer⟩
        · cases hentry
          exact absurd rfl hany

end Ready

/-- **A chunk that is forecast to compact is compacted to its surviving rows, or reported
    as not worth it, exactly when** its row count is the one of the selected columns and
    something drives the selection: an equality that the chunk answers, or a range that is
    not empty, on a column whose type compares and whose plan ballots. -/
theorem forecast_kept_iff [LinearOrder F] (d : Decoder F) {chunk : Chunk} {selected : List ℕ}
    {request₀ request : Request} {rows : ℕ} {forecast : Forecast}
    (hchunk : forChunk d chunk selected request₀ = .ok (some request))
    (hwidth : request.columns.length ≤ selected.length)
    (hmembership : ∀ entry ∈ request.columns, entry.membership = [])
    (hrows : ∀ index ∈ selected, ∀ column, chunk.columns[index]? = some column →
      column.numRows = rows)
    (hpos : 1 ≤ rows) (hmax : rows ≤ 2 ^ 31 - 1)
    (hforecast : forecastCompaction d chunk selected request = .ok forecast)
    (hcompacts : forecast.compacts = true) :
    (∃ decoded, decompressChunk d chunk selected request none = .ok decoded ∧
        Kept d chunk selected request rows forecast decoded) ↔
      chunk.numRows = rows ∧ Drives d chunk selected request := by
  obtain ⟨henabled, hselecting, hranges, htotal, hcolumns⟩ :=
    guards_of_forecast hforecast hcompacts
  obtain ⟨capabilities, hready, hbounded⟩ := ready_of_forecastColumns hcolumns hcompacts
  have hsound : Sound d chunk selected request capabilities :=
    ⟨henabled, hselecting, hranges, htotal, hmembership, hwidth, hready,
      answers_of_forChunk hchunk⟩
  constructor
  · rintro ⟨decoded, hdecoded, hkept⟩
    by_contra hnot
    have hplain : ¬Drives d chunk selected request ∨
        ∀ index ∈ selected, ∀ column, chunk.columns[index]? = some column →
          column.numRows ≠ chunk.numRows := by
      rw [or_iff_not_imp_left, not_not]
      intro hdrives index hindex column hcolumn heq
      exact hnot ⟨heq.symm.trans (hrows index hindex column hcolumn), hdrives⟩
    obtain ⟨plain, hdecoded', hfull, hprofitable⟩ := hsound.plain_of_not hplain
    rw [hdecoded'] at hdecoded
    cases hdecoded
    rcases hkept.compacts with ⟨batch, hbatch, -⟩ | hunprofitable
    · rw [hfull] at hbatch
      cases hbatch
    · rw [hprofitable] at hunprofitable
      cases hunprofitable
  · rintro ⟨hnum, hdrives⟩
    have hkept := hsound.kept_of_drives hdrives
      (fun index hindex column hcolumn => (hrows index hindex column hcolumn).trans hnum.symm)
      (by omega) (by omega) fun hb => (hbounded hb).2
    rwa [hnum, Int.toNat_natCast] at hkept

/-! ## A column of four integers -/

/-- `cudf::size_of` of the integers, exact quotients and the default knobs. -/
def exampleDecoder : Decoder ℚ where
  sizeOf
    | .int32 | .uint32 => some 4
    | _ => none
  quotient survivors rows := survivors / rows
  enabled := true
  maxSelectivity := 7 / 20
  fullRouteMaxSelectivity := 1 / 10
  maxMembershipSources := 1

/-- A chunk of one bit-packed column with the values 0, 1, 2 and 3. -/
def fourRows (type : Hpln.TypeId) : Chunk where
  columns := [{
    dtype := ⟨type, 0⟩
    numRows := 4
    planTree := some { nodes := [
      { op := "input".toList },
      { op := "bitpack".toList, inputSources := [⟨0, 0⟩], rep := some ⟨false, ⟨type, 0⟩⟩ }] }
    lane := fun row => row }]

def rangeRequest (lo hi : ℤ) : Request where
  columns := [{ range := some ⟨lo, hi⟩ }]
  rangesCoverWholeFilter := true
  prefix_pos := by simp

/-- The third row is wanted: the chunk is forecast to compact, and it is compacted. -/
theorem forecast_kept_fourRows :
    ∃ decoded, decompressChunk exampleDecoder (fourRows .int32) [0] (rangeRequest 2 2) none =
        .ok decoded ∧
      Kept exampleDecoder (fourRows .int32) [0] (rangeRequest 2 2) 4 ⟨true, true⟩ decoded := by
  have hchunk : forChunk exampleDecoder (fourRows .int32) [0] (rangeRequest 2 2) =
      .ok (some (rangeRequest 2 2)) := rfl
  have hrows : ∀ index ∈ [0], ∀ column, (fourRows .int32).columns[index]? = some column →
      column.numRows = ((4 : ℕ) : ℤ) := by
    simp [fourRows]
  refine (forecast_kept_iff exampleDecoder hchunk (by decide) (by simp [rangeRequest]) hrows
    (by decide) (by decide) rfl rfl).mpr ⟨rfl, .inl ⟨0, ⟨2, 2⟩, rfl, by decide, 0,
      ⟨true, ⟨.bitpackMask, false, true⟩⟩, rfl, rfl, rfl⟩⟩

/-- The range `x >= 5 AND x <= 3` has no row, and an unsigned column does not compare. Both
    chunks are forecast to compact with a bounded number of survivors, and both are decoded
    plainly. -/
theorem empty_range_decoded_plainly :
    (forChunk exampleDecoder (fourRows .int32) [0] (rangeRequest 5 3) =
        .ok (some (rangeRequest 5 3)) ∧
      forecastCompaction exampleDecoder (fourRows .int32) [0] (rangeRequest 5 3) =
        .ok ⟨true, true⟩ ∧
      decompressChunk exampleDecoder (fourRows .int32) [0] (rangeRequest 5 3) none =
        .ok ⟨.full, 1, {}⟩) ∧
    forChunk exampleDecoder (fourRows .uint32) [0] (rangeRequest 2 2) =
        .ok (some (rangeRequest 2 2)) ∧
      forecastCompaction exampleDecoder (fourRows .uint32) [0] (rangeRequest 2 2) =
        .ok ⟨true, true⟩ ∧
      decompressChunk exampleDecoder (fourRows .uint32) [0] (rangeRequest 2 2) none =
        .ok ⟨.full, 1, {}⟩ :=
  ⟨⟨rfl, by decide, by decide⟩, rfl, by decide, by decide⟩

end Sirius.Compression.Pushdown
