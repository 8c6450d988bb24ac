import Sirius.Compression.ScanPushdown

/-!
# Chunks whose columns all decode compacted

What the decode of src/compression/compressed_scan.cpp plans for a chunk all of whose
selected columns have a compacted route, under a request without join filters: the
configuration, the sources and the request of wave 1.

* `Evaluates`: the decode evaluates a range on its column.
* `ready_of_forecastColumns`: a forecast that compacts has looked at every selected column.
* `mem_readyWave_filters`, `mem_readyWave_bool8Filters`: the sources of wave 1 are the
  ranges that are evaluated and the equalities of the request.
* `length_readySources_le`: there are no more of them than the forecast counts.
-/

namespace Sirius.Compression.Pushdown

open Sirius.Common

variable {F : Type} (d : Decoder F)

/-- The decode evaluates the range at a selected position. -/
def Evaluates (chunk : Chunk) (selected : List ℕ) (i : ℕ) (range : DecodeRange) : Prop :=
  range.lo ≤ range.hi ∧ ∃ index capability, selected[i]? = some index ∧
    probeColumn d chunk index = .ok capability ∧ capability.canSelectRows

/-! ## What a forecast says of the plans -/

/-- The column at an index has a plan that decodes compacted. -/
def Ready (chunk : Chunk) (index : ℕ) (capability : Capability) : Prop :=
  ∃ column tree, chunk.columns[index]? = some column ∧ column.planTree = some tree ∧
    probePlan d tree = .ok capability.decode ∧
    capability.comparableLane = comparableType column.dtype.id ∧
    capability.decode.compactRoute ≠ .full

variable {d} {chunk : Chunk} {selected : List ℕ} {request : Request}

theorem Ready.probeColumn {index : ℕ} {capability : Capability}
    (h : Ready d chunk index capability) : probeColumn d chunk index = .ok capability := by
  obtain ⟨column, tree, hcolumn, htree, hprobe, hlane, -⟩ := h
  simp only [Pushdown.probeColumn, hcolumn, htree, hprobe, Except.map, ← hlane]

/-- A plan that decodes compacted has no nulls. -/
theorem validity_of_probePlan {tree : PlanTree} {caps : DecodeCaps}
    (h : probePlan d tree = .ok caps) (hroute : caps.compactRoute ≠ .full) :
    tree.validity = .allValid := by
  by_contra hnull
  simp only [probePlan, if_pos hnull, Except.ok.injEq] at h
  subst h
  exact hroute rfl

/-- The loop of the forecast: every column is ready, and if the survivors are bounded none
    goes through a dictionary. -/
theorem ready_of_forecastColumns {i : ℕ} {unbounded producer : Bool} {forecast : Forecast}
    (h : forecastColumns d chunk request i selected unbounded producer = .ok forecast)
    (hcompacts : forecast.compacts = true) :
    ∃ capabilities, List.Forall₂ (Ready d chunk) selected capabilities ∧
      (forecast.survivorsBounded = true → unbounded = false ∧
        ∀ c ∈ capabilities, c.decode.compactRoute ≠ .dictCodes) := by
  induction selected generalizing i unbounded producer with
  | nil =>
    simp only [forecastColumns, Except.ok.injEq] at h
    split_ifs at h
    · subst h
      refine ⟨[], .nil, fun hbounded => ⟨by simpa using hbounded, by simp⟩⟩
    · subst h
      cases hcompacts
  | cons index rest ih =>
    simp only [forecastColumns] at h
    split at h
    · cases h
      cases hcompacts
    · next tree htree =>
      obtain ⟨column, hcolumn, hplan⟩ := Option.bind_eq_some_iff.mp htree
      obtain ⟨caps, hcaps, h⟩ := bind_eq_ok.mp h
      split_ifs at h with hfull
      · cases h
        cases hcompacts
      · obtain ⟨capabilities, hready, hbound⟩ := ih h
        refine ⟨⟨comparableType column.dtype.id, caps⟩ :: capabilities,
          .cons ⟨column, tree, hcolumn, hplan, hcaps, rfl, hfull⟩ hready, ?_⟩
        intro hbounded
        obtain ⟨hflags, hrest⟩ := hbound hbounded
        simp only [Bool.or_eq_false_iff, decide_eq_false_iff_not] at hflags
        refine ⟨hflags.1.1, ?_⟩
        intro c hc
        rcases List.mem_cons.mp hc with rfl | hc
        · exact hflags.1.2
        · exact hrest c hc

/-- What the guards of a forecast that compacts passed. -/
theorem guards_of_forecast {forecast : Forecast}
    (h : forecastCompaction d chunk selected request = .ok forecast)
    (hcompacts : forecast.compacts = true) :
    d.enabled = true ∧ request.rowSelectionDisabled = false ∧
      (request.columns.any fun entry => entry.range.isSome) = true ∧
      request.totalSources ≤ kMaxSelectionSources ∧
      forecastColumns d chunk request 0 selected false false = .ok forecast := by
  have hfalse : ∀ {p : Prop}, (Except.ok {} : Except Halt Forecast) = .ok forecast → p := by
    intro p heq
    cases heq
    cases hcompacts
  simp only [forecastCompaction] at h
  split_ifs at h with henabled hdisabled hcovers hany htotal
  all_goals first | exact hfalse h | skip
  simp only [Bool.not_eq_true, Bool.not_eq_false'] at henabled hdisabled hany
  exact ⟨henabled, hdisabled, hany, Nat.not_lt.mp htotal, h⟩

/-! ## The configuration of a ready chunk -/

/-- The slots of the ranges when the selected columns have these capabilities. -/
def slots (request : Request) (capabilities : List Capability) : List RangeSlot :=
  capabilities.mapIdx fun i c => rangeSlot (request.rangeAt i) c

variable {capabilities : List Capability}

theorem getElem?_slots (i : ℕ) :
    (slots request capabilities)[i]? =
      capabilities[i]?.map fun c => rangeSlot (request.rangeAt i) c := by
  rw [slots, List.getElem?_mapIdx]

theorem rangeSlot_selects {range : Option DecodeRange} {capability : Capability} :
    (rangeSlot range capability).selects = true ↔
      ∃ bounds, range = some bounds ∧ bounds.lo ≤ bounds.hi ∧ capability.canSelectRows = true := by
  cases range with
  | none => simp [rangeSlot]
  | some bounds =>
    simp only [rangeSlot, Option.some.injEq, exists_eq_left']
    split_ifs with hempty hcannot
    · simp [hempty]
    · simp only [Bool.not_eq_true'] at hcannot
      simp [hcannot]
    · simp only [Bool.not_eq_true', Bool.not_eq_false] at hcannot
      simp only [hcannot, and_true, true_iff]
      exact Int.not_lt.mp hempty

theorem rangeSlot_bounds {bounds : DecodeRange} (capability : Capability) :
    (rangeSlot (some bounds) capability).bounds = bounds := by
  simp only [rangeSlot]
  split_ifs <;> rfl

/-- A slot selects rows just where the decode evaluates the range. -/
theorem selects_iff (hready : List.Forall₂ (Ready d chunk) selected capabilities) (i : ℕ)
    (bounds : DecodeRange) :
    (∃ slot, (slots request capabilities)[i]? = some slot ∧ slot.selects = true ∧
        slot.bounds = bounds) ↔
      request.rangeAt i = some bounds ∧ Evaluates d chunk selected i bounds := by
  constructor
  · rintro ⟨slot, hslot, hselects, rfl⟩
    rw [getElem?_slots, Option.map_eq_some_iff] at hslot
    obtain ⟨capability, hcapability, rfl⟩ := hslot
    obtain ⟨bounds, hrange, hlo, hcan⟩ := rangeSlot_selects.mp hselects
    obtain ⟨index, hindex, hcolumn⟩ := forall₂_getElem? hready.flip hcapability
    rw [hrange, rangeSlot_bounds]
    exact ⟨rfl, hlo, index, capability, hindex, Ready.probeColumn hcolumn, hcan⟩
  · rintro ⟨hrange, hlo, index, capability, hindex, hprobe, hcan⟩
    obtain ⟨capability', hcapability, hready⟩ := forall₂_getElem? hready hindex
    rw [hready.probeColumn] at hprobe
    cases hprobe
    refine ⟨rangeSlot (some bounds) capability, ?_,
      rangeSlot_selects.mpr ⟨bounds, rfl, hlo, hcan⟩, rangeSlot_bounds capability⟩
    rw [getElem?_slots, hcapability, hrange]
    rfl

/-- The configuration of a ready chunk. -/
def readyConfig (request : Request) (capabilities : List Capability) : Config where
  enabled := true
  coversWholeFilter := request.rangesCoverWholeFilter &&
    !(slots request capabilities).any RangeSlot.dropped &&
    decide (0 < (slots request capabilities).countP RangeSlot.selects)
  ranges := slots request capabilities
  routes := capabilities.map fun c => c.decode.compactRoute

theorem buildChunkPushdownConfig_eq
    (hready : List.Forall₂ (Ready d chunk) selected capabilities)
    (hany : (request.columns.any fun entry => entry.range.isSome) = true)
    (hwidth : request.columns.length ≤ selected.length) (external : Bool) :
    buildChunkPushdownConfig d chunk selected request external =
      .ok (if (slots request capabilities).countP RangeSlot.selects = 0 ∧ external = false then {}
        else readyConfig request capabilities) := by
  have hprobes : selected.mapM (probeColumn d chunk) = .ok capabilities :=
    mapM_eq_ok_of_forall₂ (hready.imp fun _ _ h => h.probeColumn)
  rw [buildChunkPushdownConfig, hany, if_neg (by simp), if_neg (Nat.not_lt.mpr hwidth), hprobes,
    ok_bind]
  by_cases hnone : (slots request capabilities).countP RangeSlot.selects = 0 ∧ external = false
  · rw [if_pos hnone]
    exact if_pos (by simpa [slots] using hnone)
  · rw [if_neg hnone]
    exact if_neg (by simpa [slots] using hnone)

/-! ## The sources of a request without join filters -/

variable (hmembership : ∀ entry ∈ request.columns, entry.membership = [])
  (hwidth : request.columns.length ≤ selected.length)

include hmembership hwidth in
/-- Without join filters, the sources that are no ranges are the equalities. -/
theorem externalSources_eq :
    externalSources request selected.length =
      (request.columns.zipIdx.filter fun p => !p.1.equalsAny.isEmpty).map
        fun p => Source.equality p.2 := by
  have hall : request.columns.zipIdx.take selected.length = request.columns.zipIdx :=
    List.take_of_length_le (by rwa [List.length_zipIdx])
  rw [externalSources, hall]
  have hmem : ∀ p ∈ request.columns.zipIdx, p.1.membership = [] := fun p hp =>
    hmembership p.1 (List.fst_mem_of_mem_zipIdx hp)
  generalize request.columns.zipIdx = entries at hmem
  induction entries with
  | nil => rfl
  | cons p rest ih =>
    rw [List.flatMap_cons, ih fun q hq => hmem q (List.mem_cons_of_mem p hq),
      hmem p List.mem_cons_self, List.filter_cons]
    cases p.1.equalsAny <;> rfl

/-- The source is no join filter. -/
def Source.Exact : Source → Prop
  | .membership _ _ => False
  | _ => True

def Source.equalityColumn : Source → Option ℕ
  | .equality column => some column
  | _ => none

/-- The sources of a ready chunk, in the order in which they are collected. -/
def readySources (selected : List ℕ) (request : Request) (capabilities : List Capability) :
    List Source :=
  externalSources request selected.length ++ rangeSources (readyConfig request capabilities)

theorem mem_rangeSources {config : Config} {source : Source} :
    source ∈ rangeSources config ↔
      ∃ i slot, config.ranges[i]? = some slot ∧ slot.selects = true ∧ source = .range i := by
  simp only [rangeSources, List.mem_filterMap, List.mem_zipIdx_iff_getElem?, Prod.exists]
  constructor
  · rintro ⟨slot, i, hslot, hsome⟩
    split_ifs at hsome with hselects
    exact ⟨i, slot, hslot, hselects, (Option.some.inj hsome).symm⟩
  · rintro ⟨i, slot, hslot, hselects, rfl⟩
    exact ⟨slot, i, hslot, if_pos hselects⟩

include hmembership hwidth in
theorem mem_externalSources {source : Source} :
    source ∈ externalSources request selected.length ↔
      ∃ i entry, request.columns[i]? = some entry ∧ entry.equalsAny ≠ [] ∧
        source = .equality i := by
  simp only [externalSources_eq hmembership hwidth, List.mem_map, List.mem_filter, Prod.exists,
    List.mem_zipIdx_iff_getElem?, Bool.not_eq_true', List.isEmpty_eq_false_iff]
  constructor
  · rintro ⟨entry, i, ⟨hentry, hany⟩, rfl⟩
    exact ⟨i, entry, hentry, hany, rfl⟩
  · rintro ⟨i, entry, hentry, hany, rfl⟩
    exact ⟨entry, i, ⟨hentry, hany⟩, rfl⟩

include hmembership hwidth in
theorem readySources_exact : ∀ s ∈ readySources selected request capabilities, s.Exact := by
  intro s hs
  rcases List.mem_append.mp hs with hs | hs
  · obtain ⟨i, entry, -, -, rfl⟩ := (mem_externalSources hmembership hwidth).mp hs
    trivial
  · obtain ⟨i, slot, -, -, rfl⟩ := mem_rangeSources.mp hs
    trivial

/-- Sources that are no join filters stay in the order in which they were collected. -/
theorem insertionSort_exact {sources : List Source} (h : ∀ s ∈ sources, s.Exact) :
    (sources.insertionSort fun a b => a.orderKey ≤ b.orderKey) = sources := by
  apply List.Pairwise.insertionSort_eq
  have hkey : ∀ s ∈ sources, s.orderKey = toLex (-1, 0) := by
    intro s hs
    have hexact := h s hs
    cases s with
    | range i => rfl
    | equality i => rfl
    | membership i probe => exact hexact.elim
  refine List.pairwise_of_forall_mem_list fun a ha b hb => ?_
  rw [hkey a ha, hkey b hb]

theorem countP_selects_le (columns : List ColumnEntry) (capabilities : List Capability) :
    (capabilities.mapIdx fun i c =>
        rangeSlot ((columns[i]?).bind ColumnEntry.range) c).countP RangeSlot.selects ≤
      columns.countP fun entry => entry.range.isSome := by
  induction capabilities generalizing columns with
  | nil => exact Nat.zero_le _
  | cons c cs ih =>
    rw [List.mapIdx_cons, List.countP_cons]
    cases columns with
    | nil => simp [rangeSlot]
    | cons entry rest =>
      have hrest := ih rest
      have hfirst : (rangeSlot entry.range c).selects = true → entry.range.isSome = true := by
        intro hselects
        obtain ⟨bounds, hrange, -⟩ := rangeSlot_selects.mp hselects
        rw [hrange]
        rfl
      simp only [List.getElem?_cons_zero, List.getElem?_cons_succ, Option.bind_some,
        List.countP_cons]
      split_ifs with h1 h2
      · omega
      · exact absurd (hfirst h1) h2
      · omega
      · omega

theorem length_rangeSources (config : Config) :
    (rangeSources config).length = config.ranges.countP RangeSlot.selects := by
  rw [rangeSources, List.length_filterMap_eq_countP]
  have hfst : config.ranges.countP RangeSlot.selects =
      config.ranges.zipIdx.countP (RangeSlot.selects ∘ Prod.fst) := by
    rw [← List.countP_map, List.zipIdx_map_fst]
  rw [hfst]
  apply List.countP_congr
  rintro p -
  simp only [Function.comp]
  split_ifs with h <;> simp [h]

include hmembership hwidth in
/-- A decode carries no more sources than the forecast counts. -/
theorem length_readySources_le :
    (readySources selected request capabilities).length ≤ request.totalSources := by
  have hexternal : (externalSources request selected.length).length =
      request.columns.countP fun entry => !entry.equalsAny.isEmpty := by
    rw [externalSources_eq hmembership hwidth, List.length_map, ← List.countP_eq_length_filter]
    conv_rhs => rw [← List.zipIdx_map_fst 0 request.columns, List.countP_map]
    rfl
  have hranges := countP_selects_le request.columns capabilities
  have htotal : request.totalSources = (request.columns.countP fun entry => entry.range.isSome) +
      request.columns.countP fun entry => !entry.equalsAny.isEmpty := by
    unfold Request.totalSources
    clear hwidth hexternal hranges
    generalize request.columns = columns at hmembership
    induction columns with
    | nil => rfl
    | cons entry rest ih =>
      rw [List.map_cons, List.sum_cons, ih fun e he => hmembership e (List.mem_cons_of_mem _ he),
        hmembership entry List.mem_cons_self, List.countP_cons, List.countP_cons]
      cases entry.equalsAny <;> cases entry.range <;> simp <;> omega
  rw [readySources, List.length_append, length_rangeSources, hexternal, htotal]
  have hslots : (readyConfig request capabilities).ranges.countP RangeSlot.selects ≤
      request.columns.countP fun entry => entry.range.isSome := hranges
  omega

/-! ## The request of wave 1 -/

section Wave

variable {config : Config} {sources : List Source} {keepMask : Option (ℕ × (ℕ → Bool))}

theorem mem_filters {i : ℕ} {bounds : DecodeRange} :
    (i, bounds) ∈ (waveRequest selected request config sources keepMask).filters ↔
      Source.range i ∈ sources ∧ bounds = (config.ranges[i]?.getD {}).bounds := by
  simp only [waveRequest, List.mem_filterMap]
  constructor
  · rintro ⟨source, hsource, hsome⟩
    cases source with
    | range j =>
      cases hsome
      exact ⟨hsource, rfl⟩
    | equality j => cases hsome
    | membership j probe => cases hsome
  · rintro ⟨hsource, rfl⟩
    exact ⟨.range i, hsource, rfl⟩

theorem mem_bool8Filters {i : ℕ} {values : List String} :
    (i, values) ∈ (waveRequest selected request config sources keepMask).bool8Filters ↔
      Source.equality i ∈ sources ∧ values = (request.columns[i]?.getD {}).equalsAny := by
  simp only [waveRequest, List.mem_filterMap]
  constructor
  · rintro ⟨source, hsource, hsome⟩
    cases source with
    | equality j =>
      cases hsome
      exact ⟨hsource, rfl⟩
    | range j => cases hsome
    | membership j probe => cases hsome
  · rintro ⟨hsource, rfl⟩
    exact ⟨.equality i, hsource, rfl⟩

theorem map_fst_bool8Filters :
    (waveRequest selected request config sources keepMask).bool8Filters.map Prod.fst =
      sources.filterMap Source.equalityColumn := by
  simp only [waveRequest]
  induction sources with
  | nil => rfl
  | cons source rest ih =>
    cases source with
    | equality i =>
      simp only [List.filterMap_cons, List.map_cons, Source.equalityColumn]
      rw [ih]
    | range i => exact ih
    | membership i probe => exact ih

/-- Every source that is no join filter becomes a range or an equality. -/
theorem length_waveRequest (h : ∀ s ∈ sources, s.Exact) :
    (waveRequest selected request config sources keepMask).filters.length +
        (waveRequest selected request config sources keepMask).bool8Filters.length =
      sources.length ∧
    (waveRequest selected request config sources keepMask).membershipFilters = [] := by
  simp only [waveRequest]
  induction sources with
  | nil => exact ⟨rfl, rfl⟩
  | cons source rest ih =>
    obtain ⟨hlength, hmember⟩ := ih fun s hs => h s (List.mem_cons_of_mem _ hs)
    have hexact := h source List.mem_cons_self
    cases source with
    | range _ | equality _ =>
      simp only [List.filterMap_cons, List.length_cons] at hlength ⊢
      exact ⟨by omega, hmember⟩
    | membership i probe => exact hexact.elim

end Wave

/-- The request of wave 1 on a ready chunk. -/
def readyWave (selected : List ℕ) (request : Request) (capabilities : List Capability) :
    ScanFilterRequest :=
  waveRequest selected request (readyConfig request capabilities)
    (readySources selected request capabilities) none

section Ready

theorem length_readyWave (capabilities : List Capability)
    (hmembership : ∀ entry ∈ request.columns, entry.membership = [])
    (hwidth : request.columns.length ≤ selected.length) :
    (readyWave selected request capabilities).filters.length +
        (readyWave selected request capabilities).bool8Filters.length =
      (readySources selected request capabilities).length ∧
    (readyWave selected request capabilities).membershipFilters = [] :=
  length_waveRequest (readySources_exact hmembership hwidth)

variable (hready : List.Forall₂ (Ready d chunk) selected capabilities)

include hmembership hwidth hready in
/-- The ranges of wave 1 are those that the decode evaluates. -/
theorem mem_readyWave_filters {i : ℕ} {bounds : DecodeRange} :
    (i, bounds) ∈ (readyWave selected request capabilities).filters ↔
      request.rangeAt i = some bounds ∧ Evaluates d chunk selected i bounds := by
  rw [← selects_iff hready, readyWave, mem_filters, readySources, List.mem_append,
    mem_externalSources hmembership hwidth, mem_rangeSources]
  constructor
  · rintro ⟨⟨j, entry, -, -, heq⟩ | ⟨j, slot, hslot, hselects, heq⟩, hbounds⟩
    · cases heq
    · cases heq
      refine ⟨slot, hslot, hselects, ?_⟩
      rw [hbounds, hslot]
      rfl
  · rintro ⟨slot, hslot, hselects, rfl⟩
    refine ⟨.inr ⟨i, slot, hslot, hselects, rfl⟩, ?_⟩
    rw [show (readyConfig request capabilities).ranges[i]? = some slot from hslot]
    rfl

include hmembership hwidth in
/-- The equalities of wave 1 are those of the request. -/
theorem mem_readyWave_bool8Filters {i : ℕ} {values : List String} :
    (i, values) ∈ (readyWave selected request capabilities).bool8Filters ↔
      ∃ entry, request.columns[i]? = some entry ∧ entry.equalsAny ≠ [] ∧
        values = entry.equalsAny := by
  rw [readyWave, mem_bool8Filters, readySources, List.mem_append,
    mem_externalSources hmembership hwidth, mem_rangeSources]
  constructor
  · rintro ⟨⟨j, entry, hentry, hany, heq⟩ | ⟨j, slot, -, -, heq⟩, hvalues⟩
    · cases heq
      refine ⟨entry, hentry, hany, ?_⟩
      rw [hvalues, hentry]
      rfl
    · cases heq
  · rintro ⟨entry, hentry, hany, rfl⟩
    refine ⟨.inl ⟨i, entry, hentry, hany, rfl⟩, ?_⟩
    rw [hentry]
    rfl

include hmembership hwidth in
/-- No column has two equalities. -/
theorem nodup_bool8Filters :
    ((readyWave selected request capabilities).bool8Filters.map Prod.fst).Nodup := by
  have hranges : (rangeSources (readyConfig request capabilities)).filterMap
      Source.equalityColumn = [] := by
    apply List.filterMap_eq_nil_iff.mpr
    intro source hsource
    obtain ⟨i, slot, -, -, rfl⟩ := mem_rangeSources.mp hsource
    rfl
  rw [readyWave, map_fst_bool8Filters, readySources, List.filterMap_append, hranges,
    List.append_nil, externalSources_eq hmembership hwidth, List.filterMap_map]
  change (List.filterMap (some ∘ Prod.snd) _).Nodup
  rw [List.filterMap_eq_map]
  refine List.Sublist.nodup (List.Sublist.map _ List.filter_sublist) ?_
  rw [List.zipIdx_map_snd]
  exact List.nodup_range'

include hready in
theorem probeAt_eq {i : ℕ} {c : Capability} (hc : capabilities[i]? = some c) :
    probeAt d chunk selected i = .ok c.decode := by
  obtain ⟨index, hindex, column, tree, hcolumn, htree, hprobe, -, -⟩ :=
    forall₂_getElem? hready.flip hc
  simp only [probeAt, columnAt, hindex, Option.bind_some, hcolumn, htree, hprobe]

include hready in
/-- A position whose range is evaluated has a plan that ballots. -/
theorem canProduceMask_of_evaluates {i : ℕ} {bounds : DecodeRange}
    (h : Evaluates d chunk selected i bounds) :
    ∃ c, capabilities[i]? = some c ∧ c.decode.canProduceMask = true := by
  obtain ⟨-, index, capability, hindex, hprobe, hcan⟩ := h
  obtain ⟨c, hc, hcolumn⟩ := forall₂_getElem? hready hindex
  rw [hcolumn.probeColumn] at hprobe
  cases hprobe
  exact ⟨_, hc, ((Bool.and_eq_true _ _).mp hcan).2⟩

include hmembership hwidth hready in
/-- The sources of the ranges ask for the route of their plan anyhow. -/
theorem effectiveRoutes_readyWave :
    effectiveRoutes (readyWave selected request capabilities) =
      capabilities.map fun c => c.decode.compactRoute := by
  apply List.ext_getElem?
  intro i
  have hroutes : (readyWave selected request capabilities).routes =
      capabilities.map fun c => c.decode.compactRoute := rfl
  rw [effectiveRoutes, List.getElem?_mapIdx, hroutes, List.getElem?_map]
  cases hi : capabilities[i]? with
  | none => rfl
  | some c =>
    simp only [Option.map_some, Option.some.injEq]
    split_ifs with hfilter
    · obtain ⟨⟨j, bounds⟩, hmem, rfl⟩ := List.mem_map.mp hfilter
      have hevaluates := ((mem_readyWave_filters hmembership hwidth hready).mp hmem).2
      obtain ⟨c', hc', hmask⟩ := canProduceMask_of_evaluates hready hevaluates
      rw [hi] at hc'
      cases hc'
      exact (of_decide_eq_true ((Bool.and_eq_true _ _).mp hmask).1).symm
    · rfl

/-- The equalities of the request are among those that the chunk answers. -/
def Answers (d : Decoder F) (chunk : Chunk) (selected : List ℕ) (request : Request) : Prop :=
  ∀ (i : ℕ) (entry : ColumnEntry), request.columns[i]? = some entry → entry.equalsAny ≠ [] →
    ∃ index capability, selected[i]? = some index ∧
      probeColumn d chunk index = .ok capability ∧ capability.decode.canAnswerEquality = true

end Ready

end Sirius.Compression.Pushdown
