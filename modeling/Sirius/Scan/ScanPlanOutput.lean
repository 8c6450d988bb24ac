import Sirius.Scan.ScanPlan

/-!
# The output of a scan plan

What `assemble_scan_output` returns for a plan that `build_scan_plan` made. A column of the file and
a virtual column are known by their primary index; the batch that a plan describes has the data
columns, then the virtual columns.

* `Built`: what holds of the maps and columns while a plan is built, kept by each position.
* `buildScanPlan_spec`: the output layout and the batch positions of a plan.
* `selectScanColumns_eq`, `assemble_loop`: the two ways the output is assembled.
* `scan_plan_output`: the output is what was requested.
-/

namespace Sirius.Scan.ScanPlan

open Sirius.Common

/-! ## What is requested -/

section Requested

variable (ids : ColumnIdentifiers) (request : Request)

/-- The request for a column: markers ask for nothing. -/
def requestOf (primaryIdx : ℕ) : Option OutputRequest :=
  if isVirtual ids request primaryIdx then
    if isMarker ids primaryIdx then none else some (.virtual primaryIdx)
  else if primaryIdx ∈ request.partitionIndices then some (.partition primaryIdx)
  else some (.data primaryIdx)

/-- The columns of the output, in order: all of `column_ids`, or the first of the projected ones. -/
def outputColumns : List ℕ :=
  if request.projectionIds = [] then request.columnIds
  else (request.projectionIds.take request.projectedOutputCount).filterMap fun position =>
    request.columnIds[position]?

/-- **The output that is requested.** -/
def requested : List OutputRequest := (outputColumns request).filterMap (requestOf ids request)

variable {Col : Type}

/-- The column that a request asks for: a column of the batch, or the constant of the partition. -/
def requestedColumn (makeConstant : MakeConstant Col) (content : ℕ → Col) (valueOf : ℕ → String)
    (rows : ℕ) : OutputRequest → Except ScanPlanError Col
  | .data key => .ok (content key)
  | .virtual key => .ok (content key)
  | .partition key => do
    let type ← at? request.returnedTypes key
    makeConstant type (valueOf key) rows

/-- The columns that the slots of the batch hold: the data columns, then the virtual columns. -/
def slots (plan : Plan) : List ℕ :=
  plan.dataColumns.map DataColumn.primaryIdx ++ plan.virtualColumns.map VirtualColumn.columnId

/-- The materialized batch that a plan describes. -/
def describedColumns (plan : Plan) (content : ℕ → Col) : List Col := (slots plan).map content

/-- The values of the partition columns, in the order of the plan. -/
def partitionValues (plan : Plan) (valueOf : ℕ → String) : List String :=
  plan.partitionColumns.map fun column => valueOf column.primaryIdx

end Requested

/-! ## The walk over the positions -/

theorem at?_eq_ok {α : Type} {xs : List α} {i : ℕ} {x : α} :
    at? xs i = .ok x ↔ xs[i]? = some x := by
  unfold at?
  cases xs[i]? <;> simp

theorem lookupAt_eq_ok {map : List (ℕ × ℕ)} {key value : ℕ} :
    lookupAt map key = .ok value ↔ map.lookup key = some value := by
  unfold lookupAt
  cases map.lookup key <;> simp

/-- The maps name the columns: a data column by its slot, a virtual column by its ordinal and a
    partition column with the type of the schema. -/
structure Maps (request : Request) (b : Building) : Prop where
  batch : ∀ p i, b.primaryToBatch.lookup p = some i →
    ∃ column, b.dataColumns[i]? = some column ∧ column.primaryIdx = p
  virtual : ∀ p v, b.virtualToOrdinal.lookup p = some v →
    ∃ column, b.virtualColumns[v]? = some column ∧ column.columnId = p
  partition : ∀ p k, b.primaryToPartition.lookup p = some k →
    ∃ column, b.partitionColumns[k]? = some column ∧ column.primaryIdx = p ∧
      request.returnedTypes[p]? = some column.type
  roles : b.dataRoles.length = b.dataColumns.length

/-- What the walk keeps. -/
structure Built (request : Request) (b : Building) : Prop extends Maps request b where
  materialized : b.materializedPrimaryIndices = b.dataColumns.map DataColumn.primaryIdx

section Walk

variable {ids : ColumnIdentifiers} {request : Request} {b b' : Building} {primaryIdx : ℕ}

theorem built_empty (request : Request) : Built request {} where
  batch := by simp
  virtual := by simp
  partition := by simp
  roles := rfl
  materialized := rfl

/-- Looking up in a map that was extended by the next index of a list that was extended too. -/
theorem lookup_extended {α : Type} {map : List (ℕ × ℕ)} {xs : List α} {key : ℕ} {x : α}
    {P : ℕ → α → Prop} (hx : P key x)
    (h : ∀ p i, map.lookup p = some i → ∃ y, xs[i]? = some y ∧ P p y) :
    ∀ p i, (map ++ [(key, xs.length)]).lookup p = some i →
      ∃ y, (xs ++ [x])[i]? = some y ∧ P p y := by
  intro p i hi
  rw [lookup_concat] at hi
  rcases Option.or_eq_some_iff.mp hi with hold | ⟨-, hnew⟩
  · obtain ⟨y, hy, hP⟩ := h p i hold
    refine ⟨y, ?_, hP⟩
    rw [List.getElem?_append_left (List.getElem?_eq_some_iff.mp hy).1, hy]
  · obtain ⟨hkey, heq⟩ := Option.ite_none_right_eq_some.mp hnew
    obtain rfl := Option.some.inj heq
    subst hkey
    exact ⟨x, by simp, hx⟩

theorem addVirtual_built {column : BoundVirtualColumn} (hb : Built request b)
    (h : addVirtual ids b column primaryIdx = .ok b') :
    Built request b' ∧ b'.outputRequests = b.outputRequests := by
  unfold addVirtual at h
  split_ifs at h with hknown
  · obtain rfl := pure_eq_ok.mp h
    exact ⟨hb, rfl⟩
  · obtain ⟨kind, -, h⟩ := bind_eq_ok.mp h
    obtain ⟨-, h⟩ := ite_error_eq_ok.mp h
    obtain rfl := pure_eq_ok.mp h
    exact ⟨{ hb with virtual := lookup_extended rfl hb.virtual }, rfl⟩

theorem addPartition_built (hb : Built request b) (h : addPartition request b primaryIdx = .ok b') :
    Built request b' ∧ b'.outputRequests = b.outputRequests := by
  unfold addPartition at h
  split_ifs at h with hknown
  · obtain rfl := pure_eq_ok.mp h
    exact ⟨hb, rfl⟩
  · obtain ⟨name, -, h⟩ := bind_eq_ok.mp h
    obtain ⟨type, htype, h⟩ := bind_eq_ok.mp h
    obtain rfl := pure_eq_ok.mp h
    refine ⟨{ hb with partition := ?_ }, rfl⟩
    exact lookup_extended ⟨rfl, at?_eq_ok.mp htype⟩ hb.partition

theorem addData_built {isOutput : Bool} (hb : Built request b)
    (h : addData request b primaryIdx isOutput = .ok b') :
    Built request b' ∧ b'.outputRequests = b.outputRequests := by
  unfold addData at h
  cases hknown : b.primaryToBatch.lookup primaryIdx with
  | some slot =>
    simp only [hknown] at h
    obtain rfl := pure_eq_ok.mp h
    split_ifs
    · exact ⟨{ hb with roles := by rw [List.length_set]; exact hb.roles }, rfl⟩
    · exact ⟨hb, rfl⟩
  | none =>
    simp only [hknown] at h
    obtain ⟨name, -, h⟩ := bind_eq_ok.mp h
    obtain rfl := pure_eq_ok.mp h
    refine ⟨{ hb with batch := lookup_extended rfl hb.batch, roles := ?_, materialized := ?_ }, rfl⟩
    · simp [hb.roles]
    · simp [hb.materialized]

/-- A request is recorded when it is an output. -/
theorem addRequest_built (output : OutputRequest) (isOutput : Bool) (hb : Built request b) :
    Built request (addRequest b isOutput output) ∧
      (addRequest b isOutput output).outputRequests
        = b.outputRequests ++ (if isOutput then [output] else []) := by
  unfold addRequest
  split_ifs
  · exact ⟨{ hb with }, rfl⟩
  · exact ⟨hb, (List.append_nil _).symm⟩

/-- The request that a position makes. -/
def positionRequest (ids : ColumnIdentifiers) (request : Request) (position : ℕ × Bool) :
    Option OutputRequest :=
  if position.2 then request.columnIds[position.1]? >>= requestOf ids request else none

/-- **One position**: the maps stay right and the request is recorded. -/
theorem handlePosition_built {position : ℕ × Bool} (hb : Built request b)
    (h : handlePosition ids request b position = .ok b') :
    Built request b' ∧
      b'.outputRequests = b.outputRequests ++ (positionRequest ids request position).toList := by
  unfold handlePosition at h
  obtain ⟨primaryIdx, hprimary, h⟩ := bind_eq_ok.mp h
  have hget := at?_eq_ok.mp hprimary
  have hrequest : ∀ output, requestOf ids request primaryIdx = some output →
      (positionRequest ids request position).toList = if position.2 then [output] else [] := by
    intro output houtput
    unfold positionRequest
    split_ifs
    · rw [hget]
      show (requestOf ids request primaryIdx).toList = _
      rw [houtput]
      rfl
    · rfl
  split_ifs at h with hvirtual hmarker hpartition houtput
  · obtain rfl := pure_eq_ok.mp h
    have hnone : positionRequest ids request position = none := by
      unfold positionRequest
      rw [hget]
      show (if position.2 then requestOf ids request primaryIdx else none) = none
      simp [requestOf, hvirtual, hmarker]
    rw [hnone]
    exact ⟨hb, (List.append_nil _).symm⟩
  · cases hdefinition : definition request primaryIdx with
    | none =>
      rw [hdefinition] at h
      cases h
    | some column =>
      simp only [hdefinition] at h
      obtain ⟨b₁, hadd, h⟩ := bind_eq_ok.mp h
      obtain rfl := pure_eq_ok.mp h
      obtain ⟨hb₁, hrequests⟩ := addVirtual_built hb hadd
      obtain ⟨hb', heq⟩ := addRequest_built (.virtual primaryIdx) position.2 hb₁
      refine ⟨hb', ?_⟩
      rw [heq, hrequests, hrequest (.virtual primaryIdx) (by simp [requestOf, hvirtual, hmarker])]
  · obtain rfl := pure_eq_ok.mp h
    have hnone : positionRequest ids request position = none := by
      unfold positionRequest
      rw [if_neg (by simpa using houtput)]
    rw [hnone]
    exact ⟨hb, (List.append_nil _).symm⟩
  · obtain ⟨b₁, hadd, h⟩ := bind_eq_ok.mp h
    obtain rfl := pure_eq_ok.mp h
    obtain ⟨hb₁, hrequests⟩ := addPartition_built hb hadd
    obtain ⟨hb', heq⟩ := addRequest_built (.partition primaryIdx) position.2 hb₁
    refine ⟨hb', ?_⟩
    rw [heq, hrequests,
      hrequest (.partition primaryIdx) (by simp [requestOf, hvirtual, hpartition])]
  · obtain ⟨b₁, hadd, h⟩ := bind_eq_ok.mp h
    obtain rfl := pure_eq_ok.mp h
    obtain ⟨hb₁, hrequests⟩ := addData_built hb hadd
    obtain ⟨hb', heq⟩ := addRequest_built (.data primaryIdx) position.2 hb₁
    refine ⟨hb', ?_⟩
    rw [heq, hrequests, hrequest (.data primaryIdx) (by simp [requestOf, hvirtual, hpartition])]

/-- **The whole walk.** -/
theorem walk_built {walk : List (ℕ × Bool)} (hb : Built request b)
    (h : walk.foldlM (handlePosition ids request) b = .ok b') :
    Built request b' ∧
      b'.outputRequests = b.outputRequests ++ walk.filterMap (positionRequest ids request) := by
  induction walk generalizing b with
  | nil =>
    obtain rfl := pure_eq_ok.mp h
    exact ⟨hb, by simp⟩
  | cons position walk ih =>
    rw [List.foldlM_cons] at h
    obtain ⟨b₁, hstep, hrest⟩ := bind_eq_ok.mp h
    obtain ⟨hb₁, hrequests⟩ := handlePosition_built hb hstep
    obtain ⟨hb', heq⟩ := ih hb₁ hrest
    refine ⟨hb', ?_⟩
    rw [heq, hrequests, List.append_assoc, List.filterMap_cons]
    cases positionRequest ids request position <;> rfl

theorem filterMap_zipIdx_take {α β : Type} (g : α → Option β) (n : ℕ) (xs : List α) (k : ℕ) :
    (xs.zipIdx k).filterMap (fun p => if p.2 < n then g p.1 else none)
      = (xs.take (n - k)).filterMap g := by
  induction xs generalizing k with
  | nil => simp
  | cons x xs ih =>
    rw [List.zipIdx_cons, List.filterMap_cons, ih]
    by_cases hk : k < n
    · rw [if_pos hk, show n - k = n - (k + 1) + 1 by omega, List.take_succ_cons,
        List.filterMap_cons]
    · rw [if_neg hk, show n - k = 0 by omega, show n - (k + 1) = 0 by omega]
      rfl

theorem map_getElem?_range {α : Type} (xs : List α) :
    (List.range xs.length).map (fun i => xs[i]?) = xs.map some := by
  apply List.ext_getElem?
  intro i
  rw [List.getElem?_map, List.getElem?_map]
  by_cases hi : i < xs.length
  · rw [List.getElem?_range hi, List.getElem?_eq_getElem hi]
    simp [List.getElem?_eq_getElem hi]
  · rw [List.getElem?_eq_none (by simpa using hi), List.getElem?_eq_none (by omega)]
    rfl

/-- The walk requests what is requested. -/
theorem filterMap_positions (ids : ColumnIdentifiers) (request : Request) :
    (positions request).filterMap (positionRequest ids request) = requested ids request := by
  unfold positions requested outputColumns
  split_ifs
  · rw [List.filterMap_map]
    have hrange : ∀ columnIds : List ℕ, (List.range columnIds.length).filterMap
        (fun c => columnIds[c]? >>= requestOf ids request)
        = columnIds.filterMap (requestOf ids request) := by
      intro columnIds
      have hmap : (List.range columnIds.length).filterMap
          (fun c => columnIds[c]? >>= requestOf ids request)
          = ((List.range columnIds.length).map fun c => columnIds[c]?).filterMap
            fun column => column >>= requestOf ids request := by
        rw [List.filterMap_map]
        rfl
      rw [hmap, map_getElem?_range, List.filterMap_map]
      rfl
    exact hrange request.columnIds
  · rw [List.filterMap_map, List.filterMap_filterMap]
    have htake := filterMap_zipIdx_take
      (fun position => request.columnIds[position]? >>= requestOf ids request)
      request.projectedOutputCount request.projectionIds 0
    rw [Nat.sub_zero] at htake
    have hleft : (positionRequest ids request ∘
        fun p : ℕ × ℕ => (p.1, decide (p.2 < request.projectedOutputCount)))
        = fun p => if p.2 < request.projectedOutputCount then
          request.columnIds[p.1]? >>= requestOf ids request else none := by
      funext p
      simp [positionRequest]
    rw [hleft, htake]
    rfl

end Walk

/-! ## The finished plan -/

section Finish

variable {ids : ColumnIdentifiers} {request : Request} {b b' : Building} {plan : Plan}

theorem withCarrier_built {chosen : Option ℕ} (hb : Built request b)
    (h : withCarrier request b chosen = .ok b') :
    Built request b' ∧ b'.outputRequests = b.outputRequests := by
  cases chosen with
  | none =>
    obtain rfl := Except.ok.inj h
    exact ⟨hb, rfl⟩
  | some primaryIdx =>
    unfold withCarrier addCarrier at h
    obtain ⟨name, -, h⟩ := bind_eq_ok.mp h
    obtain rfl := pure_eq_ok.mp h
    refine ⟨{ hb with batch := ?_, roles := ?_, materialized := ?_ }, rfl⟩
    · intro p i hi
      rw [List.lookup_cons] at hi
      by_cases hp : p = primaryIdx
      · subst hp
        rw [beq_self_eq_true] at hi
        obtain rfl := Option.some.inj hi
        exact ⟨⟨p, name⟩, by simp, rfl⟩
      · rw [beq_false_of_ne hp] at hi
        obtain ⟨column, hcolumn, heq⟩ := hb.batch p i hi
        refine ⟨column, ?_, heq⟩
        rw [List.getElem?_append_left (List.getElem?_eq_some_iff.mp hcolumn).1, hcolumn]
    · simp [hb.roles]
    · simp [hb.materialized]

/-- A building whose virtual columns are in their slots. -/
structure Placed (request : Request) (b : Building) : Prop extends Maps request b where
  slot : ∀ v column, b.virtualColumns[v]? = some column →
    column.materializedIdx = b.dataColumns.length + v
  materialized : b.materializedPrimaryIndices
    = b.dataColumns.map DataColumn.primaryIdx ++ b.virtualColumns.map VirtualColumn.columnId

/-- The virtual columns take the slots after the data columns. -/
theorem placeVirtual_placed (hb : Built request b) : Placed request (placeVirtual b) := by
  refine { hb with virtual := ?_, slot := ?_, materialized := ?_ }
  · intro p v hv
    obtain ⟨column, hcolumn, heq⟩ := hb.virtual p v hv
    refine ⟨{ column with materializedIdx := b.dataColumns.length + v }, ?_, heq⟩
    simp only [placeVirtual, List.getElem?_mapIdx, hcolumn]
    rfl
  · intro v column hcolumn
    simp only [placeVirtual, List.getElem?_mapIdx] at hcolumn
    obtain ⟨source, -, rfl⟩ := Option.map_eq_some_iff.mp hcolumn
    rfl
  · show b.materializedPrimaryIndices ++ _ = _
    rw [hb.materialized]
    congr 1
    apply List.ext_getElem?
    intro v
    simp only [placeVirtual, List.getElem?_map, List.getElem?_mapIdx, Option.map_map]
    rfl

/-- What an entry of the output layout is for a request. -/
def EntryFor (request : Request) (plan : Plan) : OutputRequest → OutputEntry → Prop
  | .data p, .data i => (slots plan)[i]? = some p
  | .virtual p, .data i => plan.dataColumns.length ≤ i ∧ (slots plan)[i]? = some p
  | .partition p, .partition k => ∃ column, plan.partitionColumns[k]? = some column ∧
      column.primaryIdx = p ∧ request.returnedTypes[p]? = some column.type
  | _, _ => False

/-- The columns of a plan are those of a building. -/
structure ColumnsOf (plan : Plan) (b : Building) : Prop where
  data : plan.dataColumns = b.dataColumns
  virtual : plan.virtualColumns = b.virtualColumns
  partition : plan.partitionColumns = b.partitionColumns

theorem slots_data (hp : ColumnsOf plan b) {i : ℕ} {column : DataColumn}
    (h : b.dataColumns[i]? = some column) : (slots plan)[i]? = some column.primaryIdx := by
  obtain ⟨hi, rfl⟩ := List.getElem?_eq_some_iff.mp h
  rw [slots, hp.data, List.getElem?_append_left (by simpa using hi)]
  simp [h]

theorem slots_virtual (hp : ColumnsOf plan b) {v : ℕ} {column : VirtualColumn}
    (h : b.virtualColumns[v]? = some column) :
    (slots plan)[b.dataColumns.length + v]? = some column.columnId := by
  rw [slots, hp.data, hp.virtual, List.getElem?_append_right (by simp)]
  simp [h]

/-- Each request gets its entry. -/
theorem outputEntry_for (hb : Placed request b) (hp : ColumnsOf plan b) {output : OutputRequest}
    {entry : OutputEntry} (h : outputEntry b output = .ok entry) :
    EntryFor request plan output entry := by
  cases output with
  | data key =>
    obtain ⟨i, hi, h⟩ := bind_eq_ok.mp h
    obtain rfl := pure_eq_ok.mp h
    obtain ⟨column, hcolumn, rfl⟩ := hb.batch key i (lookupAt_eq_ok.mp hi)
    exact slots_data hp hcolumn
  | partition key =>
    obtain ⟨k, hk, h⟩ := bind_eq_ok.mp h
    obtain rfl := pure_eq_ok.mp h
    obtain ⟨column, hcolumn, hkey, htype⟩ := hb.partition key k (lookupAt_eq_ok.mp hk)
    exact ⟨column, hp.partition ▸ hcolumn, hkey, htype⟩
  | virtual key =>
    obtain ⟨v, hv, h⟩ := bind_eq_ok.mp h
    obtain ⟨found, hfound, h⟩ := bind_eq_ok.mp h
    obtain rfl := pure_eq_ok.mp h
    obtain ⟨column, hcolumn, rfl⟩ := hb.virtual key v (lookupAt_eq_ok.mp hv)
    obtain rfl := Option.some.inj ((at?_eq_ok.mp hfound).symm.trans hcolumn)
    show _ ≤ found.materializedIdx ∧ (slots plan)[found.materializedIdx]? = some found.columnId
    rw [hb.slot v found hcolumn, hp.data]
    exact ⟨Nat.le_add_right _ v, slots_virtual hp hcolumn⟩

/-- A defined batch position holds the column. -/
theorem batchPosition_slot (hb : Placed request b) (hp : ColumnsOf plan b) {p : ℕ}
    {position : Option ℕ} (h : batchPosition b p = .ok position) {i : ℕ} (hi : position = some i) :
    (slots plan)[i]? = some p := by
  unfold batchPosition at h
  cases hv : b.virtualToOrdinal.lookup p with
  | some v =>
    simp only [hv] at h
    obtain ⟨found, hfound, h⟩ := bind_eq_ok.mp h
    obtain ⟨column, hcolumn, rfl⟩ := hb.virtual p v hv
    obtain rfl := Option.some.inj ((at?_eq_ok.mp hfound).symm.trans hcolumn)
    obtain rfl := Option.some.inj ((pure_eq_ok.mp h).trans hi)
    rw [hb.slot v found hcolumn]
    exact slots_virtual hp hcolumn
  | none =>
    simp only [hv] at h
    obtain ⟨column, hcolumn, rfl⟩ := hb.batch p i ((pure_eq_ok.mp h).trans hi)
    exact slots_data hp hcolumn

/-- What a plan says about the request that it was built for. -/
structure Planned (ids : ColumnIdentifiers) (request : Request) (plan : Plan) : Prop where
  layout : List.Forall₂ (EntryFor request plan) (requested ids request) plan.outputLayout
  positions : List.Forall₂ (fun p position => ∀ i, position = some i → (slots plan)[i]? = some p)
    request.columnIds plan.batchPositionByColumnId
  materialized : plan.materializedPrimaryIndices = slots plan
  roles : plan.dataRoles.length = plan.dataColumns.length
  outputs : plan.outputDataPositions = plan.outputLayout.filterMap dataPosition
  identity : plan.outputIsIdentity → plan.partitionColumns = [] ∧
    plan.outputLayout = (List.range plan.outputLayout.length).map .data

/-- **A plan describes its request.** -/
theorem buildScanPlan_spec (h : buildScanPlan ids request = .ok plan) :
    Planned ids request plan := by
  unfold buildScanPlan at h
  obtain ⟨walked, hwalk, h⟩ := bind_eq_ok.mp h
  obtain ⟨carried, hcarried, h⟩ := bind_eq_ok.mp h
  obtain ⟨-, h⟩ := ite_error_eq_ok.mp h
  obtain ⟨outputLayout, hlayout, h⟩ := bind_eq_ok.mp h
  obtain ⟨batchPositions, hpositions, h⟩ := bind_eq_ok.mp h
  obtain rfl := pure_eq_ok.mp h
  obtain ⟨hwalked, hrequests⟩ := walk_built (built_empty request) hwalk
  obtain ⟨hcarriedBuilt, hsame⟩ := withCarrier_built hwalked hcarried
  have hplaced := placeVirtual_placed hcarriedBuilt
  have houtput : (placeVirtual carried).outputRequests = requested ids request := by
    rw [← filterMap_positions]
    exact hsame.trans (hrequests.trans (List.nil_append _))
  rw [houtput] at hlayout
  refine { layout := ?_, positions := ?_, materialized := hplaced.materialized,
           roles := hplaced.roles, outputs := rfl, identity := ?_ }
  · refine (forall₂_of_mapM_eq_ok hlayout).imp fun _ _ hentry => ?_
    exact outputEntry_for hplaced ⟨rfl, rfl, rfl⟩ hentry
  · refine (forall₂_of_mapM_eq_ok hpositions).imp fun _ _ hposition i hi => ?_
    exact batchPosition_slot hplaced ⟨rfl, rfl, rfl⟩ hposition hi
  · intro hidentity
    obtain ⟨hpartition, -, -, hrange⟩ := of_decide_eq_true hidentity
    exact ⟨hpartition, hrange⟩

end Finish

/-! ## Selecting columns -/

section Select

variable {Col : Type} {columns : List Col}

/-- The positions after a prefix that repeat nothing before them. -/
def newPositions (done positions : List ℕ) : List ℕ :=
  ((positions.zipIdx done.length).filter fun p => p.1 ∉ (done ++ positions).take p.2).map Prod.fst

theorem newPositions_cons (done : List ℕ) (position : ℕ) (positions : List ℕ) :
    newPositions done (position :: positions)
      = (if position ∈ done then [] else [position])
        ++ newPositions (done ++ [position]) positions := by
  unfold newPositions
  rw [List.zipIdx_cons, List.filter_cons, List.take_left, List.length_append,
    List.append_assoc]
  by_cases hmem : position ∈ done
  · simp [hmem]
  · simp [hmem]

theorem newPositions_nodup (done positions : List ℕ) :
    (newPositions done positions).Nodup ∧ ∀ p ∈ newPositions done positions, p ∉ done := by
  induction positions generalizing done with
  | nil => exact ⟨List.nodup_nil, fun p hp => absurd hp List.not_mem_nil⟩
  | cons position positions ih =>
    obtain ⟨hnodup, hnew⟩ := ih (done ++ [position])
    have hdone : ∀ p ∈ newPositions (done ++ [position]) positions, p ∉ done :=
      fun p hp hmem => hnew p hp (List.mem_append_left _ hmem)
    rw [newPositions_cons]
    split_ifs with hmem
    · exact ⟨hnodup, hdone⟩
    · refine ⟨List.nodup_cons.mpr ⟨fun hrest => ?_, hnodup⟩, ?_⟩
      · exact hnew position hrest (List.mem_append_right _ List.mem_cons_self)
      · exact List.forall_mem_cons.mpr ⟨hmem, hdone⟩

variable {positions : List ℕ}

/-- The copies of the repeated positions and the selected others make up the columns. -/
theorem fillSlots_new {xs : List Col} (done : List ℕ)
    (h : List.Forall₂ (fun position x => columns[position]? = some x) positions xs) :
    ∃ copies selected,
      (positions.zipIdx done.length).mapM (fun p => if p.1 ∈ (done ++ positions).take p.2
        then some <$> at? columns p.1 else .ok none) = .ok copies ∧
      (newPositions done positions).mapM (at? columns) = .ok selected ∧
      fillSlots copies selected = .ok xs := by
  induction h generalizing done with
  | nil => exact ⟨[], [], rfl, rfl, rfl⟩
  | @cons position x positions xs hx _ ih =>
    obtain ⟨copies, selected, hcopies, hselected, hfill⟩ := ih (done ++ [position])
    rw [List.append_assoc, List.length_append] at hcopies
    have hat : at? columns position = .ok x := at?_eq_ok.mpr hx
    rw [newPositions_cons, List.zipIdx_cons, List.mapM_cons]
    by_cases hmem : position ∈ done
    · refine ⟨some x :: copies, selected, ?_, ?_, ?_⟩
      · refine bind_eq_ok.mpr ⟨some x, ?_, bind_eq_ok.mpr ⟨copies, hcopies, rfl⟩⟩
        rw [List.take_left, if_pos hmem, hat]
        rfl
      · rw [if_pos hmem]
        exact hselected
      · exact bind_eq_ok.mpr ⟨xs, hfill, rfl⟩
    · refine ⟨none :: copies, x :: selected, ?_, ?_, ?_⟩
      · refine bind_eq_ok.mpr ⟨none, ?_, bind_eq_ok.mpr ⟨copies, hcopies, rfl⟩⟩
        rw [List.take_left, if_neg hmem]
      · rw [if_neg hmem, List.singleton_append, List.mapM_cons, hat, ok_bind, hselected]
        rfl
      · exact bind_eq_ok.mpr ⟨xs, hfill, rfl⟩

/-- When nothing repeats, nothing is left out. -/
theorem nodup_of_firstOccurrences
    (h : (firstOccurrences positions).length = positions.length) : positions.Nodup := by
  have hsub : (firstOccurrences positions).Sublist positions := by
    have hzip := (List.filter_sublist (l := positions.zipIdx)
      (p := fun p => p.1 ∉ positions.take p.2)).map Prod.fst
    rw [List.zipIdx_map_fst] at hzip
    exact hzip
  rw [← hsub.eq_of_length h]
  exact (newPositions_nodup [] positions).1

theorem selectColumns_eq {xs : List Col} (hnodup : positions.Nodup)
    (h : positions.mapM (at? columns) = .ok xs) : selectColumns columns positions = .ok xs := by
  unfold selectColumns
  rw [h, ok_bind, if_neg (not_not.mpr hnodup)]
  rfl

/-- **`select_scan_columns` selects the positions, in order and with repeats.** -/
theorem selectScanColumns_eq {xs : List Col}
    (h : List.Forall₂ (fun position x => columns[position]? = some x) positions xs) :
    selectScanColumns columns positions = .ok xs := by
  unfold selectScanColumns
  by_cases hlength : (firstOccurrences positions).length = positions.length
  · rw [if_pos hlength]
    refine selectColumns_eq (nodup_of_firstOccurrences hlength) (mapM_eq_ok_of_forall₂ ?_)
    exact h.imp fun _ _ hx => at?_eq_ok.mpr hx
  · obtain ⟨copies, selected, hcopies, hselected, hfill⟩ := fillSlots_new [] h
    have hselect : selectColumns columns (firstOccurrences positions) = .ok selected :=
      selectColumns_eq (newPositions_nodup [] positions).1 hselected
    rw [if_neg hlength]
    refine bind_eq_ok.mpr ⟨copies, hcopies, ?_⟩
    exact bind_eq_ok.mpr ⟨selected, hselect, hfill⟩

end Select

/-! ## Assembling a partitioned plan -/

section Loop

variable {Col : Type} {request : Request} {plan : Plan} {makeConstant : MakeConstant Col}
  {content : ℕ → Col} {valueOf : ℕ → String} {rows : ℕ} {s : Assembly Col}

/-- A slot that was put into the output is found there; the others still hold their columns. -/
structure Assembled (plan : Plan) (content : ℕ → Col) (s : Assembly Col) : Prop where
  put : ∀ i p first, (slots plan)[i]? = some p → s.firstDataOutput.lookup i = some first →
    s.output[first]? = some (content p)
  held : ∀ i p, (slots plan)[i]? = some p → s.firstDataOutput.lookup i = none →
    s.dataColumns[i]? = some (some (content p))

theorem assembled_start (plan : Plan) (content : ℕ → Col) : Assembled plan content
    { dataColumns := (describedColumns plan content).map some } where
  put := by simp
  held := by
    intro i p hp _
    simp [describedColumns, hp]

/-- A longer output keeps what was put. -/
theorem Assembled.extend (hs : Assembled plan content s) (column : Col) :
    Assembled plan content { s with output := s.output ++ [column] } where
  put := by
    intro i p first hp hfirst
    have hput := hs.put i p first hp hfirst
    rw [List.getElem?_append_left (List.getElem?_eq_some_iff.mp hput).1, hput]
  held := hs.held

/-- Moving a slot into the output. -/
theorem Assembled.move (hs : Assembled plan content s) {i p : ℕ} (hp : (slots plan)[i]? = some p)
    (hnew : s.firstDataOutput.lookup i = none) :
    Assembled plan content {
      dataColumns := s.dataColumns.set i none
      output := s.output ++ [content p]
      firstDataOutput := s.firstDataOutput ++ [(i, s.output.length)] } where
  put := by
    intro j q first hq hfirst
    rw [lookup_concat] at hfirst
    rcases Option.or_eq_some_iff.mp hfirst with hold | ⟨-, hlast⟩
    · exact (hs.extend (content p)).put j q first hq hold
    · obtain ⟨hij, heq⟩ := Option.ite_none_right_eq_some.mp hlast
      obtain rfl := Option.some.inj heq
      subst hij
      obtain rfl := Option.some.inj (hp.symm.trans hq)
      simp
  held := by
    intro j q hq hfirst
    rw [lookup_concat] at hfirst
    obtain ⟨hold, hlast⟩ := Option.or_eq_none_iff.mp hfirst
    have hij : i ≠ j := by
      rintro rfl
      simp at hlast
    rw [List.getElem?_set_ne hij]
    exact hs.held j q hq hold

/-- A slot is put into the output, moved the first time and copied later. -/
theorem assembleEntry_data {i p : ℕ} {values : List String} (hs : Assembled plan content s)
    (hp : (slots plan)[i]? = some p) :
    ∃ s', assembleEntry makeConstant plan values rows s (.data i) = .ok s' ∧
      s'.output = s.output ++ [content p] ∧ Assembled plan content s' := by
  cases hfirst : s.firstDataOutput.lookup i with
  | none =>
    refine ⟨_, ?_, rfl, hs.move hp hfirst⟩
    simp only [assembleEntry, hfirst]
    rw [at?_eq_ok.mpr (hs.held i p hp hfirst)]
    rfl
  | some first =>
    refine ⟨_, ?_, rfl, hs.extend (content p)⟩
    simp only [assembleEntry, hfirst]
    rw [at?_eq_ok.mpr (hs.put i p first hp hfirst)]
    rfl

variable (makeConstant valueOf rows)

/-- **One entry** appends the column that is requested, or fails as making it does. -/
theorem assembleEntry_spec {output : OutputRequest} {entry : OutputEntry}
    (hs : Assembled plan content s) (h : EntryFor request plan output entry) :
    (∃ e, requestedColumn request makeConstant content valueOf rows output = .error e ∧
      assembleEntry makeConstant plan (partitionValues plan valueOf) rows s entry = .error e) ∨
    (∃ column s', requestedColumn request makeConstant content valueOf rows output = .ok column ∧
      assembleEntry makeConstant plan (partitionValues plan valueOf) rows s entry = .ok s' ∧
      s'.output = s.output ++ [column] ∧ Assembled plan content s') := by
  cases output with
  | data key =>
    cases entry with
    | data i =>
      obtain ⟨s', hassemble, houtput, hs'⟩ := assembleEntry_data hs h
      exact .inr ⟨content key, s', rfl, hassemble, houtput, hs'⟩
    | partition k => exact h.elim
  | virtual key =>
    cases entry with
    | data i =>
      obtain ⟨s', hassemble, houtput, hs'⟩ := assembleEntry_data hs h.2
      exact .inr ⟨content key, s', rfl, hassemble, houtput, hs'⟩
    | partition k => exact h.elim
  | partition key =>
    cases entry with
    | data i => exact h.elim
    | partition k =>
      obtain ⟨column, hcolumn, rfl, htype⟩ := h
      have hvalue : (partitionValues plan valueOf)[k]? = some (valueOf column.primaryIdx) := by
        simp [partitionValues, hcolumn]
      have hrequested : requestedColumn request makeConstant content valueOf rows
          (.partition column.primaryIdx)
          = makeConstant column.type (valueOf column.primaryIdx) rows := by
        simp only [requestedColumn]
        rw [at?_eq_ok.mpr htype, ok_bind]
      have hassemble : assembleEntry makeConstant plan (partitionValues plan valueOf) rows s
          (.partition k) = (do
            let constant ← makeConstant column.type (valueOf column.primaryIdx) rows
            return { s with output := s.output ++ [constant] }) := by
        simp only [assembleEntry]
        rw [at?_eq_ok.mpr hcolumn, ok_bind, at?_eq_ok.mpr hvalue, ok_bind]
      rw [hrequested, hassemble]
      cases makeConstant column.type (valueOf column.primaryIdx) rows with
      | error e => exact .inl ⟨e, rfl, rfl⟩
      | ok constant => exact .inr ⟨constant, _, rfl, rfl, rfl, hs.extend constant⟩

/-- **The whole loop** appends the requested columns. -/
theorem assemble_loop {outputs : List OutputRequest} {layout : List OutputEntry}
    (hs : Assembled plan content s) (h : List.Forall₂ (EntryFor request plan) outputs layout) :
    (do
      let assembled ← layout.foldlM
        (assembleEntry makeConstant plan (partitionValues plan valueOf) rows) s
      return assembled.output)
    = (do
      let columns ← outputs.mapM (requestedColumn request makeConstant content valueOf rows)
      return s.output ++ columns) := by
  induction h generalizing s with
  | nil =>
    show Except.ok s.output = Except.ok (s.output ++ [])
    rw [List.append_nil]
  | @cons output entry outputs layout hentry _ ih =>
    rw [List.foldlM_cons, List.mapM_cons]
    obtain ⟨e, hrequested, hassemble⟩ | ⟨column, s', hrequested, hassemble, houtput, hs'⟩ :=
      assembleEntry_spec makeConstant valueOf rows hs hentry
    · rw [hrequested, hassemble]
      rfl
    · rw [hrequested, hassemble, ok_bind, ok_bind, ih hs', houtput]
      cases outputs.mapM (requestedColumn request makeConstant content valueOf rows) with
      | error e => rfl
      | ok columns =>
        show Except.ok (s.output ++ [column] ++ columns)
          = Except.ok (s.output ++ (column :: columns))
        rw [List.append_assoc, List.singleton_append]

end Loop

/-! ## The output of a plan -/

section Output

variable {Col : Type} {ids : ColumnIdentifiers} {request : Request} {plan : Plan}

/-- The assembled output of the batch that a plan describes. -/
def planOutput (makeConstant : MakeConstant Col) (content : ℕ → Col) (valueOf : ℕ → String)
    (rows : ℕ) (plan : Plan) : Except ScanPlanError (List Col) :=
  assembleScanOutput makeConstant plan ⟨describedColumns plan content, rows⟩
    (partitionValues plan valueOf)

variable {makeConstant : MakeConstant Col} {content : ℕ → Col} {valueOf : ℕ → String} {rows : ℕ}

/-- Without partitions every request is a slot of the batch. -/
theorem slots_of_layout {outputs : List OutputRequest} {layout : List OutputEntry}
    (hpartition : plan.partitionColumns = [])
    (h : List.Forall₂ (EntryFor request plan) outputs layout) :
    ∃ xs, List.Forall₂ (fun position x => (describedColumns plan content)[position]? = some x)
        (layout.map OutputEntry.idx) xs ∧
      outputs.mapM (requestedColumn request makeConstant content valueOf rows) = .ok xs := by
  induction h with
  | nil => exact ⟨[], .nil, rfl⟩
  | @cons output entry outputs layout hentry _ ih =>
    obtain ⟨xs, hslots, hrequested⟩ := ih
    have hhead : ∃ key, (slots plan)[entry.idx]? = some key ∧
        requestedColumn request makeConstant content valueOf rows output = .ok (content key) := by
      cases output with
      | data key =>
        cases entry with
        | data i => exact ⟨key, hentry, rfl⟩
        | partition k => exact hentry.elim
      | virtual key =>
        cases entry with
        | data i => exact ⟨key, hentry.2, rfl⟩
        | partition k => exact hentry.elim
      | partition key =>
        cases entry with
        | data i => exact hentry.elim
        | partition k =>
          obtain ⟨column, hcolumn, -⟩ := hentry
          simp [hpartition] at hcolumn
    obtain ⟨key, hslot, hcolumn⟩ := hhead
    refine ⟨content key :: xs, .cons ?_ hslots, ?_⟩
    · simp [describedColumns, hslot]
    · rw [List.mapM_cons, hcolumn, ok_bind, hrequested]
      rfl

/-- **The output is what was requested.** -/
theorem planOutput_requested (h : Planned ids request plan) (hsome : requested ids request ≠ []) :
    planOutput makeConstant content valueOf rows plan
      = (requested ids request).mapM
        (requestedColumn request makeConstant content valueOf rows) := by
  have hlayout : plan.outputLayout ≠ [] := by
    intro hnil
    have hempty := h.layout
    rw [hnil] at hempty
    exact hsome (List.forall₂_nil_right_iff.mp hempty)
  unfold planOutput assembleScanOutput
  rw [if_neg hlayout]
  by_cases hpartition : plan.partitionColumns = []
  · rw [if_pos hpartition]
    obtain ⟨xs, hslots, hrequested⟩ := slots_of_layout hpartition h.layout
    rw [hrequested]
    exact selectScanColumns_eq hslots
  · rw [if_neg hpartition]
    have hstart := assembled_start plan content
    refine (assemble_loop makeConstant valueOf rows hstart h.layout).trans ?_
    cases (requested ids request).mapM
        (requestedColumn request makeConstant content valueOf rows) with
    | error e => rfl
    | ok columns => rfl

theorem planOutput_empty (h : Planned ids request plan) (hnone : requested ids request = []) :
    planOutput makeConstant content valueOf rows plan = .ok (describedColumns plan content) := by
  have hlayout := h.layout
  rw [hnone] at hlayout
  unfold planOutput assembleScanOutput
  rw [if_pos (List.forall₂_nil_left_iff.mp hlayout)]

theorem forall₂_range {xs : List Col} :
    List.Forall₂ (fun position x => xs[position]? = some x) (List.range xs.length) xs := by
  rw [List.forall₂_iff_get]
  refine ⟨List.length_range, ?_⟩
  intro i hi hi'
  simp

/-- **A batch that needs no assembly is its own output**, unless a virtual column was only made for
    a filter. -/
theorem planOutput_identity (h : Planned ids request plan)
    (hvirtual : ∀ column ∈ plan.virtualColumns, OutputRequest.virtual column.columnId ∈ requested ids request)
    (hneeds : needsOutputAssembly plan = false) :
    planOutput makeConstant content valueOf rows plan = .ok (describedColumns plan content) := by
  unfold planOutput assembleScanOutput
  by_cases hlayout : plan.outputLayout = []
  · rw [if_pos hlayout]
  unfold needsOutputAssembly at hneeds
  rw [if_neg hlayout, Bool.or_eq_false_iff] at hneeds
  obtain ⟨hidentity, hlength⟩ := hneeds
  obtain ⟨hpartition, hrange⟩ := h.identity (by simpa using hidentity)
  have hcount : plan.outputLayout.length = plan.dataColumns.length := by
    have hpositions : plan.outputDataPositions = List.range plan.outputLayout.length := by
      rw [h.outputs, hrange, List.filterMap_map]
      simp [dataPosition, Function.comp_def]
    rw [← h.roles]
    simpa [hpositions] using hlength
  have hnone : plan.virtualColumns = [] := by
    rw [List.eq_nil_iff_forall_not_mem]
    intro column hcolumn
    -- the entry of a virtual column lies past the data columns, the identity does not
    obtain ⟨k, hk⟩ := List.mem_iff_getElem?.mp (hvirtual column hcolumn)
    obtain ⟨entry, hentry, hfor⟩ := forall₂_getElem? h.layout hk
    rw [hrange, List.getElem?_map] at hentry
    obtain ⟨i, hi, rfl⟩ := Option.map_eq_some_iff.mp hentry
    have hlt := List.mem_range.mp (List.mem_of_getElem? hi)
    have hle := hfor.1
    omega
  have hwidth : (describedColumns plan content).length = plan.outputLayout.length := by
    simp [describedColumns, slots, hnone, hcount]
  have hidx : plan.outputLayout.map OutputEntry.idx
      = List.range (describedColumns plan content).length := by
    rw [hwidth]
    nth_rewrite 1 [hrange]
    simp [OutputEntry.idx, Function.comp_def]
  rw [if_neg hlayout, if_pos hpartition, hidx]
  exact selectScanColumns_eq forall₂_range

/-- **The output of a plan.** For every request for which a plan is built, the assembled output of
    the batch that the plan describes is the requested columns in order, or the batch itself when no
    column is requested; every defined batch position holds the column; and a batch that needs no
    assembly is its own output when no virtual column was made only for a filter. -/
theorem scan_plan_output (hplan : buildScanPlan ids request = .ok plan)
    (makeConstant : MakeConstant Col) (content : ℕ → Col) (valueOf : ℕ → String) (rows : ℕ) :
    plan.materializedPrimaryIndices = slots plan ∧
    (requested ids request ≠ [] → planOutput makeConstant content valueOf rows plan
      = (requested ids request).mapM
        (requestedColumn request makeConstant content valueOf rows)) ∧
    (requested ids request = [] → planOutput makeConstant content valueOf rows plan
      = .ok (describedColumns plan content)) ∧
    List.Forall₂ (fun p position => ∀ i, position = some i → (slots plan)[i]? = some p)
      request.columnIds plan.batchPositionByColumnId ∧
    ((∀ column ∈ plan.virtualColumns, OutputRequest.virtual column.columnId ∈ requested ids request) →
      needsOutputAssembly plan = false →
      planOutput makeConstant content valueOf rows plan = .ok (describedColumns plan content)) := by
  have h := buildScanPlan_spec hplan
  exact ⟨h.materialized, planOutput_requested h, planOutput_empty h, h.positions,
    planOutput_identity h⟩

/-- The identifiers as DuckDB defines them. -/
def duckdbIds : ColumnIdentifiers where
  isVirtualColumn p := 2 ^ 63 ≤ p
  rowId := 2 ^ 64 - 1
  empty := 2 ^ 64 - 2
  filename := 2 ^ 63
  fileIndex := 2 ^ 63 + 2
  fileRowNumber := 2 ^ 63 + 1

/-- Two data columns and a partition column; the output repeats the first column, has the partition
    and the file name, and the second column is only filtered on. -/
def mixedRequest : Request where
  columnIds := [0, 1, 2, 2 ^ 63]
  projectionIds := [0, 2, 3, 0, 1]
  names := ["a", "b", "year"]
  returnedTypes := [⟨.integer, 0, "INTEGER"⟩, ⟨.varchar, 0, "VARCHAR"⟩, ⟨.bigint, 0, "BIGINT"⟩]
  projectedOutputCount := 4
  partitionIndices := [2]
  virtualColumns := [⟨2 ^ 63, "filename", ⟨.varchar, 0, "VARCHAR"⟩, none⟩]

/-- A column that shows what it holds. -/
def shownConstant : MakeConstant String := fun _ value _ => .ok value

theorem scan_plan_output_mixedRequest : ∃ plan, buildScanPlan duckdbIds mixedRequest = .ok plan ∧
    requested duckdbIds mixedRequest = [.data 0, .partition 2, .virtual (2 ^ 63), .data 0] ∧
    planOutput shownConstant toString (fun _ => "2024") 3 plan
      = (requested duckdbIds mixedRequest).mapM
        (requestedColumn mixedRequest shownConstant toString (fun _ => "2024") 3) ∧
    (requested duckdbIds mixedRequest).mapM
        (requestedColumn mixedRequest shownConstant toString (fun _ => "2024") 3)
      = .ok ["0", "2024", "9223372036854775808", "0"] := by
  refine ⟨_, rfl, by decide, ?_, by decide +kernel⟩
  exact (scan_plan_output rfl shownConstant toString (fun _ => "2024") 3).2.1 (by decide)

/-- `SELECT count(*)` over a file with one column. -/
def countRequest : Request where
  columnIds := [2 ^ 64 - 1]
  projectionIds := []
  names := ["a"]
  returnedTypes := [⟨.integer, 0, "INTEGER"⟩]
  projectedOutputCount := 0
  partitionIndices := []

/-- Nothing is requested, and the column that carries the row count is returned. -/
theorem countRequest_keeps_carrier : ∃ plan, buildScanPlan duckdbIds countRequest = .ok plan ∧
    requested duckdbIds countRequest = [] ∧
    planOutput shownConstant toString (fun _ => "") 3 plan = .ok ["0"] ∧
    planOutput shownConstant toString (fun _ => "") 3 plan
      ≠ (requested duckdbIds countRequest).mapM
        (requestedColumn countRequest shownConstant toString (fun _ => "") 3) := by
  refine ⟨_, rfl, by decide, by decide +kernel, by decide +kernel⟩

end Output

end Sirius.Scan.ScanPlan
