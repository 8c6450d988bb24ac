import Sirius.Common.Assoc
import Sirius.Common.Checked

/-!
# The scan plan

Model of `build_scan_plan`, `needs_output_assembly`, `select_scan_columns` and
`assemble_scan_output` (src/op/scan/scan_plan.cpp:90-220 and 257-503). A plan places the requested
columns through three index spaces: the position in `column_ids`, the slot of the materialized batch
and the slot of the output. The identifiers of the virtual columns are DuckDB's, and the constant
column of a partition value is made by DuckDB and cuDF; both are parameters.

* `buildScanPlan`: the plan for the requested columns.
* `selectScanColumns`, `assembleScanOutput`: the output from the materialized batch.
* `requested`: the output columns that are asked for, in order.
-/

namespace Sirius.Scan.ScanPlan

open Sirius.Common

/-! ## Types (src/helper/logical_type.hpp) -/

/-- `sirius::type_id`. -/
inductive TypeId where
  | invalid | sqlnull | boolean | tinyint | smallint | integer | bigint | hugeint
  | utinyint | usmallint | uinteger | ubigint | uhugeint | float | double | date
  | timestampSec | timestampMs | timestamp | timestampNs | varchar | struct | list | array | decimal
  deriving DecidableEq, Repr

/-- `sirius::logical_type`, with the text that `to_string` gives it. -/
structure LogicalType where
  id : TypeId
  precision : ℕ := 0
  text : String
  deriving DecidableEq, Repr

/-- `is_fixed_width`. -/
def LogicalType.isFixedWidth (type : LogicalType) : Bool :=
  type.id ≠ .varchar ∧ type.id ≠ .struct ∧ type.id ≠ .list ∧ type.id ≠ .array ∧
    type.id ≠ .sqlnull ∧ type.id ≠ .invalid

/-- `fixed_width_byte_size`, for the types of fixed width. -/
def LogicalType.fixedWidthByteSize (type : LogicalType) : ℕ :=
  match type.id with
  | .boolean | .tinyint | .utinyint => 1
  | .smallint | .usmallint => 2
  | .integer | .uinteger | .float | .date => 4
  | .decimal => if type.precision ≤ 9 then 4 else if type.precision ≤ 18 then 8 else 16
  | .hugeint => 16
  | .bigint | .ubigint | .uhugeint | .double | .timestampSec | .timestampMs | .timestamp
  | .timestampNs => 8
  | _ => 0

/-! ## Plans -/

/-- The column identifiers of DuckDB: which are virtual, the two markers, and the virtual columns of
    a multi-file reader. -/
structure ColumnIdentifiers where
  isVirtualColumn : ℕ → Bool
  rowId : ℕ
  empty : ℕ
  filename : ℕ
  fileIndex : ℕ
  fileRowNumber : ℕ

/-- `parquet_virtual_column_kind`. -/
inductive VirtualKind where
  | filename
  | fileIndex
  | fileRowNumber
  deriving DecidableEq, Repr

/-- A column that is read from the file. -/
structure DataColumn where
  primaryIdx : ℕ
  name : String
  deriving DecidableEq, Repr

/-- A column whose value is in the path of the file. -/
structure PartitionColumn where
  primaryIdx : ℕ
  name : String
  type : LogicalType
  deriving DecidableEq, Repr

/-- A virtual column, with its slot in the batch. -/
structure VirtualColumn where
  columnId : ℕ
  name : String
  type : LogicalType
  kind : VirtualKind
  materializedIdx : ℕ
  deriving DecidableEq, Repr

/-- `scan_column_layout::data_role`. -/
inductive DataRole where
  | output
  | filterOnly
  | rowCountCarrier
  deriving DecidableEq, Repr

/-- `output_entry`: a slot of the materialized batch, or a partition column. -/
inductive OutputEntry where
  | data (idx : ℕ)
  | partition (idx : ℕ)
  deriving DecidableEq, Repr

/-- The slot or the number of the partition column. -/
def OutputEntry.idx : OutputEntry → ℕ
  | data idx => idx
  | partition idx => idx

/-- `scan_plan`, with its `scan_column_layout`. -/
structure Plan where
  dataColumns : List DataColumn
  partitionColumns : List PartitionColumn
  virtualColumns : List VirtualColumn
  outputLayout : List OutputEntry
  dataRoles : List DataRole
  outputDataPositions : List ℕ
  materializedPrimaryIndices : List ℕ
  outputPrefixWidth : Option ℕ
  outputIsIdentity : Bool
  batchPositionByColumnId : List (Option ℕ)
  partitionPrimaryIndices : List ℕ
  needsReaderProjection : Bool
  carrierBatchIndex : Option ℕ

/-- `bound_virtual_column`. -/
structure BoundVirtualColumn where
  columnId : ℕ
  name : String
  type : LogicalType
  kind : Option VirtualKind
  deriving DecidableEq, Repr

/-- The arguments of `build_scan_plan`; a column id is its primary index. -/
structure Request where
  columnIds : List ℕ
  projectionIds : List ℕ
  names : List String
  returnedTypes : List LogicalType
  projectedOutputCount : ℕ
  partitionIndices : List ℕ
  virtualColumns : List BoundVirtualColumn := []
  allowMetadataOnly : Bool := false

/-- What is thrown. -/
inductive ScanPlanError where
  | notImplemented (message : String)
  | outOfRange
  | invalidArgument (message : String)
  deriving DecidableEq, Repr

/-- A checked read (`at`). -/
def at? {α : Type} (xs : List α) (i : ℕ) : Except ScanPlanError α :=
  match xs[i]? with
  | some x => .ok x
  | none => .error .outOfRange

/-! ## Building a plan -/

/-- `column_ids_need_reader_projection`, from the columns that are left and the number of real
    columns so far. -/
def needsReaderProjectionFrom (ids : ColumnIdentifiers) (fullSchemaSize : ℕ) : List ℕ → ℕ → Bool
  | [], realCount => realCount ≠ 0 ∧ realCount ≠ fullSchemaSize
  | primaryIdx :: columnIds, realCount =>
    if ids.isVirtualColumn primaryIdx then
      needsReaderProjectionFrom ids fullSchemaSize columnIds realCount
    else if primaryIdx ≠ realCount then true
    else needsReaderProjectionFrom ids fullSchemaSize columnIds (realCount + 1)

/-- `column_ids_need_reader_projection`. -/
def columnIdsNeedReaderProjection (ids : ColumnIdentifiers) (columnIds : List ℕ)
    (fullSchemaSize : ℕ) : Bool :=
  if columnIds = [] then false else needsReaderProjectionFrom ids fullSchemaSize columnIds 0

/-- An output column as it is asked for, by its primary index. -/
inductive OutputRequest where
  | data (key : ℕ)
  | partition (key : ℕ)
  | virtual (key : ℕ)
  deriving DecidableEq, Repr

/-- The plan and the maps of `build_scan_plan` while the positions are walked. -/
structure Building where
  dataColumns : List DataColumn := []
  dataRoles : List DataRole := []
  materializedPrimaryIndices : List ℕ := []
  partitionColumns : List PartitionColumn := []
  virtualColumns : List VirtualColumn := []
  primaryToBatch : List (ℕ × ℕ) := []
  primaryToPartition : List (ℕ × ℕ) := []
  virtualToOrdinal : List (ℕ × ℕ) := []
  outputRequests : List OutputRequest := []

section Build

variable (ids : ColumnIdentifiers) (request : Request)

/-- `virtual_by_id`: the first definition of a column id. -/
def definition (primaryIdx : ℕ) : Option BoundVirtualColumn :=
  request.virtualColumns.find? fun column => column.columnId = primaryIdx

/-- A column id of no column of the schema. -/
def isVirtual (primaryIdx : ℕ) : Bool :=
  ids.isVirtualColumn primaryIdx || (definition request primaryIdx).isSome

/-- The markers of `count(*)` and of an empty scan. -/
def isMarker (primaryIdx : ℕ) : Bool := primaryIdx = ids.rowId || primaryIdx = ids.empty

/-- A virtual column that nothing provides. -/
def unsupportedVirtual (primaryIdx : ℕ) : ScanPlanError :=
  .notImplemented s!"parquet scan: unsupported virtual column id {primaryIdx}"

/-- The kind of a virtual column, by its definition or by its id. -/
def virtualKind (column : BoundVirtualColumn) (primaryIdx : ℕ) :
    Except ScanPlanError VirtualKind :=
  match column.kind with
  | some kind => .ok kind
  | none =>
    if primaryIdx = ids.filename then .ok .filename
    else if primaryIdx = ids.fileIndex then .ok .fileIndex
    else if primaryIdx = ids.fileRowNumber then .ok .fileRowNumber
    else .error (unsupportedVirtual primaryIdx)

/-- The type that a kind has. -/
def expectedType : VirtualKind → TypeId
  | .filename => .varchar
  | .fileIndex => .ubigint
  | .fileRowNumber => .bigint

/-- The first request of a virtual column. -/
def addVirtual (b : Building) (column : BoundVirtualColumn) (primaryIdx : ℕ) :
    Except ScanPlanError Building := do
  if (b.virtualToOrdinal.lookup primaryIdx).isSome then return b
  let kind ← virtualKind ids column primaryIdx
  let name := column.name
  let text := column.type.text
  if column.type.id ≠ expectedType kind then
    .error (.notImplemented s!"parquet scan: virtual column '{name}' has unsupported type {text}")
  else return { b with
    virtualColumns := b.virtualColumns ++ [⟨primaryIdx, column.name, column.type, kind, 0⟩]
    virtualToOrdinal := b.virtualToOrdinal ++ [(primaryIdx, b.virtualColumns.length)] }

/-- The first request of a partition column. -/
def addPartition (b : Building) (primaryIdx : ℕ) : Except ScanPlanError Building := do
  if (b.primaryToPartition.lookup primaryIdx).isSome then return b
  let name ← at? request.names primaryIdx
  let type ← at? request.returnedTypes primaryIdx
  return { b with
    partitionColumns := b.partitionColumns ++ [⟨primaryIdx, name, type⟩]
    primaryToPartition := b.primaryToPartition ++ [(primaryIdx, b.partitionColumns.length)] }

/-- The name of a data column: empty when the schema has no names. -/
def columnName (primaryIdx : ℕ) : Except ScanPlanError String :=
  if request.names = [] then .ok "" else at? request.names primaryIdx

/-- A request of a data column; one that is filtered on can become an output. -/
def addData (b : Building) (primaryIdx : ℕ) (isOutput : Bool) : Except ScanPlanError Building := do
  match b.primaryToBatch.lookup primaryIdx with
  | some slot =>
    return if isOutput then { b with dataRoles := b.dataRoles.set slot .output } else b
  | none =>
    let name ← columnName request primaryIdx
    return { b with
      dataColumns := b.dataColumns ++ [⟨primaryIdx, name⟩]
      dataRoles := b.dataRoles ++ [if isOutput then .output else .filterOnly]
      materializedPrimaryIndices := b.materializedPrimaryIndices ++ [primaryIdx]
      primaryToBatch := b.primaryToBatch ++ [(primaryIdx, b.dataColumns.length)] }

/-- An output column is asked for. -/
def addRequest (b : Building) (isOutput : Bool) (output : OutputRequest) : Building :=
  if isOutput then { b with outputRequests := b.outputRequests ++ [output] } else b

/-- `handle_position`. -/
def handlePosition (b : Building) (position : ℕ × Bool) : Except ScanPlanError Building := do
  let primaryIdx ← at? request.columnIds position.1
  if isVirtual ids request primaryIdx then
    if isMarker ids primaryIdx then return b
    else
      match definition request primaryIdx with
      | none => .error (unsupportedVirtual primaryIdx)
      | some column =>
        let b ← addVirtual ids b column primaryIdx
        return addRequest b position.2 (.virtual primaryIdx)
  else if primaryIdx ∈ request.partitionIndices then
    -- a partition column that is only filtered on is pruned with the files
    if !position.2 then return b
    else
      let b ← addPartition request b primaryIdx
      return addRequest b position.2 (.partition primaryIdx)
  else
    let b ← addData request b primaryIdx position.2
    return addRequest b position.2 (.data primaryIdx)

/-- The positions of `column_ids` to walk, each with whether it is an output. -/
def positions : List (ℕ × Bool) :=
  if request.projectionIds = [] then
    (List.range request.columnIds.length).map fun c => (c, true)
  else
    request.projectionIds.zipIdx.map fun p => (p.1, decide (p.2 < request.projectedOutputCount))

/-- A column that the file has: neither a partition nor a virtual column. -/
def isPhysical (primaryIdx : ℕ) : Bool :=
  primaryIdx ∉ request.partitionIndices && (definition request primaryIdx).isNone

/-- The narrowest column of fixed width, with its width. -/
def narrowestCarrier : Option (ℕ × ℕ) :=
  request.returnedTypes.zipIdx.foldl (fun carrier column =>
    if !isPhysical request column.2 || !column.1.isFixedWidth then carrier
    else
      let width := column.1.fixedWidthByteSize
      let narrower := match carrier with
        | none => true
        | some (_, carrierWidth) => decide (width < carrierWidth)
      if 0 < width && narrower then some (column.2, width) else carrier) none

/-- The column that is read for the row count of a scan without data columns. -/
def carrier (b : Building) : Option ℕ :=
  if b.dataColumns = [] ∧ request.names ≠ [] ∧
      request.returnedTypes.length = request.names.length then
    match narrowestCarrier request with
    | some (primaryIdx, _) => some primaryIdx
    | none =>
      if b.virtualColumns = [] then none
      else
        (request.returnedTypes.zipIdx.find? fun column =>
          isPhysical request column.2 && column.1.id = .varchar).map Prod.snd
  else none

/-- The carrier of the row count is read. -/
def addCarrier (b : Building) (primaryIdx : ℕ) : Except ScanPlanError Building := do
  let name ← at? request.names primaryIdx
  return { b with
    dataColumns := b.dataColumns ++ [⟨primaryIdx, name⟩]
    dataRoles := b.dataRoles ++ [DataRole.rowCountCarrier]
    materializedPrimaryIndices := b.materializedPrimaryIndices ++ [primaryIdx]
    primaryToBatch := (primaryIdx, b.dataColumns.length) :: b.primaryToBatch }

/-- The walked columns, and the carrier where one was chosen. -/
def withCarrier (b : Building) : Option ℕ → Except ScanPlanError Building
  | some primaryIdx => addCarrier request b primaryIdx
  | none => .ok b

/-- A map read with `at`. -/
def lookupAt (map : List (ℕ × ℕ)) (key : ℕ) : Except ScanPlanError ℕ :=
  match map.lookup key with
  | some value => .ok value
  | none => .error .outOfRange

/-- The output entry of a request, with the virtual columns in their slots. -/
def outputEntry (b : Building) : OutputRequest → Except ScanPlanError OutputEntry
  | .partition key => do
    let idx ← lookupAt b.primaryToPartition key
    return .partition idx
  | .data key => do
    let idx ← lookupAt b.primaryToBatch key
    return .data idx
  | .virtual key => do
    let ordinal ← lookupAt b.virtualToOrdinal key
    let column ← at? b.virtualColumns ordinal
    return .data column.materializedIdx

/-- The slot of an entry that has one. -/
def dataPosition : OutputEntry → Option ℕ
  | .data idx => some idx
  | .partition _ => none

/-- The virtual columns follow the data columns in the batch. -/
def placeVirtual (b : Building) : Building :=
  { b with
    virtualColumns := b.virtualColumns.mapIdx fun v column =>
      { column with materializedIdx := b.dataColumns.length + v }
    materializedPrimaryIndices :=
      b.materializedPrimaryIndices ++ b.virtualColumns.map fun column => column.columnId }

/-- The slot that a position of `column_ids` reads. -/
def batchPosition (b : Building) (primaryIdx : ℕ) : Except ScanPlanError (Option ℕ) :=
  match b.virtualToOrdinal.lookup primaryIdx with
  | some ordinal => do
    let column ← at? b.virtualColumns ordinal
    return some column.materializedIdx
  | none => return b.primaryToBatch.lookup primaryIdx

/-- `build_scan_plan`. -/
def buildScanPlan : Except ScanPlanError Plan := do
  let walked ← (positions request).foldlM (handlePosition ids request) {}
  let chosen := carrier request walked
  let carried ← withCarrier request walked chosen
  if carried.virtualColumns ≠ [] ∧ carried.dataColumns = [] ∧ !request.allowMetadataOnly then
    .error (.notImplemented "parquet virtual scan: no supported physical row-count carrier")
  else
    let b := placeVirtual carried
    let outputLayout ← b.outputRequests.mapM (outputEntry b)
    let batchPositions ← request.columnIds.mapM (batchPosition b)
    let outputDataPositions := outputLayout.filterMap dataPosition
    let projected := request.projectionIds ≠ [] ∨ request.partitionIndices ≠ [] ∨
      (request.names ≠ [] ∧ columnIdsNeedReaderProjection ids request.columnIds
        request.names.length)
    return {
      dataColumns := b.dataColumns
      partitionColumns := b.partitionColumns
      virtualColumns := b.virtualColumns
      outputLayout := outputLayout
      dataRoles := b.dataRoles
      outputDataPositions := outputDataPositions
      materializedPrimaryIndices := b.materializedPrimaryIndices
      outputPrefixWidth := (outputDataPositions.map (· + 1)).max?
      outputIsIdentity := b.partitionColumns = [] ∧ outputLayout ≠ [] ∧
        outputLayout.length ≤ b.dataColumns.length ∧
        outputLayout = (List.range outputLayout.length).map .data
      batchPositionByColumnId := batchPositions
      partitionPrimaryIndices := request.partitionIndices
      needsReaderProjection := (projected ∨ b.virtualColumns ≠ [] ∨ chosen.isSome) ∧
        b.dataColumns ≠ []
      carrierBatchIndex := chosen.map fun _ => walked.dataColumns.length }

end Build

/-! ## Assembling the output -/

/-- `needs_output_assembly`. -/
def needsOutputAssembly (plan : Plan) : Bool :=
  if plan.outputLayout = [] then false
  else !plan.outputIsIdentity || plan.outputDataPositions.length ≠ plan.dataRoles.length

section Assemble

variable {Col : Type}

/-- A batch: its columns and its number of rows. -/
structure Batch (Col : Type) where
  columns : List Col
  rows : ℕ

/-- `owning_table_view::select_columns`. -/
def selectColumns (columns : List Col) (positions : List ℕ) : Except ScanPlanError (List Col) := do
  let selected ← positions.mapM (at? columns)
  if ¬positions.Nodup then
    .error (.invalidArgument "owning_table_view: duplicate column position in select_columns")
  else return selected

/-- The positions that do not repeat an earlier one. -/
def firstOccurrences (positions : List ℕ) : List ℕ :=
  (positions.zipIdx.filter fun p => p.1 ∉ positions.take p.2).map Prod.fst

/-- The slots without a copy take the selected columns in order. -/
def fillSlots : List (Option Col) → List Col → Except ScanPlanError (List Col)
  | [], _ => .ok []
  | some copy :: slots, selected => do
    let rest ← fillSlots slots selected
    return copy :: rest
  | none :: slots, column :: selected => do
    let rest ← fillSlots slots selected
    return column :: rest
  | none :: _, [] => .error .outOfRange

/-- `select_scan_columns`: a repeated position is copied. -/
def selectScanColumns (columns : List Col) (positions : List ℕ) :
    Except ScanPlanError (List Col) := do
  let unique := firstOccurrences positions
  if unique.length = positions.length then selectColumns columns positions
  else
    let copies ← positions.zipIdx.mapM fun p =>
      if p.1 ∈ positions.take p.2 then some <$> at? columns p.1 else .ok none
    let selected ← selectColumns columns unique
    fillSlots copies selected

/-- The loop state of `assemble_scan_output` over a partitioned plan: the columns that were not yet
    moved, the output, and where a slot was first put. -/
structure Assembly (Col : Type) where
  dataColumns : List (Option Col)
  output : List Col := []
  firstDataOutput : List (ℕ × ℕ) := []

/-- `make_column_from_scalar` of the partition value, cast to the type of the column. -/
abbrev MakeConstant (Col : Type) := LogicalType → String → ℕ → Except ScanPlanError Col

/-- One output entry. Reading a column that was moved is not defined. -/
def assembleEntry (makeConstant : MakeConstant Col) (plan : Plan) (values : List String) (rows : ℕ)
    (s : Assembly Col) (entry : OutputEntry) : Except ScanPlanError (Assembly Col) :=
  match entry with
  | .data idx =>
    match s.firstDataOutput.lookup idx with
    | none => do
      let slot ← at? s.dataColumns idx
      match slot with
      | some column =>
        return {
          dataColumns := s.dataColumns.set idx none
          output := s.output ++ [column]
          firstDataOutput := s.firstDataOutput ++ [(idx, s.output.length)] }
      | none => .error .outOfRange
    | some first => do
      let column ← at? s.output first
      return { s with output := s.output ++ [column] }
  | .partition idx => do
    let column ← at? plan.partitionColumns idx
    let value ← at? values idx
    let constant ← makeConstant column.type value rows
    return { s with output := s.output ++ [constant] }

/-- `assemble_scan_output` of a batch. -/
def assembleScanOutput (makeConstant : MakeConstant Col) (plan : Plan) (batch : Batch Col)
    (values : List String) : Except ScanPlanError (List Col) :=
  if plan.outputLayout = [] then .ok batch.columns
  else if plan.partitionColumns = [] then
    -- without partitions every entry is a slot
    selectScanColumns batch.columns (plan.outputLayout.map OutputEntry.idx)
  else do
    let assembled ← plan.outputLayout.foldlM
      (assembleEntry makeConstant plan values batch.rows) { dataColumns := batch.columns.map some }
    return assembled.output

end Assemble

end Sirius.Scan.ScanPlan
