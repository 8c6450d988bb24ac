import Sirius.Common.Assoc
import Sirius.Common.Checked

/-!
# Columns by field id

Model of `field_id_mapping` (src/op/scan/field_id_mapping.cpp:22-252, 337-381). `compile` binds each
requested field to a column of a Parquet file, or to a default; `apply` makes the output columns
from the decoded ones. A decoded column is handed over at its last use and copied at every other, so
the columns are `Option`s here: one that was moved out is `none`, and reading it is undefined.

What the reader library does to a column, and the type that it gives to an element of the schema
(`map_subtree`, src/io/parquet_helpers.cpp:277), are parameters.

* `compile`: the mapping, or the text of what it throws.
* `Mapping.apply`: the output columns.
* `Uses`: the counts that are left, and what they say about the columns.
* `field_mapping_outputs`: every output is the requested column, and no column is read after it was
  moved out.
-/

namespace Sirius.Scan.FieldIds

open Sirius.Common

/-! ## Types -/

/-- `duckdb::LogicalType`. `other` is any type that `flat_type` does not know. -/
inductive LogicalType where
  | boolean | tinyint | smallint | integer | bigint
  | utinyint | usmallint | uinteger | ubigint
  | float | double | varchar | date | timestamp
  | sqlnull
  | other (n : ℕ)
  deriving DecidableEq, Repr

/-- `cudf::data_type`, as far as `flat_type` gives it. -/
inductive DataType where
  | bool8 | int8 | int16 | int32 | int64
  | uint8 | uint16 | uint32 | uint64
  | float32 | float64 | string | timestampDays | timestampMicroseconds
  deriving DecidableEq, Repr

/-- `flat_type(type)` (lines 37–59). -/
def flatType : LogicalType → Except String DataType
  | .boolean => .ok .bool8
  | .tinyint => .ok .int8
  | .smallint => .ok .int16
  | .integer => .ok .int32
  | .bigint => .ok .int64
  | .utinyint => .ok .uint8
  | .usmallint => .ok .uint16
  | .uinteger => .ok .uint32
  | .ubigint => .ok .uint64
  | .float => .ok .float32
  | .double => .ok .float64
  | .varchar => .ok .string
  | .date => .ok .timestampDays
  | .timestamp => .ok .timestampMicroseconds
  | .sqlnull | .other _ => .error "field_id_core_v1: unsupported logical type"

/-- `row_count_carrier_policy`. -/
inductive CarrierPolicy where
  | legacyScalars
  | includeTemporal
  deriving DecidableEq, Repr

/-- `carrier_type(type, policy)` (lines 61–82). -/
def carrierType (policy : CarrierPolicy) : LogicalType → Bool
  | .date | .timestamp => policy = .includeTemporal
  | .sqlnull | .other _ => false
  | _ => true

/-! ## The schema of a file -/

/-- `cudf::io::parquet::SchemaElement`. -/
structure SchemaElement where
  name : String
  fieldId : Option ℤ
  numChildren : ℤ
  childrenIdx : List ℤ := []
  isRepeated : Bool := false
  deriving DecidableEq, Repr

/-- An element of the schema in `index_parquet_field_ids`. -/
def indexStep (index : List (ℤ × ℕ)) (p : SchemaElement × ℕ) : Except String (List (ℤ × ℕ)) :=
  match p.1.fieldId with
  | none => .ok index
  | some id =>
    if id ≤ 0 ∨ (index.lookup id).isSome then
      .error "Parquet has an invalid or duplicate field ID"
    else .ok (index ++ [(id, p.2)])

/-- `index_parquet_field_ids(metadata)` (lines 22–34), over all elements but the root. -/
def indexFieldIds (schema : List SchemaElement) : Except String (List (ℤ × ℕ)) :=
  (schema.zipIdx.drop 1).foldlM indexStep []

/-- `preorder_end(meta, idx)` (parquet_helpers.cpp:237-245). A child is behind its parent, so the
    depth is at most the number of elements. -/
def preorderEnd (schema : List SchemaElement) : ℕ → ℕ → Except String ℕ
  | 0, _ => .error "[parquet_helpers] malformed parquet schema: truncated"
  | depth + 1, idx =>
    match schema[idx]? with
    | none => .error "[parquet_helpers] malformed parquet schema: truncated"
    | some el =>
      (List.range el.numChildren.toNat).foldlM (fun next _ => preorderEnd schema depth next)
        (idx + 1)

/-- `children(meta, idx)` (parquet_helpers.cpp:247-271). -/
def children (schema : List SchemaElement) (idx : ℕ) : Except String (List ℕ) :=
  match schema[idx]? with
  | none => .error "vector::_M_range_check"
  | some el => do
    let out ←
      if !el.childrenIdx.isEmpty then
        el.childrenIdx.mapM fun child =>
          if child < 0 ∨ schema.length ≤ child.toNat then
            .error "[parquet_helpers] malformed parquet schema: child index"
          else .ok child.toNat
      else
        Prod.fst <$> (List.range el.numChildren.toNat).foldlM (fun (out, next) _ => do
          if schema.length ≤ next then
            .error "[parquet_helpers] malformed parquet schema: truncated"
          let last ← preorderEnd schema (schema.length + 1) next
          return (out ++ [next], last)) (([] : List ℕ), idx + 1)
    if (out.length : ℤ) ≠ el.numChildren then
      .error "[parquet_helpers] malformed parquet schema: child count"
    else return out

/-- `top_level_schema_indices(meta)` (parquet_helpers.cpp:366-376). -/
def topLevelSchemaIndices (schema : List SchemaElement) : Except String (List ℕ) :=
  match schema[0]? with
  | none => .error "Parquet scalar projection has no valid root"
  | some root =>
    if root.numChildren < 0 then .error "Parquet scalar projection has no valid root"
    else do
      let result ← children schema 0
      if 0 ∈ result ∨ ¬ result.Nodup then .error "Parquet root child is invalid or repeated"
      else return result

/-- `schema_info`. -/
structure SchemaInfo where
  types : List LogicalType
  names : List String
  deriving DecidableEq, Repr

/-- `field_mapping_scope`. -/
inductive Scope where
  | flatFile
  | topLevelScalars
  deriving DecidableEq, Repr

/-- The type of an element at the top, in the scope: `extract_top_level_scalar_schema` gives
    SQLNULL to what is not a scalar (parquet_helpers.cpp:377-392), `extract_schema` maps every
    subtree (394–412). -/
def rootType (mapSubtree : ℕ → Except String LogicalType) (scope : Scope)
    (schema : List SchemaElement) (idx : ℕ) : Except String (LogicalType × String) :=
  match schema[idx]? with
  | none => .error "[parquet_helpers] malformed parquet schema: truncated"
  | some el =>
    match scope with
    | .flatFile => (mapSubtree idx).map fun t => (t, el.name)
    | .topLevelScalars =>
      if el.numChildren < 0 then .error "Parquet column has a negative child count"
      else if el.numChildren ≠ 0 ∨ el.isRepeated then .ok (.sqlnull, el.name)
      else (mapSubtree idx).map fun t => (t, el.name)

/-- The schema that `compile` uses (lines 181–185). -/
def extractSchema (mapSubtree : ℕ → Except String LogicalType) (scope : Scope)
    (schema : List SchemaElement) : Except String SchemaInfo := do
  let roots ←
    match scope with
    | .flatFile => children schema 0
    | .topLevelScalars => topLevelSchemaIndices schema
  let columns ← roots.mapM (rootType mapSubtree scope schema)
  return { types := columns.map Prod.fst, names := columns.map Prod.snd }

/-! ## The mapping -/

/-- `duckdb::Value`: NULL has no payload. -/
structure Value (V : Type) where
  type : LogicalType
  payload : Option V
  deriving DecidableEq, Repr

/-- `field_requirement`. -/
structure FieldRequirement (V : Type) where
  id : ℤ
  type : LogicalType
  missingValue : Option (Value V) := none
  allowInt32ToInt64 : Bool := false
  allowFloatToDouble : Bool := false
  deriving DecidableEq, Repr

/-- `field_id_mapping::operation`. -/
structure Operation (V : Type) where
  field : FieldRequirement V
  physicalSlot : Option ℕ
  physicalType : DataType
  targetType : DataType
  deriving DecidableEq, Repr

/-- The physical columns to read, and `read_slots`. -/
structure Reads where
  slots : List (ℕ × ℕ) := []
  names : List String := []
  types : List LogicalType := []
  indices : List ℕ := []
  deriving DecidableEq, Repr

/-- `materialization_program`, with what is checked here. -/
structure Program where
  contract : ℕ
  generation : ℕ
  inputTypes : Option (List DataType)
  deriving DecidableEq, Repr

/-- `field_id_mapping`. -/
structure Mapping (V : Type) where
  program : Program
  reads : Reads
  operations : List (Operation V)
  deriving DecidableEq, Repr

/-- `parquet_metadata`, with what is used here. -/
structure Metadata where
  builtForIdentity : String
  footer : Option (List SchemaElement)

variable {V : Type}

/-- The conversions that a field may ask for (lines 219–223). -/
def FieldRequirement.converts (field : FieldRequirement V) (physical target : DataType) : Bool :=
  physical = target ||
    (field.allowInt32ToInt64 && physical = .int32 && target = .int64) ||
    (field.allowFloatToDouble && physical = .float32 && target = .float64)

/-- The slot of a column, which is a new one when the column is not read yet (lines 225–231). -/
def Reads.slot (reads : Reads) (info : SchemaInfo) (ordinal : ℕ) : Except String (Reads × ℕ) :=
  match reads.slots.lookup ordinal with
  | some slot => .ok (reads, slot)
  | none =>
    match info.names[ordinal]?, info.types[ordinal]? with
    | some name, some type =>
      .ok ({ slots := reads.slots ++ [(ordinal, reads.names.length)]
             names := reads.names ++ [name]
             types := reads.types ++ [type]
             indices := reads.indices ++ [ordinal] }, reads.names.length)
    | _, _ => .error "vector::_M_range_check"

/-- The operation of one field (lines 204–235). -/
def compileField (index : List (ℤ × ℕ)) (roots : List ℕ) (info : SchemaInfo) (reads : Reads)
    (field : FieldRequirement V) : Except String (Reads × Operation V) := do
  if field.id ≤ 0 then .error "invalid bound field ID"
  let target ← flatType field.type
  match index.lookup field.id with
  | none =>
    match field.missingValue with
    | none => .error "missing field requires an explicitly typed default"
    | some value =>
      if value.type ≠ field.type then .error "missing field requires an explicitly typed default"
      else return (reads, ⟨field, none, target, target⟩)
  | some element =>
    match roots.zipIdx.lookup element with
    | none => .error "requested field ID is not a top-level scalar"
    | some ordinal =>
      match info.types[ordinal]? with
      | none => .error "vector::_M_range_check"
      | some type => do
        let physical ← flatType type
        if !field.converts physical target then .error "unqualified field conversion"
        let (reads, slot) ← reads.slot info ordinal
        return (reads, ⟨field, some slot, physical, target⟩)

/-- The loop over the fields. -/
def compileFields (index : List (ℤ × ℕ)) (roots : List ℕ) (info : SchemaInfo) :
    Reads → List (FieldRequirement V) → Except String (Reads × List (Operation V))
  | reads, [] => .ok (reads, [])
  | reads, field :: fields => do
    let (reads, op) ← compileField index roots info reads field
    let (reads, ops) ← compileFields index roots info reads fields
    return (reads, op :: ops)

/-- The row-count carrier, when nothing else is read (lines 236–248). -/
def Reads.withCarrier (reads : Reads) (info : SchemaInfo) (policy : CarrierPolicy) :
    Except String Reads :=
  if reads.names.isEmpty then
    match (info.names.zip info.types).zipIdx.find? fun p => carrierType policy p.1.2 with
    | some ((name, type), i) =>
      .ok { reads with names := [name], types := [type], indices := [i] }
    | none => .error "field mapping has no qualified row-count carrier"
  else .ok reads

/-- `field_id_mapping::compile` (lines 164–252). -/
def compile (mapSubtree : ℕ → Except String LogicalType) (metadata : Option Metadata)
    (openedIdentity : String) (program : Program) (fields : List (FieldRequirement V))
    (scope : Scope) (policy : CarrierPolicy) : Except String (Mapping V) :=
  match metadata with
  | none => .error "field mapping has no matching source or program identity"
  | some metadata =>
    if openedIdentity = "" ∨ metadata.builtForIdentity ≠ openedIdentity ∨ program.contract = 0 ∨
        program.generation = 0 then
      .error "field mapping has no matching source or program identity"
    else
      match metadata.footer with
      | none | some [] => .error "missing field mapping footer"
      | some footer => do
        let index ← indexFieldIds footer
        let info ← extractSchema mapSubtree scope footer
        if scope = .flatFile ∧ footer.length ≠ info.names.length + 1 then
          .error "field_id_core_v1 requires a flat schema"
        let roots ← topLevelSchemaIndices footer
        if ¬ info.names.Nodup then
          .error "field ID has an ambiguous physical reader address"
        let (reads, operations) ← compileFields index roots info {} fields
        let reads ← reads.withCarrier info policy
        if program.inputTypes ≠ some (operations.map Operation.targetType) then
          .error "mapped schema does not match its bound program"
        return { program := program, reads := reads, operations := operations }

/-! ## The output columns -/

/-- What the reader library does: the type of a column, `cudf::cast`, the constructors of scalars
    (the value is converted to the type), a column that repeats a scalar, and the column of a
    row-count carrier. -/
structure Library (V Column : Type) where
  Scalar : Type
  type : Column → DataType
  cast : Column → DataType → Column
  nullScalar : DataType → Scalar
  numericScalar : DataType → V → Scalar
  timestampScalar : DataType → V → Scalar
  stringScalar : V → Scalar
  makeColumnFromScalar : Scalar → ℤ → Column
  carrier : ℤ → Column

/-- Why `apply` does not return: it throws, or it reads what is not there. -/
inductive Failure where
  | thrown (what : String)
  | undefinedRead
  deriving DecidableEq, Repr

/-- The decoded table. -/
structure Table (Column : Type) where
  columns : List Column
  numRows : ℤ

/-- `materialized_batch`. -/
structure Batch (Column : Type) where
  columns : List Column
  contract : ℕ
  generation : ℕ
  rows : ℤ
  rowCountCarrier : Bool

variable {Column : Type}

/-- `default_scalar` (lines 95–149). -/
def defaultScalar (lib : Library V Column) (value : Option V) (type : DataType) : lib.Scalar :=
  match value with
  | none => lib.nullScalar type
  | some value =>
    match type with
    | .timestampDays | .timestampMicroseconds => lib.timestampScalar type value
    | .string => lib.stringScalar value
    | _ => lib.numericScalar type value

/-- The column of a default (lines 360–361). -/
def Library.constant (lib : Library V Column) (type : DataType) (value : Option V) (rows : ℤ) :
    Column := lib.makeColumnFromScalar (defaultScalar lib value type) rows

/-- The checks and the counts of the uses (lines 349–356). -/
def countUses (lib : Library V Column) (columns : List Column) :
    List (Operation V) → List ℕ → Except Failure (List ℕ)
  | [], uses => .ok uses
  | op :: ops, uses =>
    match op.physicalSlot with
    | none => countUses lib columns ops uses
    | some slot =>
      if (columns[slot]?).map lib.type ≠ some op.physicalType then
        .error (.thrown "decoded field does not match conversion approval")
      else countUses lib columns ops (uses.modify slot (· + 1))

/-- The columns that were not moved out, and the uses that are left. -/
structure ApplyState (Column : Type) where
  columns : List (Option Column)
  uses : List ℕ

/-- One operation (lines 358–371). -/
def applyOperation (lib : Library V Column) (rows : ℤ) (st : ApplyState Column) (op : Operation V) :
    Except Failure (ApplyState Column × Column) :=
  match op.physicalSlot with
  | none =>
    match op.field.missingValue with
    | none => .error .undefinedRead
    | some value => .ok (st, lib.constant op.targetType value.payload rows)
  | some slot =>
    match (st.columns[slot]?).join with
    | none => .error .undefinedRead
    | some column =>
      let uses := st.uses.modify slot (· - 1)
      if op.physicalType ≠ op.targetType then
        .ok ({ st with uses := uses }, lib.cast column op.targetType)
      else if st.uses[slot]? = some 1 then
        .ok ({ columns := st.columns.set slot none, uses := uses }, column)
      else .ok ({ st with uses := uses }, column)

/-- The loop over the operations. -/
def applyOperations (lib : Library V Column) (rows : ℤ) :
    ApplyState Column → List (Operation V) → Except Failure (List Column)
  | _, [] => .ok []
  | st, op :: ops => do
    let (st, column) ← applyOperation lib rows st op
    let columns ← applyOperations lib rows st ops
    return column :: columns

/-- `field_id_mapping::apply` (lines 337–381), with `ensure_row_count_carrier` at its end. -/
def Mapping.apply (m : Mapping V) (lib : Library V Column) (decoded : Table Column) (rows : ℤ) :
    Except Failure (Batch Column) := do
  if rows < 0 ∨ rows > 2 ^ 31 - 1 ∨ decoded.numRows ≠ rows then
    .error (.thrown "mapped decode cardinality mismatch")
  if !m.reads.names.isEmpty ∧ decoded.columns.length ≠ m.reads.names.length then
    .error (.thrown "decoded field projection width mismatch")
  let uses ← countUses lib decoded.columns m.operations
    (List.replicate decoded.columns.length 0)
  let output ← applyOperations lib rows ⟨decoded.columns.map some, uses⟩ m.operations
  let batch : Batch Column :=
    { columns := output
      contract := m.program.contract
      generation := m.program.generation
      rows := rows
      rowCountCarrier := false }
  if output.isEmpty ∧ rows ≠ 0 then
    return { batch with columns := [lib.carrier rows], rowCountCarrier := true }
  else return batch

/-! ## The uses that are left -/

/-- How many of the operations use the slot. -/
def usesOf (ops : List (Operation V)) (slot : ℕ) : ℕ :=
  ops.countP fun op => op.physicalSlot = some slot

/-- The invariant of the loop: every slot counts the operations that are left, and a column that
    some operation still uses was not moved out. -/
structure Uses (columns : List Column) (ops : List (Operation V)) (st : ApplyState Column) :
    Prop where
  uses : ∀ slot < columns.length, st.uses[slot]? = some (usesOf ops slot)
  columns : ∀ slot < columns.length, 0 < usesOf ops slot →
    (st.columns[slot]?).join = columns[slot]?

/-- What an operation should give. -/
def Operation.output (lib : Library V Column) (columns : List Column) (rows : ℤ)
    (op : Operation V) (column : Column) : Prop :=
  match op.physicalSlot with
  | none => ∃ value, op.field.missingValue = some value ∧
      column = lib.constant op.targetType value.payload rows
  | some slot => ∃ decoded, columns[slot]? = some decoded ∧
      column = if op.physicalType ≠ op.targetType then lib.cast decoded op.targetType else decoded

/-- An operation has what it reads: a default, or a slot of the table. -/
def Operation.Reads (n : ℕ) (op : Operation V) : Prop :=
  (op.physicalSlot = none → op.field.missingValue.isSome) ∧ ∀ slot ∈ op.physicalSlot, slot < n

variable {lib : Library V Column} {columns : List Column} {rows : ℤ} {op : Operation V}
  {ops : List (Operation V)} {st : ApplyState Column}

theorem usesOf_cons (op : Operation V) (ops : List (Operation V)) (slot : ℕ) :
    usesOf (op :: ops) slot = usesOf ops slot + if op.physicalSlot = some slot then 1 else 0 := by
  rw [usesOf, List.countP_cons]
  simp [usesOf]

/-- A use of a slot is counted off. -/
theorem Uses.step {slot : ℕ} (h : Uses columns (op :: ops) st) (hslot : op.physicalSlot = some slot)
    {cells : List (Option Column)}
    (hcells : ∀ i < columns.length, 0 < usesOf ops i → cells[i]? = st.columns[i]?) :
    Uses columns ops { columns := cells, uses := st.uses.modify slot (· - 1) } where
  uses i hi := by
    have huses := h.uses i hi
    rw [usesOf_cons, hslot] at huses
    dsimp only
    rw [List.getElem?_modify, huses]
    by_cases heq : slot = i
    · simp [heq]
    · simp [heq]
  columns i hi hpos := by
    dsimp only
    rw [hcells i hi hpos]
    refine h.columns i hi ?_
    rw [usesOf_cons]
    omega

/-- One operation gives its output and keeps the invariant. -/
theorem applyOperation_spec (lib : Library V Column) (rows : ℤ)
    (h : Uses columns (op :: ops) st) (hop : op.Reads columns.length) :
    ∃ st' column, applyOperation lib rows st op = .ok (st', column) ∧ Uses columns ops st' ∧
      op.output lib columns rows column := by
  rw [applyOperation]
  cases hslot : op.physicalSlot with
  | none =>
    obtain ⟨value, hvalue⟩ := Option.isSome_iff_exists.mp (hop.1 hslot)
    have hsame (slot : ℕ) : usesOf (op :: ops) slot = usesOf ops slot := by
      rw [usesOf_cons, hslot, if_neg (by simp), Nat.add_zero]
    refine ⟨st, lib.constant op.targetType value.payload rows, by rw [hvalue], ?_, ?_⟩
    · exact ⟨fun i hi => hsame i ▸ h.uses i hi, fun i hi hpos => h.columns i hi (hsame i ▸ hpos)⟩
    · rw [Operation.output, hslot]
      exact ⟨value, hvalue, rfl⟩
  | some slot =>
    have hlt := hop.2 slot hslot
    have hcount : usesOf (op :: ops) slot = usesOf ops slot + 1 := by
      rw [usesOf_cons, if_pos hslot]
    have hcell := h.columns slot hlt (by omega)
    rw [List.getElem?_eq_getElem hlt] at hcell
    have houtput (column : Column) (hcolumn : column = if op.physicalType ≠ op.targetType then
        lib.cast columns[slot] op.targetType else columns[slot]) :
        op.output lib columns rows column := by
      rw [Operation.output, hslot]
      exact ⟨columns[slot], List.getElem?_eq_getElem hlt, hcolumn⟩
    dsimp only
    rw [hcell]
    dsimp only
    split_ifs with htype hlast
    · exact ⟨_, _, rfl, h.step hslot fun _ _ _ => rfl, houtput _ (by rw [if_pos htype])⟩
    · -- the last use: the column is moved out, and no operation is left that uses it
      have hnone : usesOf ops slot = 0 := by
        rw [h.uses slot hlt, hcount] at hlast
        simpa using hlast
      refine ⟨_, _, rfl, h.step hslot fun i _ hpos => ?_, houtput _ (by rw [if_neg htype])⟩
      have hne : slot ≠ i := by
        rintro rfl
        omega
      rw [List.getElem?_set_ne hne]
    · exact ⟨_, _, rfl, h.step hslot fun _ _ _ => rfl, houtput _ (by rw [if_neg htype])⟩

/-- The loop gives every output. -/
theorem applyOperations_spec (lib : Library V Column) (rows : ℤ) (h : Uses columns ops st)
    (hops : ∀ op ∈ ops, op.Reads columns.length) :
    ∃ output, applyOperations lib rows st ops = .ok output ∧
      List.Forall₂ (Operation.output lib columns rows) ops output := by
  induction ops generalizing st with
  | nil => exact ⟨[], rfl, .nil⟩
  | cons op ops ih =>
    obtain ⟨st', column, hstep, huses, hcolumn⟩ :=
      applyOperation_spec lib rows h (hops op List.mem_cons_self)
    obtain ⟨output, hrun, hall⟩ := ih huses fun op hop => hops op (List.mem_cons_of_mem _ hop)
    refine ⟨column :: output, ?_, .cons hcolumn hall⟩
    rw [applyOperations, hstep, ok_bind]
    dsimp only
    rw [hrun]
    rfl

/-- The slot of the operation holds a column of the type that was approved. -/
def Operation.Fits (lib : Library V Column) (columns : List Column) (op : Operation V) : Prop :=
  ∀ slot ∈ op.physicalSlot, (columns[slot]?).map lib.type = some op.physicalType

theorem Operation.Fits.lt {slot : ℕ} (h : op.Fits lib columns) (hslot : slot ∈ op.physicalSlot) :
    slot < columns.length := by
  obtain ⟨c, hc, -⟩ := Option.map_eq_some_iff.mp (h slot hslot)
  exact (List.getElem?_eq_some_iff.mp hc).1

/-- The uses are counted when every operation fits. -/
theorem countUses_ok (h : ∀ op ∈ ops, op.Fits lib columns) (uses : List ℕ) :
    ∃ counted, countUses lib columns ops uses = .ok counted ∧
      ∀ slot, counted[slot]? = (uses[slot]?).map (· + usesOf ops slot) := by
  induction ops generalizing uses with
  | nil => exact ⟨uses, rfl, fun slot => by simp [usesOf]⟩
  | cons op ops ih =>
    have hrest : ∀ op ∈ ops, op.Fits lib columns := fun op hop => h op (.tail _ hop)
    rw [countUses]
    cases hslot : op.physicalSlot with
    | none =>
      obtain ⟨counted, hcount, huses⟩ := ih hrest uses
      refine ⟨counted, hcount, fun slot => ?_⟩
      rw [huses, usesOf_cons, hslot, if_neg (by simp), Nat.add_zero]
    | some slot =>
      obtain ⟨counted, hcount, huses⟩ := ih hrest (uses.modify slot (· + 1))
      refine ⟨counted, ?_, fun i => ?_⟩
      · dsimp only
        rw [if_neg (not_not.mpr (h op List.mem_cons_self slot hslot))]
        exact hcount
      · rw [huses, usesOf_cons, hslot, List.getElem?_modify, Option.map_eq_map,
          Option.map_map]
        congr 1
        funext n
        by_cases heq : slot = i
        · simp [heq]
          omega
        · simp [heq]

/-- An operation that does not fit makes `apply` throw. -/
theorem countUses_error (h : ¬ ∀ op ∈ ops, op.Fits lib columns) (uses : List ℕ) :
    countUses lib columns ops uses =
      .error (.thrown "decoded field does not match conversion approval") := by
  induction ops generalizing uses with
  | nil => exact absurd (fun op hop => nomatch hop) h
  | cons op ops ih =>
    have hsplit : op.Fits lib columns → ¬ ∀ op ∈ ops, op.Fits lib columns :=
      fun hop hrest => h (List.forall_mem_cons.mpr ⟨hop, hrest⟩)
    rw [countUses]
    cases hslot : op.physicalSlot with
    | none => exact ih (hsplit fun slot hs => by simp [hslot] at hs) uses
    | some slot =>
      dsimp only
      split_ifs with htype
      · rfl
      · refine ih (hsplit fun slot' hs => ?_) _
        rw [hslot] at hs
        cases hs
        exact not_not.mp htype

/-- What `apply` does after its first checks. -/
theorem apply_of_fits (m : Mapping V) (lib : Library V Column) (decoded : Table Column)
    (hrows : 0 ≤ rows ∧ rows ≤ 2 ^ 31 - 1 ∧ decoded.numRows = rows)
    (hwidth : decoded.columns.length = m.reads.names.length)
    (hfits : ∀ op ∈ m.operations, op.Fits lib decoded.columns)
    (hdefault : ∀ op ∈ m.operations, op.physicalSlot = none → op.field.missingValue.isSome) :
    ∃ output, List.Forall₂ (Operation.output lib decoded.columns rows) m.operations output ∧
      m.apply lib decoded rows = .ok
        { columns := if output.isEmpty ∧ rows ≠ 0 then [lib.carrier rows] else output
          contract := m.program.contract
          generation := m.program.generation
          rows := rows
          rowCountCarrier := decide (output.isEmpty ∧ rows ≠ 0) } := by
  obtain ⟨counted, hcount, huses⟩ :=
    countUses_ok hfits (List.replicate decoded.columns.length 0)
  have hstart : Uses decoded.columns m.operations ⟨decoded.columns.map some, counted⟩ := by
    refine ⟨fun slot hlt => ?_, fun slot hlt _ => ?_⟩
    · dsimp only
      rw [huses, List.getElem?_replicate, if_pos hlt, Option.map_some, Nat.zero_add]
    · dsimp only
      rw [List.getElem?_map, List.getElem?_eq_getElem hlt]
      rfl
  obtain ⟨output, hrun, hall⟩ := applyOperations_spec lib rows hstart fun op hop =>
    ⟨hdefault op hop, fun slot hslot => (hfits op hop).lt hslot⟩
  refine ⟨output, hall, ?_⟩
  rw [Mapping.apply, if_neg (by omega), if_neg (by simp [hwidth]), hcount]
  show (applyOperations lib rows _ m.operations >>= _) = _
  rw [hrun, ok_bind]
  dsimp only
  split_ifs with hempty
  · rw [decide_eq_true hempty]
    rfl
  · rw [decide_eq_false hempty]
    rfl

/-- Otherwise `apply` throws. -/
theorem apply_eq_error (m : Mapping V) (lib : Library V Column) (decoded : Table Column)
    (hnames : m.reads.names ≠ [])
    (h : ¬ ((0 ≤ rows ∧ rows ≤ 2 ^ 31 - 1 ∧ decoded.numRows = rows) ∧
      decoded.columns.length = m.reads.names.length ∧
      ∀ op ∈ m.operations, op.Fits lib decoded.columns)) :
    ∃ what, m.apply lib decoded rows = .error (.thrown what) := by
  rw [Mapping.apply]
  by_cases hrows : rows < 0 ∨ rows > 2 ^ 31 - 1 ∨ decoded.numRows ≠ rows
  · rw [if_pos hrows]
    exact ⟨_, rfl⟩
  by_cases hwidth : decoded.columns.length = m.reads.names.length
  · have hfits : ¬ ∀ op ∈ m.operations, op.Fits lib decoded.columns :=
      fun hfits => h ⟨by omega, hwidth, hfits⟩
    rw [if_neg hrows, if_neg (by simp [hwidth]), countUses_error hfits]
    exact ⟨_, rfl⟩
  · rw [if_neg hrows, if_pos (by simpa [hnames] using hwidth)]
    exact ⟨_, rfl⟩

/-! ## What `compile` binds -/

/-- The index names the elements that have a field id. -/
def Indexed (schema : List SchemaElement) (index : List (ℤ × ℕ)) : Prop :=
  ∀ id, match index.lookup id with
    | some r => ∃ el, schema[r]? = some el ∧ el.fieldId = some id
    | none => ∀ r ≠ 0, ∀ el, schema[r]? = some el → el.fieldId ≠ some id

/-- The index names the elements that were looked at. -/
def IndexedBy (done : List (SchemaElement × ℕ)) (index : List (ℤ × ℕ)) : Prop :=
  ∀ id, match index.lookup id with
    | some r => ∃ el, (el, r) ∈ done ∧ el.fieldId = some id
    | none => ∀ p ∈ done, p.1.fieldId ≠ some id

theorem IndexedBy.skip {done : List (SchemaElement × ℕ)} {index : List (ℤ × ℕ)}
    (h : IndexedBy done index) {p : SchemaElement × ℕ} (hp : p.1.fieldId = none) :
    IndexedBy (done ++ [p]) index := by
  intro id
  have hid := h id
  cases hlookup : index.lookup id with
  | some r =>
    rw [hlookup] at hid
    obtain ⟨el, hmem, heq⟩ := hid
    exact ⟨el, List.mem_append_left _ hmem, heq⟩
  | none =>
    rw [hlookup] at hid
    intro q hq
    rcases List.mem_append.mp hq with hq | hq
    · exact hid q hq
    · rw [List.mem_singleton.mp hq, hp]
      simp

theorem IndexedBy.concat {done : List (SchemaElement × ℕ)} {index : List (ℤ × ℕ)}
    (h : IndexedBy done index) {p : SchemaElement × ℕ} {id : ℤ} (hp : p.1.fieldId = some id) :
    IndexedBy (done ++ [p]) (index ++ [(id, p.2)]) := by
  intro id'
  have hid := h id'
  rw [lookup_concat]
  cases hlookup : index.lookup id' with
  | some r =>
    rw [hlookup] at hid
    obtain ⟨el, hmem, heq⟩ := hid
    exact ⟨el, List.mem_append_left _ hmem, heq⟩
  | none =>
    rw [hlookup] at hid
    rw [Option.none_or]
    split_ifs with heq
    · exact ⟨p.1, List.mem_append_right _ (List.mem_singleton_self _), heq ▸ hp⟩
    · intro q hq
      rcases List.mem_append.mp hq with hq | hq
      · exact hid q hq
      · rw [List.mem_singleton.mp hq, hp]
        exact fun hsome => heq (Option.some.inj hsome).symm

theorem IndexedBy.foldlM {rest done : List (SchemaElement × ℕ)} {index index' : List (ℤ × ℕ)}
    (h : IndexedBy done index) (hf : rest.foldlM indexStep index = .ok index') :
    IndexedBy (done ++ rest) index' := by
  induction rest generalizing done index with
  | nil =>
    rw [← Except.ok.inj hf, List.append_nil]
    exact h
  | cons p rest ih =>
    rw [List.foldlM_cons, bind_eq_ok] at hf
    obtain ⟨next, hstep, hf⟩ := hf
    rw [List.append_cons]
    refine ih ?_ hf
    rw [indexStep] at hstep
    cases hp : p.1.fieldId with
    | none =>
      rw [hp] at hstep
      rw [← Except.ok.inj hstep]
      exact h.skip hp
    | some id =>
      rw [hp] at hstep
      rw [← Except.ok.inj (ite_error_eq_ok.mp hstep).2]
      exact h.concat hp

theorem indexed_of_eq_ok {schema : List SchemaElement} {index : List (ℤ × ℕ)}
    (h : indexFieldIds schema = .ok index) : Indexed schema index := by
  have hmem : ∀ el r, (el, r) ∈ schema.zipIdx.drop 1 ↔ schema[r]? = some el ∧ r ≠ 0 := by
    intro el r
    cases schema with
    | nil => simp
    | cons root schema =>
      rw [List.zipIdx_cons, List.drop_one, List.tail_cons, List.mem_zipIdx_iff_le_and_getElem?_sub]
      cases r with
      | zero => simp
      | succ r => simp
  have hstart : IndexedBy [] [] := fun id p hp => nomatch hp
  have hindexed : IndexedBy ([] ++ schema.zipIdx.drop 1) index := hstart.foldlM h
  intro id
  have hid := hindexed id
  rw [List.nil_append] at hid
  cases hlookup : index.lookup id with
  | some r =>
    rw [hlookup] at hid
    obtain ⟨el, hel, heq⟩ := hid
    exact ⟨el, ((hmem el r).mp hel).1, heq⟩
  | none =>
    rw [hlookup] at hid
    exact fun r hr el hel => hid (el, r) ((hmem el r).mpr ⟨hel, hr⟩)

/-- The slots number the columns that are read. -/
structure Reads.Ok (reads : Reads) : Prop where
  length : reads.names.length = reads.indices.length
  slots : ∀ ordinal slot, reads.slots.lookup ordinal = some slot →
    reads.indices[slot]? = some ordinal

variable {info : SchemaInfo} {reads reads' : Reads} {index : List (ℤ × ℕ)} {roots : List ℕ}
  {field : FieldRequirement V} {fields : List (FieldRequirement V)}

theorem getElem?_mono {α : Type} {xs ys : List α} {i : ℕ} {a : α} (h : xs <+: ys)
    (hx : xs[i]? = some a) : ys[i]? = some a := by
  obtain ⟨zs, rfl⟩ := h
  rw [List.getElem?_append_left (List.getElem?_eq_some_iff.mp hx).1, hx]

/-- A column gets a slot, and those that have one keep it. -/
theorem Reads.Ok.slot (h : reads.Ok) {ordinal slot : ℕ}
    (hs : reads.slot info ordinal = .ok (reads', slot)) :
    reads'.Ok ∧ reads.indices <+: reads'.indices ∧ reads'.indices[slot]? = some ordinal := by
  rw [Reads.slot] at hs
  split at hs
  · next old hold =>
    obtain ⟨rfl, rfl⟩ := Prod.mk.inj (Except.ok.inj hs)
    exact ⟨h, List.prefix_rfl, h.slots ordinal _ hold⟩
  · next hnew =>
    split at hs
    · obtain ⟨rfl, rfl⟩ := Prod.mk.inj (Except.ok.inj hs)
      have hlast : (reads.indices ++ [ordinal])[reads.names.length]? = some ordinal := by
        rw [h.length]
        exact List.getElem?_concat_length
      refine ⟨⟨?_, fun o slot hslot => ?_⟩, List.prefix_append _ _, hlast⟩
      · simp [h.length]
      · dsimp only at hslot ⊢
        rw [lookup_concat] at hslot
        cases hold : reads.slots.lookup o with
        | some old =>
          rw [hold] at hslot
          rw [← Option.some.inj hslot]
          exact getElem?_mono (List.prefix_append _ _) (h.slots o old hold)
        | none =>
          rw [hold, Option.none_or] at hslot
          split_ifs at hslot with ho
          rw [ho, ← Option.some.inj hslot]
          exact hlast
    · cases hs

/-- An operation is bound to the column that has the field's id, or to a default when no element has
    it. -/
structure Bound (index : List (ℤ × ℕ)) (roots : List ℕ) (info : SchemaInfo) (indices : List ℕ)
    (field : FieldRequirement V) (op : Operation V) : Prop where
  source : op.field = field
  target : flatType field.type = .ok op.targetType
  column : match op.physicalSlot with
    | none => index.lookup field.id = none ∧ field.missingValue.isSome
    | some slot => ∃ element ordinal type, index.lookup field.id = some element ∧
        roots.zipIdx.lookup element = some ordinal ∧ info.types[ordinal]? = some type ∧
        flatType type = .ok op.physicalType ∧ indices[slot]? = some ordinal

theorem compileField_spec (h : reads.Ok)
    (hc : compileField index roots info reads field = .ok (reads', op)) :
    reads'.Ok ∧ reads.indices <+: reads'.indices ∧
      Bound index roots info reads'.indices field op := by
  rw [compileField] at hc
  obtain ⟨-, hc⟩ := ite_error_eq_ok.mp hc
  obtain ⟨target, htarget, hc⟩ := bind_eq_ok.mp hc
  split at hc
  · next hlookup =>
    split at hc
    · cases hc
    next value hvalue =>
    obtain ⟨-, hc⟩ := ite_error_eq_ok.mp hc
    obtain ⟨rfl, rfl⟩ := Prod.mk.inj (Except.ok.inj hc)
    exact ⟨h, List.prefix_rfl, rfl, htarget, hlookup, by rw [hvalue]; rfl⟩
  · next element hlookup =>
    split at hc
    · cases hc
    next ordinal hordinal =>
    split at hc
    · cases hc
    next type htype =>
    obtain ⟨physical, hphysical, hc⟩ := bind_eq_ok.mp hc
    obtain ⟨-, hc⟩ := ite_error_eq_ok.mp hc
    obtain ⟨⟨next, slot⟩, hslot, hc⟩ := bind_eq_ok.mp hc
    obtain ⟨rfl, rfl⟩ := Prod.mk.inj (Except.ok.inj hc)
    obtain ⟨hok, hsub, hget⟩ := h.slot hslot
    exact ⟨hok, hsub, rfl, htarget, element, ordinal, type, hlookup, hordinal, htype, hphysical,
      hget⟩

/-- A binding stays when more columns are read. -/
theorem Bound.mono {indices indices' : List ℕ} (h : Bound index roots info indices field op)
    (hsub : indices <+: indices') : Bound index roots info indices' field op where
  source := h.source
  target := h.target
  column := by
    have hcolumn := h.column
    cases hslot : op.physicalSlot with
    | none =>
      rw [hslot] at hcolumn
      exact hcolumn
    | some slot =>
      rw [hslot] at hcolumn
      obtain ⟨element, ordinal, type, hlookup, hordinal, htype, hphysical, hget⟩ := hcolumn
      exact ⟨element, ordinal, type, hlookup, hordinal, htype, hphysical, getElem?_mono hsub hget⟩

/-- Every field is bound. -/
theorem compileFields_spec (h : reads.Ok) {ops : List (Operation V)}
    (hc : compileFields index roots info reads fields = .ok (reads', ops)) :
    reads'.Ok ∧ reads.indices <+: reads'.indices ∧
      List.Forall₂ (Bound index roots info reads'.indices) fields ops := by
  induction fields generalizing reads ops with
  | nil =>
    obtain ⟨rfl, rfl⟩ := Prod.mk.inj (Except.ok.inj hc)
    exact ⟨h, List.prefix_rfl, .nil⟩
  | cons field fields ih =>
    rw [compileFields, bind_eq_ok] at hc
    obtain ⟨⟨reads₁, op⟩, hfield, hc⟩ := hc
    obtain ⟨⟨reads₂, rest⟩, hrest, hc⟩ := bind_eq_ok.mp hc
    obtain ⟨rfl, rfl⟩ := Prod.mk.inj (Except.ok.inj hc)
    obtain ⟨hok₁, hsub₁, hbound⟩ := compileField_spec h hfield
    obtain ⟨hok₂, hsub₂, hall⟩ := ih hok₁ hrest
    exact ⟨hok₂, hsub₁.trans hsub₂, .cons (hbound.mono hsub₂) hall⟩

/-- The carrier is read when nothing else is. -/
theorem Reads.Ok.withCarrier (h : reads.Ok) {policy : CarrierPolicy}
    (hc : reads.withCarrier info policy = .ok reads') :
    reads'.names.length = reads'.indices.length ∧ reads'.names ≠ [] ∧
      reads.indices <+: reads'.indices := by
  rw [Reads.withCarrier] at hc
  split_ifs at hc with hempty
  · split at hc
    · next name type i hfind =>
      rw [← Except.ok.inj hc]
      have hnone : reads.indices = [] := by
        rw [← List.length_eq_zero_iff, ← h.length, List.length_eq_zero_iff]
        exact List.isEmpty_iff.mp hempty
      exact ⟨rfl, List.cons_ne_nil _ _, hnone ▸ List.nil_prefix⟩
    · cases hc
  · rw [← Except.ok.inj hc]
    exact ⟨h.length, by simpa using hempty, List.prefix_rfl⟩

/-- What a mapping that `compile` made binds. -/
structure Compiled (mapSubtree : ℕ → Except String LogicalType) (metadata : Option Metadata)
    (fields : List (FieldRequirement V)) (scope : Scope) (m : Mapping V)
    (footer : List SchemaElement) (roots : List ℕ) (info : SchemaInfo) (index : List (ℤ × ℕ)) :
    Prop where
  footer_eq : ∃ md, metadata = some md ∧ md.footer = some footer
  indexed : Indexed footer index
  roots_eq : topLevelSchemaIndices footer = .ok roots
  info_eq : extractSchema mapSubtree scope footer = .ok info
  width : m.reads.names.length = m.reads.indices.length
  names : m.reads.names ≠ []
  bound : List.Forall₂ (Bound index roots info m.reads.indices) fields m.operations

theorem compiled_of_eq_ok {mapSubtree : ℕ → Except String LogicalType}
    {metadata : Option Metadata} {identity : String} {program : Program} {scope : Scope}
    {policy : CarrierPolicy} {m : Mapping V}
    (h : compile mapSubtree metadata identity program fields scope policy = .ok m) :
    ∃ footer roots info index,
      Compiled mapSubtree metadata fields scope m footer roots info index := by
  rw [compile.eq_def] at h
  split at h
  · cases h
  next md =>
  split_ifs at h
  split at h
  · cases h
  · cases h
  next footer _ hfooter =>
  obtain ⟨index, hindex, h⟩ := bind_eq_ok.mp h
  obtain ⟨info, hinfo, h⟩ := bind_eq_ok.mp h
  obtain ⟨-, h⟩ := ite_error_eq_ok.mp h
  obtain ⟨roots, hroots, h⟩ := bind_eq_ok.mp h
  obtain ⟨-, h⟩ := ite_error_eq_ok.mp h
  obtain ⟨⟨reads, operations⟩, hfields, h⟩ := bind_eq_ok.mp h
  obtain ⟨reads', hcarrier, h⟩ := bind_eq_ok.mp h
  obtain ⟨-, h⟩ := ite_error_eq_ok.mp h
  rw [← Except.ok.inj h]
  have hempty : Reads.Ok {} := ⟨rfl, fun _ _ hslot => nomatch hslot⟩
  obtain ⟨hok, -, hbound⟩ := compileFields_spec hempty hfields
  obtain ⟨hwidth, hnames, hsub⟩ := hok.withCarrier hcarrier
  exact ⟨footer, roots, info, index, ⟨md, rfl, hfooter⟩, indexed_of_eq_ok hindex, hroots, hinfo,
    hwidth, hnames, hbound.imp fun _ _ hb => hb.mono hsub⟩

/-! ## The outputs -/

/-- The column that a field asks for: the one of the file that has its id, cast to its type, or its
    default when no element of the file has the id. -/
def Requested (lib : Library V Column) (footer : List SchemaElement) (roots : List ℕ)
    (file : ℕ → Column) (rows : ℤ) (field : FieldRequirement V) (column : Column) : Prop :=
  ∃ target, flatType field.type = .ok target ∧
    ((∃ k r el, roots[k]? = some r ∧ footer[r]? = some el ∧ el.fieldId = some field.id ∧
        column = if lib.type (file k) = target then file k else lib.cast (file k) target) ∨
      ((∀ r ≠ 0, ∀ el, footer[r]? = some el → el.fieldId ≠ some field.id) ∧
        ∃ value, field.missingValue = some value ∧
          column = lib.constant target value.payload rows))

theorem getElem?_of_lookup_zipIdx {element ordinal : ℕ}
    (h : roots.zipIdx.lookup element = some ordinal) : roots[ordinal]? = some element :=
  List.mem_zipIdx_iff_getElem?.mp (mem_of_lookup h)

/-- The output of a bound operation is the requested column. -/
theorem Bound.requested {footer : List SchemaElement} {indices : List ℕ}
    (h : Bound index roots info indices field op) (hindexed : Indexed footer index)
    {file : ℕ → Column} (hfits : op.Fits lib (indices.map file)) {column : Column}
    (hout : op.output lib (indices.map file) rows column) :
    Requested lib footer roots file rows field column := by
  have hcolumn := h.column
  have hid := hindexed field.id
  refine ⟨op.targetType, h.target, ?_⟩
  rw [Operation.output] at hout
  cases hslot : op.physicalSlot with
  | none =>
    rw [hslot] at hcolumn hout
    obtain ⟨value, hvalue, rfl⟩ := hout
    rw [hcolumn.1] at hid
    exact .inr ⟨hid, value, h.source ▸ hvalue, rfl⟩
  | some slot =>
    rw [hslot] at hcolumn hout
    obtain ⟨element, ordinal, type, hlookup, hordinal, -, -, hget⟩ := hcolumn
    obtain ⟨decoded, hdecoded, rfl⟩ := hout
    rw [hlookup] at hid
    obtain ⟨el, hel, hfield⟩ := hid
    have htype := hfits slot hslot
    rw [List.getElem?_map, hget] at hdecoded htype
    have hfile : file ordinal = decoded := Option.some.inj hdecoded
    have hphysical : lib.type (file ordinal) = op.physicalType := Option.some.inj htype
    refine .inl ⟨ordinal, element, el, getElem?_of_lookup_zipIdx hordinal, hel, hfield, ?_⟩
    rw [hfile, ← hphysical, hfile, ite_not]

theorem requested_of_bound {footer : List SchemaElement} {indices : List ℕ}
    (hindexed : Indexed footer index) {file : ℕ → Column} {output : List Column}
    (hbound : List.Forall₂ (Bound index roots info indices) fields ops)
    (hout : List.Forall₂ (Operation.output lib (indices.map file) rows) ops output)
    (hfits : ∀ op ∈ ops, op.Fits lib (indices.map file)) :
    List.Forall₂ (Requested lib footer roots file rows) fields output := by
  induction hbound generalizing output with
  | nil =>
    cases hout
    exact .nil
  | cons hb _ ih =>
    cases hout with
    | cons ho hout =>
      have hfits := List.forall_mem_cons.mp hfits
      exact .cons (hb.requested hindexed hfits.1 ho) (ih hout hfits.2)

section Outputs

variable {mapSubtree : ℕ → Except String LogicalType} {metadata : Option Metadata} {scope : Scope}
  {m : Mapping V} {footer : List SchemaElement}

theorem Compiled.exists_bound
    (h : Compiled mapSubtree metadata fields scope m footer roots info index)
    (hop : op ∈ m.operations) :
    ∃ field ∈ fields, Bound index roots info m.reads.indices field op := by
  have hbound := h.bound
  clear h
  generalize m.operations = ops at hop hbound
  induction hbound with
  | nil => cases hop
  | cons hb _ ih =>
    rcases List.mem_cons.mp hop with rfl | hop
    · exact ⟨_, List.mem_cons_self, hb⟩
    · obtain ⟨field, hmem, hb⟩ := ih hop
      exact ⟨field, List.mem_cons_of_mem _ hmem, hb⟩

theorem Compiled.default (h : Compiled mapSubtree metadata fields scope m footer roots info index)
    (hop : op ∈ m.operations) (hslot : op.physicalSlot = none) :
    op.field.missingValue.isSome := by
  obtain ⟨field, -, hbound⟩ := h.exists_bound hop
  have hcolumn := hbound.column
  rw [hslot] at hcolumn
  rw [hbound.source]
  exact hcolumn.2

/-- A column that was moved out is not read. -/
theorem Compiled.apply_ne (h : Compiled mapSubtree metadata fields scope m footer roots info index)
    (lib : Library V Column) (decoded : Table Column) (rows : ℤ) :
    m.apply lib decoded rows ≠ .error .undefinedRead := by
  by_cases hfits : (0 ≤ rows ∧ rows ≤ 2 ^ 31 - 1 ∧ decoded.numRows = rows) ∧
      decoded.columns.length = m.reads.names.length ∧
      ∀ op ∈ m.operations, op.Fits lib decoded.columns
  · obtain ⟨output, -, hok⟩ := apply_of_fits m lib decoded hfits.1 hfits.2.1 hfits.2.2
      fun op hop => h.default hop
    rw [hok]
    exact fun hne => nomatch hne
  · obtain ⟨what, hthrown⟩ := apply_eq_error m lib decoded h.names hfits
    rw [hthrown]
    exact fun hne => nomatch hne

theorem Compiled.apply_requested
    (h : Compiled mapSubtree metadata fields scope m footer roots info index)
    {file : ℕ → Column} {batch : Batch Column}
    (hbatch : m.apply lib ⟨m.reads.indices.map file, rows⟩ rows = .ok batch) :
    if fields = [] ∧ rows ≠ 0 then batch.columns = [lib.carrier rows]
    else List.Forall₂ (Requested lib footer roots file rows) fields batch.columns := by
  by_cases hfits : (0 ≤ rows ∧ rows ≤ 2 ^ 31 - 1 ∧ rows = rows) ∧
      (m.reads.indices.map file).length = m.reads.names.length ∧
      ∀ op ∈ m.operations, op.Fits lib (m.reads.indices.map file)
  · obtain ⟨output, hall, hok⟩ := apply_of_fits m lib ⟨m.reads.indices.map file, rows⟩ hfits.1
      hfits.2.1 hfits.2.2 fun op hop => h.default hop
    rw [hok] at hbatch
    rw [← Except.ok.inj hbatch]
    have hrequested := requested_of_bound h.indexed h.bound hall hfits.2.2
    have hempty : output.isEmpty = true ↔ fields = [] := by
      rw [List.isEmpty_iff, ← List.length_eq_zero_iff, ← hrequested.length_eq,
        List.length_eq_zero_iff]
    simp only [← hempty]
    split_ifs
    · rfl
    · exact hrequested
  · obtain ⟨what, hthrown⟩ := apply_eq_error m lib ⟨_, rows⟩ h.names hfits
    rw [hthrown] at hbatch
    cases hbatch

/-- The mapping reads the columns that the operations use. -/
theorem Compiled.fits (h : Compiled mapSubtree metadata fields scope m footer roots info index)
    {file : ℕ → Column} (htypes : ∀ k ∈ m.reads.indices, ∀ type, info.types[k]? = some type →
      flatType type = .ok (lib.type (file k))) (hop : op ∈ m.operations) :
    op.Fits lib (m.reads.indices.map file) := by
  intro slot hslot
  obtain ⟨field, -, hbound⟩ := h.exists_bound hop
  have hcolumn := hbound.column
  rw [hslot] at hcolumn
  obtain ⟨element, ordinal, type, -, -, htype, hphysical, hget⟩ := hcolumn
  have hdecoded := htypes ordinal (List.mem_of_getElem? hget) type htype
  rw [List.getElem?_map, hget, Option.map_some, Option.map_some,
    Except.ok.inj (hphysical.symm.trans hdecoded)]

end Outputs

/-- **The columns of a field mapping.** For a mapping that `compile` made, `apply` never reads a
    column that was moved out, whatever it is given. Given the columns of the file that the mapping
    reads, it returns for each field the requested column, also when several fields ask for one
    column; and it does return when the columns have the types that the schema gives them. -/
theorem field_mapping_outputs {mapSubtree : ℕ → Except String LogicalType}
    {metadata : Option Metadata} {identity : String} {program : Program} {scope : Scope}
    {policy : CarrierPolicy} {m : Mapping V}
    (h : compile mapSubtree metadata identity program fields scope policy = .ok m) :
    ∃ footer roots info, (∃ md, metadata = some md ∧ md.footer = some footer) ∧
      topLevelSchemaIndices footer = .ok roots ∧ extractSchema mapSubtree scope footer = .ok info ∧
      ∀ {Column : Type} (lib : Library V Column),
        (∀ decoded rows, m.apply lib decoded rows ≠ .error .undefinedRead) ∧
        (∀ file rows batch, m.apply lib ⟨m.reads.indices.map file, rows⟩ rows = .ok batch →
          if fields = [] ∧ rows ≠ 0 then batch.columns = [lib.carrier rows]
          else List.Forall₂ (Requested lib footer roots file rows) fields batch.columns) ∧
        (∀ file rows, 0 ≤ rows → rows ≤ 2 ^ 31 - 1 →
          (∀ k ∈ m.reads.indices, ∀ type, info.types[k]? = some type →
            flatType type = .ok (lib.type (file k))) →
          ∃ batch, m.apply lib ⟨m.reads.indices.map file, rows⟩ rows = .ok batch) := by
  obtain ⟨footer, roots, info, index, hc⟩ := compiled_of_eq_ok h
  refine ⟨footer, roots, info, hc.footer_eq, hc.roots_eq, hc.info_eq, fun lib => ?_⟩
  refine ⟨hc.apply_ne lib, fun file rows batch => hc.apply_requested, ?_⟩
  intro file rows hlow hhigh htypes
  obtain ⟨output, -, hok⟩ := apply_of_fits m lib ⟨m.reads.indices.map file, rows⟩
    ⟨hlow, hhigh, rfl⟩ (by rw [List.length_map, hc.width]) (fun op hop => hc.fits htypes hop)
    fun op hop => hc.default hop
  exact ⟨_, hok⟩

/-- A file with two columns, and three fields: the second column twice, once as it is and once
    widened, and a column that the file lacks. -/
def twoColumns : List SchemaElement :=
  [{ name := "root", fieldId := none, numChildren := 2 },
   { name := "a", fieldId := some 4, numChildren := 0 },
   { name := "b", fieldId := some 7, numChildren := 0 }]

def threeFields : List (FieldRequirement ℤ) :=
  [{ id := 7, type := .bigint, allowInt32ToInt64 := true },
   { id := 9, type := .double, missingValue := some ⟨.double, none⟩ },
   { id := 7, type := .integer }]

/-- Columns as the lists of their values. -/
def listLibrary : Library ℤ (DataType × List (Option ℤ)) where
  Scalar := DataType × Option ℤ
  type := Prod.fst
  cast column type := (type, column.2)
  nullScalar type := (type, none)
  numericScalar type value := (type, some value)
  timestampScalar type value := (type, some value)
  stringScalar value := (.string, some value)
  makeColumnFromScalar scalar rows := (scalar.1, List.replicate rows.toNat scalar.2)
  carrier rows := (.bool8, List.replicate rows.toNat none)

/-- The values of column `k` of the file. -/
def tens (k : ℕ) : DataType × List (Option ℤ) := (.int32, [some (10 * k), some (10 * k + 1)])

theorem field_mapping_outputs_threeFields :
    ∃ m batch, compile (fun _ => .ok .integer) (some ⟨"f", some twoColumns⟩) "f"
        ⟨1, 1, some [.int64, .float64, .int32]⟩ threeFields .flatFile .legacyScalars = .ok m ∧
      m.apply listLibrary ⟨m.reads.indices.map tens, 2⟩ 2 = .ok batch ∧
      batch.columns = [(.int64, [some 10, some 11]), (.float64, [none, none]),
        (.int32, [some 10, some 11])] ∧
      List.Forall₂ (Requested listLibrary twoColumns [1, 2] tens 2) threeFields batch.columns := by
  have hcompile : compile (fun _ => .ok .integer) (some ⟨"f", some twoColumns⟩) "f"
      ⟨1, 1, some [.int64, .float64, .int32]⟩ threeFields .flatFile .legacyScalars = .ok _ := rfl
  obtain ⟨footer, roots, info, ⟨md, hmd, hfooter⟩, hroots, -, hlib⟩ :=
    field_mapping_outputs hcompile
  cases hmd
  cases hfooter
  cases hroots
  refine ⟨_, _, hcompile, rfl, rfl, ?_⟩
  have hrequested := (hlib listLibrary).2.1 tens 2 _ rfl
  rwa [if_neg (by rintro ⟨⟨⟩, -⟩)] at hrequested

end Sirius.Scan.FieldIds
