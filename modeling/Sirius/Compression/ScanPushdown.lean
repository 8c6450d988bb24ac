import Sirius.Common.Checked
import Sirius.Compression.Hpln
import Sirius.Compression.PlanTree

/-!
# Decoding a compressed chunk under the filter of a scan

Model of src/compression/compressed_scan.cpp, of `probe_column`
(src/compression/simpatico_codegen/src/plan/decompress.cpp:1289-1432) and of
`try_decompress_fused` and `decompress_scan_filter`
(src/compression/simpatico_codegen/src/simpatico_codegen.cpp:346-923, 1209-1270).

A chunk is its columns, each with its plan and with the values the decode reconstructs.
What a kernel does with a source is its meaning on these values: a range keeps the rows
whose value lies in it, an equality the rows whose text is listed, a join filter the rows
it answers yes for. The selectivity of a batch is a quotient of two doubles, of which
nothing is used but the order, so a double is an element of a linear order `F`.

A computation of the decoder may refuse, after which the rows are decoded plainly, and it
may throw. Failures of the device are left out.
-/

namespace Sirius.Compression.Pushdown

open Sirius.Common
open Hpln (TypeId DataType ValidityKind)
open Plan (Str ValueId)

/-- How a computation stops: it declines the request, or it throws. -/
inductive Halt where
  | refused (why : String)
  | thrown (what : String)
  deriving DecidableEq, Repr

/-! ## Plans -/

/-- A representation that a node owns. -/
structure Rep where
  identity : Bool
  decodedType : DataType
  deriving DecidableEq, Repr

/-- `PlanNode` with its representation and those of its channels, by output path. -/
structure Node extends Plan.PlanNode where
  rep : Option Rep := none
  channels : List (Str × Rep) := []
  deriving DecidableEq, Repr

structure PlanTree where
  nodes : List Node
  validity : ValidityKind := .allValid
  deriving DecidableEq, Repr

/-- `decode_route`. -/
inductive Route where
  | full | bitpackMask | deltaMask | dictCodes | strSplit
  deriving DecidableEq, Repr

/-- `column_decode_caps` (plan_interpreter.hpp:185-223). -/
structure DecodeCaps where
  compactRoute : Route := .full
  canAnswerEquality : Bool := false
  rangeComparableLane : Bool := true
  deriving DecidableEq, Repr

def DecodeCaps.canProduceMask (caps : DecodeCaps) : Bool :=
  decide (caps.compactRoute = .bitpackMask) && caps.rangeComparableLane

namespace PlanTree

/-- The node that produces the value of the column: the first one that consumes `(0, 0)`
    (`root_value_producer`). -/
def rootValueProducer (tree : PlanTree) : Option Node :=
  match tree.nodes with
  | [] => none
  | input :: rest =>
    if input.op = "input".toList then
      rest.find? fun node => node.inputSources.head? = some ⟨0, 0⟩
    else none

/-- The root value comes from a node of this operator. -/
def rootIs (tree : PlanTree) (op : String) : Bool :=
  tree.rootValueProducer.any fun node => node.op = op.toList

/-- The first edge of the channel leads to a node of one of these operators. -/
def leadsTo (tree : PlanTree) (node : Node) (channel : String) (ops : List String) : Bool :=
  match node.children.find? fun e => e.1 = channel.toList with
  | some e => (tree.nodes[e.2]?).any fun child => ops.any fun op => child.op = op.toList
  | none => false

/-- `bitpack_selection_root`. -/
def bitpackSelectionRoot (tree : PlanTree) : Bool := tree.rootIs "bitpack"

/-- `dictionary_value_root`. -/
def dictionaryValueRoot (tree : PlanTree) : Bool := tree.rootIs "dictionary"

/-- `delta_selection_root`. -/
def deltaSelectionRoot (tree : PlanTree) : Bool :=
  tree.rootValueProducer.any fun node =>
    node.op = "delta".toList && tree.leadsTo node "differences" ["bitpack"]

/-- `dict_codes_selection_root`. -/
def dictCodesSelectionRoot (tree : PlanTree) : Bool :=
  tree.rootValueProducer.any fun node =>
    node.op = "dictionary".toList && tree.leadsTo node "indices" ["bitpack"]

/-- `locate_str_split_shape` finds a shape: the characters are stored raw as bytes and
    nobody consumes them, and the offsets are packed. -/
def strSplitSelectionRoot (tree : PlanTree) : Bool :=
  tree.rootValueProducer.any fun node =>
    let ports := node.outputNames.zipIdx
    let charsRaw := fun i =>
      ((node.outputPaths[i]?).bind fun path => node.channels.lookup path).any fun rep =>
        rep.identity && decide (rep.decodedType.id = .uint8)
    node.op = "str_split".toList &&
      !(ports.any fun p => p.1 = "chars".toList &&
        node.children.any fun e => e.1 = "chars".toList) &&
      (ports.any fun p => p.1 = "chars".toList && charsRaw p.2) &&
      (ports.any fun p => p.1 = "offsets".toList &&
        tree.leadsTo node "offsets" ["bitpack", "delta"])

end PlanTree

/-! ## The decoder's surroundings -/

/-- `cudf::size_of`, the double quotient of two row counts, and the knobs of
    decompression_pushdown_policy.hpp. -/
structure Decoder (F : Type) where
  sizeOf : TypeId → Option ℕ
  quotient : ℕ → ℕ → F
  enabled : Bool
  maxSelectivity : F
  fullRouteMaxSelectivity : F
  maxMembershipSources : ℕ

variable {F : Type} [LinearOrder F] (d : Decoder F)

/-- The root decodes into a lane of at most 64 bits. -/
def rangeComparableLane (tree : PlanTree) : Except Halt Bool :=
  match tree.rootValueProducer.bind Node.rep with
  | none => .ok true
  | some rep =>
    match d.sizeOf rep.decodedType.id with
    | some width => .ok (decide (width ≤ 8))
    | none => .error (.thrown "Invalid, non fixed-width element type.")

/-- `simpatico::probe_column` (decompress.cpp:1408-1436). -/
def probePlan (tree : PlanTree) : Except Halt DecodeCaps :=
  let equality := tree.dictionaryValueRoot
  if tree.validity ≠ .allValid then .ok { canAnswerEquality := equality }
  else if tree.bitpackSelectionRoot then
    (rangeComparableLane d tree).map fun lane => ⟨.bitpackMask, equality, lane⟩
  else if tree.deltaSelectionRoot then .ok ⟨.deltaMask, equality, true⟩
  else if tree.dictCodesSelectionRoot then .ok ⟨.dictCodes, equality, true⟩
  else if tree.strSplitSelectionRoot then .ok ⟨.strSplit, equality, true⟩
  else .ok { canAnswerEquality := equality }

/-! ## Chunks and requests -/

/-- A column of a chunk, with the values its rows decode to: `lane` in the integer domain
    of the ranges, `text` for a column of strings. -/
structure Column where
  dtype : DataType
  numRows : ℤ
  planTree : Option PlanTree
  lane : ℕ → ℤ := fun _ => 0
  text : ℕ → String := fun _ => ""

/-- `compressed_table`. -/
structure Chunk where
  columns : List Column

/-- `compressed_table::num_rows`: the rows of the first column. -/
def Chunk.numRows (chunk : Chunk) : ℤ :=
  match chunk.columns with
  | [] => 0
  | column :: _ => column.numRows

/-- `decode_range`, with both bounds. -/
structure DecodeRange where
  lo : ℤ
  hi : ℤ
  deriving DecidableEq, Repr

/-- `membership_probe`: `none` is an empty function, and a probe that returns no flags
    declines the chunk. -/
structure MembershipProbe where
  probe : Option (Column → Option (ℕ → Bool))
  selectivityRank : ℕ := 255
  numKeys : ℕ := 0

/-- `pushdown_request::column_entry`. -/
structure ColumnEntry where
  equalsAny : List String := []
  range : Option DecodeRange := none
  membership : List MembershipProbe := []

def ColumnEntry.empty (entry : ColumnEntry) : Bool :=
  entry.equalsAny.isEmpty && entry.range.isNone && entry.membership.isEmpty

/-- `pushdown_request`. An output prefix is set only when it lies in
    `[1, columns.size())` (compressed_scan.hpp:199-202, scan_filter_analysis.cpp:542-545). -/
structure Request where
  columns : List ColumnEntry
  rangesCoverWholeFilter : Bool := false
  rowSelectionDisabled : Bool := false
  outputPrefixWidth : Option ℕ := none
  prefix_pos : ∀ w ∈ outputPrefixWidth, 1 ≤ w ∧ w < columns.length

namespace Request

def empty (request : Request) : Bool := request.columns.all ColumnEntry.empty

def rangeAt (request : Request) (i : ℕ) : Option DecodeRange :=
  (request.columns[i]?).bind ColumnEntry.range

/-- `requested_membership_probes`. -/
def membershipProbes (request : Request) : ℕ :=
  (request.columns.map fun entry => entry.membership.length).sum

end Request

/-- `column_capability`. -/
structure Capability where
  comparableLane : Bool := false
  decode : DecodeCaps := {}
  deriving DecidableEq, Repr

def Capability.canSelectRows (capability : Capability) : Bool :=
  capability.comparableLane && capability.decode.canProduceMask

/-- The types whose lane compares as a signed 64-bit integer
    (compressed_scan.cpp:92-101). -/
def comparableType : TypeId → Bool
  | .int8 | .int16 | .int32 | .int64 | .timestampDays | .decimal32 | .decimal64 => true
  | _ => false

/-- `probe_column` (compressed_scan.cpp:86-105). -/
def probeColumn (chunk : Chunk) (index : ℕ) : Except Halt Capability :=
  match chunk.columns[index]? with
  | none => .ok {}
  | some column =>
    match column.planTree with
    | none => .ok ⟨comparableType column.dtype.id, {}⟩
    | some tree => (probePlan d tree).map fun caps => ⟨comparableType column.dtype.id, caps⟩

/-! ## The request of one chunk -/

/-- `chunk_pushdown_config::range_slot`, and whether its conjunct was dropped. -/
structure RangeSlot where
  bounds : DecodeRange := ⟨0, 0⟩
  selects : Bool := false
  dropped : Bool := false
  deriving DecidableEq, Repr

/-- What the planning of compressed_scan.cpp:182-223 makes of the range of one column. -/
def rangeSlot (range : Option DecodeRange) (capability : Capability) : RangeSlot :=
  match range with
  | none => {}
  | some bounds =>
    if bounds.lo > bounds.hi then ⟨bounds, false, true⟩
    else if !capability.canSelectRows then ⟨bounds, false, true⟩
    else ⟨bounds, true, false⟩

/-- `chunk_pushdown_config`. -/
structure Config where
  enabled : Bool := false
  coversWholeFilter : Bool := false
  ranges : List RangeSlot := []
  routes : List Route := []
  deriving DecidableEq, Repr

/-- `build_chunk_pushdown_config` (compressed_scan.cpp:141-256). -/
def buildChunkPushdownConfig (chunk : Chunk) (selected : List ℕ) (request : Request)
    (hasExternalSelection : Bool) : Except Halt Config :=
  if !(request.columns.any fun entry => entry.range.isSome) && !hasExternalSelection then .ok {}
  else if request.columns.length > selected.length then
    .error (.thrown "[decompression_pushdown_scan] decode request wider than the projection")
  else do
    let capabilities ← selected.mapM (probeColumn d chunk)
    let ranges := capabilities.mapIdx fun i c => rangeSlot (request.rangeAt i) c
    let selecting := ranges.countP RangeSlot.selects
    if decide (selecting = 0) && !hasExternalSelection then return {}
    return {
      enabled := true
      coversWholeFilter := request.rangesCoverWholeFilter && !ranges.any RangeSlot.dropped &&
        decide (0 < selecting)
      ranges
      routes := capabilities.map fun c => c.decode.compactRoute }

/-- `selection_source`. -/
inductive Source where
  | range (column : ℕ)
  | equality (column : ℕ)
  | membership (column : ℕ) (probe : MembershipProbe)

/-- `order_key`: what is exact comes first, then the join filters by rank and key count. -/
def Source.orderKey : Source → ℤ ×ₗ ℕ
  | .membership _ probe =>
    toLex (probe.selectivityRank, if probe.numKeys = 0 then 2 ^ 64 - 1 else probe.numKeys)
  | _ => toLex (-1, 0)

/-- The equalities and the join filters (compressed_scan.cpp:355-363). -/
def externalSources (request : Request) (width : ℕ) : List Source :=
  (request.columns.zipIdx.take width).flatMap fun p =>
    (if p.1.equalsAny.isEmpty then [] else [.equality p.2]) ++
      p.1.membership.map fun probe => .membership p.2 probe

/-- The ranges that the chunk evaluates (lines 369–371). -/
def rangeSources (config : Config) : List Source :=
  config.ranges.zipIdx.filterMap fun p => if p.1.selects then some (.range p.2) else none

def kMaxSelectionSources : ℕ := 8

/-- `scan_filter_request`; a keep mask is its number of rows and its bits. -/
structure ScanFilterRequest where
  filters : List (ℕ × DecodeRange) := []
  bool8Filters : List (ℕ × List String) := []
  membershipFilters : List (ℕ × MembershipProbe) := []
  routes : List Route := []
  keepMask : Option (ℕ × (ℕ → Bool)) := none
  deliveredPrefix : Option ℕ := none

/-- The request of wave 1 (compressed_scan.cpp:383-440); `sources` are in their order. -/
def waveRequest (selected : List ℕ) (request : Request) (config : Config)
    (sources : List Source) (keepMask : Option (ℕ × (ℕ → Bool))) : ScanFilterRequest where
  filters := sources.filterMap fun
    | .range column => some (column, (config.ranges[column]?.getD {}).bounds)
    | _ => none
  bool8Filters := sources.filterMap fun
    | .equality column => some (column, (request.columns[column]?.getD {}).equalsAny)
    | _ => none
  membershipFilters := sources.filterMap fun
    | .membership column probe => some (column, probe)
    | _ => none
  routes := config.routes
  keepMask
  deliveredPrefix :=
    if config.coversWholeFilter then request.outputPrefixWidth.filter (· < selected.length)
    else none

/-! ## The filtered decode -/

def refuseIf (condition : Bool) (why : String) : Except Halt Unit :=
  if condition then .error (.refused why) else .ok ()

/-- The column at a selected position. -/
def columnAt (chunk : Chunk) (selected : List ℕ) (i : ℕ) : Option Column :=
  (selected[i]?).bind fun index => chunk.columns[index]?

/-- `probe_column` of the plan at a selected position, which was checked to have one. -/
def probeAt (chunk : Chunk) (selected : List ℕ) (i : ℕ) : Except Halt DecodeCaps :=
  match (columnAt chunk selected i).bind Column.planTree with
  | some tree => probePlan d tree
  | none => .ok {}

/-- The checks on the selected columns (simpatico_codegen.cpp:415-425). -/
def checkColumn (chunk : Chunk) (index : ℕ) : Except Halt Unit :=
  match chunk.columns[index]? with
  | none => .error (.refused "selected column index out of range")
  | some column =>
    match column.planTree with
    | none => .error (.refused "selected column missing plan_tree or row-count mismatch")
    | some tree => do
      refuseIf (decide (column.numRows ≠ chunk.numRows))
        "selected column missing plan_tree or row-count mismatch"
      refuseIf (decide (tree.validity ≠ .allValid)) "selected column is nullable"

/-- The checks on a range (lines 426–433). -/
def checkFilter (chunk : Chunk) (selected : List ℕ) (filter : ℕ × DecodeRange) :
    Except Halt Unit := do
  refuseIf (decide (selected.length ≤ filter.1)) "filter directive column out of range"
  refuseIf (decide (filter.2.lo > filter.2.hi)) "empty predicate range (lo > hi)"
  let caps ← probeAt d chunk selected filter.1
  refuseIf (!caps.canProduceMask) "filter column plan is not a bitpack-rooted range source"

/-- The checks on an equality (lines 434–441). -/
def checkBool8 (chunk : Chunk) (selected : List ℕ) (filter : ℕ × List String) :
    Except Halt Unit := do
  refuseIf (decide (selected.length ≤ filter.1)) "bool8 directive column out of range"
  refuseIf filter.2.isEmpty "bool8 directive with empty equals_any"
  let caps ← probeAt d chunk selected filter.1
  refuseIf (!caps.canAnswerEquality) "bool8 filter column plan not dictionary-rooted"

/-- The checks on a join filter (lines 442–448). -/
def checkMembership (selected : List ℕ) (filter : ℕ × MembershipProbe) : Except Halt Unit := do
  refuseIf (decide (selected.length ≤ filter.1)) "membership directive column out of range"
  refuseIf filter.2.probe.isNone "membership directive with an empty probe"

/-- The routes of the decode: a range source decodes by its mask (lines 476–478). -/
def effectiveRoutes (request : ScanFilterRequest) : List Route :=
  request.routes.mapIdx fun i route =>
    if i ∈ request.filters.map Prod.fst then .bitpackMask else route

/-- A route that is asked for is the one of the plan (lines 479–491). -/
def checkRoute (chunk : Chunk) (selected : List ℕ) (request : ScanFilterRequest)
    (slot : Route × ℕ) : Except Halt Unit := do
  if slot.2 ∈ request.bool8Filters.map Prod.fst ∨ slot.1 = .full then return
  let caps ← probeAt d chunk selected slot.2
  refuseIf (decide (slot.1 ≠ caps.compactRoute))
    "requested decode route does not match the column's plan shape"

def ScanFilterRequest.delivered (request : ScanFilterRequest) (selected : List ℕ) : ℕ :=
  request.deliveredPrefix.getD selected.length

/-- The preconditions, before any work of the device (lines 380–491). -/
def checkRequest (chunk : Chunk) (selected : List ℕ) (request : ScanFilterRequest) :
    Except Halt Unit := do
  refuseIf (!d.enabled) "env gate off"
  let members := request.membershipFilters.take d.maxMembershipSources
  let total := request.filters.length + request.bool8Filters.length + members.length
  refuseIf (decide (total = 0)) "no mask directives (no range/bool8/membership)"
  refuseIf (decide (total + (if request.keepMask.isSome then 1 else 0) > 8))
    "more than 8 mask sources"
  refuseIf (decide (request.routes.length ≠ selected.length))
    "request.routes not parallel to selected"
  refuseIf (decide (request.delivered selected = 0 ∨
    request.delivered selected > selected.length))
    "delivered_prefix outside [1, selected.size()]"
  refuseIf (decide (chunk.numRows ≤ 0)) "num_rows <= 0"
  refuseIf (decide (chunk.numRows > 2 ^ 31 - 1)) "num_rows > INT32_MAX (int32 row indices)"
  refuseIf (request.keepMask.any fun mask => decide ((mask.1 : ℤ) ≠ chunk.numRows))
    "keep mask row count != batch rows (positional mask misaligned)"
  selected.forM (checkColumn chunk)
  request.filters.forM (checkFilter d chunk selected)
  request.bool8Filters.forM (checkBool8 d chunk selected)
  members.forM (checkMembership selected)
  refuseIf (decide (¬(request.bool8Filters.map Prod.fst).Nodup))
    "duplicate bool8 directives on one column"
  (effectiveRoutes request).zipIdx.forM (checkRoute d chunk selected request)

/-- What a join filter answers on its column; `none` if it declines. -/
def answer (chunk : Chunk) (selected : List ℕ) (filter : ℕ × MembershipProbe) :
    Option (ℕ → Bool) := do
  (← filter.2.probe) (← columnAt chunk selected filter.1)

/-! ## Masks -/

/-- `selection_mask::AllocWordsFor`, in bits: a strip of 1024 bits for every 1024 rows, also
    for the last ones (selection.hpp:71-82). -/
def paddedBits (rows : ℕ) : ℕ := (rows + 1023) / 1024 * 1024

/-- A ballot over the rows; the lanes past the last row vote 0. -/
def ballot (rows : ℕ) (keeps : ℕ → Bool) (bit : ℕ) : Bool := decide (bit < rows) && keeps bit

/-- The strip of a range (decompress.cpp:1444-1454). -/
def rangeStrip (chunk : Chunk) (selected : List ℕ) (filter : ℕ × DecodeRange) : ℕ → Bool :=
  ballot chunk.numRows.toNat fun row => (columnAt chunk selected filter.1).any fun column =>
    decide (filter.2.lo ≤ column.lane row ∧ column.lane row ≤ filter.2.hi)

/-- The strip of an equality (lines 1245–1260). -/
def bool8Strip (chunk : Chunk) (selected : List ℕ) (filter : ℕ × List String) : ℕ → Bool :=
  ballot chunk.numRows.toNat fun row => (columnAt chunk selected filter.1).any fun column =>
    decide (column.text row ∈ filter.2)

/-- The strip of a join filter. One that declines fills all of it with ones
    (lines 1455–1485). -/
def memberStrip (rows : ℕ) : Option (ℕ → Bool) → ℕ → Bool
  | none => fun _ => true
  | some keeps => ballot rows keeps

/-- The strip of the keep mask: its words as they are, and zeroes behind them
    (simpatico_codegen.cpp:594-622). -/
def keepStrip (mask : ℕ × (ℕ → Bool)) (bit : ℕ) : Bool :=
  decide (bit < (mask.1 + 31) / 32 * 32) && mask.2 bit

/-- `combine_masks_and`. -/
def combineMasksAnd (strips : List (ℕ → Bool)) (bit : ℕ) : Bool :=
  strips.all fun strip => strip bit

/-- The join filters one after the other, each on the mask that the earlier ones left. One
    that declines leaves it alone (lines 657–682). -/
def membershipCascade (rows : ℕ) (combined : ℕ → Bool) :
    List (Option (ℕ → Bool)) → ℕ → Bool
  | [] => combined
  | none :: rest => membershipCascade rows combined rest
  | some keeps :: rest =>
    membershipCascade rows (combineMasksAnd [combined, memberStrip rows (some keeps)]) rest

/-- With another source to start from, the join filters run after the combine
    (lines 575–578). -/
def sequentialMembership (request : ScanFilterRequest) (members : ℕ) : Bool :=
  decide (0 < members) &&
    (decide (0 < request.filters.length + request.bool8Filters.length) ||
      request.keepMask.isSome)

/-- The combined mask (lines 520–682). -/
def combinedMask (chunk : Chunk) (selected : List ℕ) (request : ScanFilterRequest)
    (answers : List (Option (ℕ → Bool))) : ℕ → Bool :=
  let rows := chunk.numRows.toNat
  let strips := request.filters.map (rangeStrip chunk selected) ++
    request.bool8Filters.map (bool8Strip chunk selected)
  let visible := request.keepMask.toList.map keepStrip
  if sequentialMembership request answers.length then
    membershipCascade rows (combineMasksAnd (strips ++ visible)) answers
  else combineMasksAnd (strips ++ answers.map (memberStrip rows) ++ visible)

/-! ## The decode by the mask -/

/-- Compaction is given up (lines 744–760). -/
def givesUp (request : ScanFilterRequest) (survivors rows : ℕ) : Bool :=
  let counted := (effectiveRoutes request).zipIdx.filter fun slot =>
    slot.2 ∉ request.bool8Filters.map Prod.fst
  let fraction := d.quotient survivors rows
  if counted.any fun slot => slot.1 = .full then decide (fraction > d.fullRouteMaxSelectivity)
  else decide (fraction > d.maxSelectivity) && !counted.any fun slot => slot.1 = .dictCodes

/-- How the filtered decode ends when it neither refuses nor throws. -/
inductive Fused where
  | declinedUnselective (probesApplied : ℕ)
  | applied (rows : List ℕ) (probesApplied : ℕ)
  deriving DecidableEq, Repr

/-- `try_decompress_fused` (lines 346–923). -/
def tryDecompressFused (chunk : Chunk) (selected : List ℕ) (request : ScanFilterRequest) :
    Except Halt Fused := do
  checkRequest d chunk selected request
  let members := request.membershipFilters.take d.maxMembershipSources
  let answers := members.map (answer chunk selected)
  let declined := answers.countP Option.isNone
  refuseIf (decide (declined =
      request.filters.length + request.bool8Filters.length + members.length))
    "every membership source declined"
  let total := chunk.numRows.toNat
  let rows := (List.range (paddedBits total)).filter (combinedMask chunk selected request answers)
  let ran := members.length - declined
  if givesUp d request rows.length total then return .declinedUnselective ran
  return .applied rows ran

/-! ## The decode of a chunk -/

/-- The rows of a decoded table: all of them, or the survivors. -/
inductive Batch where
  | full
  | compacted (rows : List ℕ)
  deriving DecidableEq, Repr

/-- `pushdown_outcome`, without the measurement of the join filters. -/
structure Outcome where
  rowFiltered : Bool := false
  selectionUnprofitable : Bool := false
  predicateColumns : List ℕ := []
  predicatesEnforced : Bool := false
  visibilityMaskApplied : Bool := false
  filterOnlyColumnsDropped : Bool := false
  membershipSkipped : Bool := false
  deriving DecidableEq, Repr

/-- `decompress_result`; `width` is the number of columns of the table. -/
structure Decoded where
  batch : Batch
  width : ℕ
  outcome : Outcome := {}
  deriving DecidableEq, Repr

/-- `decode_table_columns`, which checks every column it reads
    (simpatico_codegen.cpp:264-286). -/
def decodeTableColumns (chunk : Chunk) (selected : List ℕ) : Except Halt Decoded := do
  selected.forM fun index =>
    match chunk.columns[index]? with
    | none => .error (.thrown "selected column index out of range")
    | some column =>
      if column.planTree.isNone then .error (.thrown "decompress: column missing plan tree")
      else .ok ()
  return { batch := .full, width := selected.length }

/-- `decompress_scan_filter` (simpatico_codegen.cpp:1209-1270): a refusal is a plain
    decode. `none` is a request that was not carried out. -/
def decompressScanFilter (chunk : Chunk) (selected : List ℕ) (request : ScanFilterRequest) :
    Except Halt (Decoded × Option Fused) :=
  match tryDecompressFused d chunk selected request with
  | .ok (.applied rows ran) =>
    .ok ({ batch := .compacted rows, width := request.delivered selected },
      some (.applied rows ran))
  | .ok (.declinedUnselective ran) => do
    return (← decodeTableColumns chunk selected, some (.declinedUnselective ran))
  | .error (.refused _) => do return (← decodeTableColumns chunk selected, none)
  | .error (.thrown what) => .error (.thrown what)

/-- What the caller reports of the decode (compressed_scan.cpp:449-480). -/
def pushdownOutcome (config : Config) (wave : ScanFilterRequest) (result : Option Fused) :
    Outcome :=
  let applied := match result with
    | some (.applied _ _) => true
    | _ => false
  let unselective := match result with
    | some (.declinedUnselective _) => true
    | _ => false
  let ran := match result with
    | some (.applied _ ran) => ran
    | some (.declinedUnselective ran) => ran
    | none => 0
  { rowFiltered := applied && config.coversWholeFilter
    selectionUnprofitable := unselective
    predicatesEnforced := applied && !wave.bool8Filters.isEmpty
    visibilityMaskApplied := applied && wave.keepMask.isSome
    filterOnlyColumnsDropped :=
      applied && config.coversWholeFilter && wave.deliveredPrefix.isSome
    membershipSkipped :=
      !wave.membershipFilters.isEmpty && (!applied || decide (ran = 0)) }

/-- `decompress_with_pushdown` (compressed_scan.cpp:338-533): `none` is a null table. -/
def decompressWithPushdown (chunk : Chunk) (selected : List ℕ) (request : Request)
    (keepMask : Option (ℕ × (ℕ → Bool))) : Except Halt (Option Decoded) := do
  let external := externalSources request selected.length
  let config ← buildChunkPushdownConfig d chunk selected request !external.isEmpty
  if !config.enabled then return none
  let sources := external ++ rangeSources config
  if sources.length > kMaxSelectionSources ∨ chunk.numRows > 2 ^ 31 - 1 then return none
  let ordered := sources.insertionSort fun a b => a.orderKey ≤ b.orderKey
  let wave := waveRequest selected request config ordered keepMask
  let (table, result) ← decompressScanFilter d chunk selected wave
  let outcome := pushdownOutcome config wave result
  let expectedWidth :=
    if outcome.filterOnlyColumnsDropped then wave.deliveredPrefix.getD 0 else selected.length
  if table.width ≠ expectedWidth then
    .error (.thrown "[decompression_pushdown_scan] the decode returned the wrong width")
  else return some { table with outcome }

/-- `decompress_chunk` (compressed_scan.cpp:643-735), on a space and streams that it
    accepts. No scan is the request that asks for nothing. -/
def decompressChunk (chunk : Chunk) (selected : List ℕ) (request : Request)
    (keepMask : Option (ℕ × (ℕ → Bool))) : Except Halt Decoded := do
  if (request.columns.any fun entry => !entry.equalsAny.isEmpty) ∧
      request.columns.length > selected.length then
    .error (.thrown "[decompression_pushdown_scan] decode request wider than the projection")
  let pushed ←
    if (!request.empty && !request.rowSelectionDisabled) || keepMask.isSome then
      decompressWithPushdown d chunk selected request keepMask
    else pure none
  let decoded ← match pushed with
    | some decoded => pure decoded
    | none => do
      let table ← decodeTableColumns chunk selected
      pure { table with
        outcome := { membershipSkipped := decide (0 < request.membershipProbes) } }
  let answered := (List.range (min selected.length decoded.width)).filter fun i =>
    !(request.columns[i]?.getD {}).equalsAny.isEmpty
  return { decoded with outcome := { decoded.outcome with predicateColumns := answered } }

/-! ## The forecast -/

/-- The equality of a column stays if the chunk answers it (compressed_scan.cpp:560-566). -/
def narrowEntry (chunk : Chunk) (selected : List ℕ) (entry : ColumnEntry × ℕ) :
    Except Halt ColumnEntry :=
  if entry.1.equalsAny.isEmpty then .ok entry.1
  else
    match selected[entry.2]? with
    | none => .ok { entry.1 with equalsAny := [] }
    | some index => do
      let capability ← probeColumn d chunk index
      return if capability.decode.canAnswerEquality then entry.1
        else { entry.1 with equalsAny := [] }

/-- `for_chunk` (compressed_scan.cpp:552-573); `none` if nothing is left to ask for. -/
def forChunk (chunk : Chunk) (selected : List ℕ) (request : Request) :
    Except Halt (Option Request) :=
  match h : request.columns.zipIdx.mapM (narrowEntry d chunk selected) with
  | .error e => .error e
  | .ok columns =>
    .ok (if columns.all ColumnEntry.empty then none
      else some { request with
        columns
        prefix_pos := by
          have hlength := length_of_mapM_eq_ok h
          rw [List.length_zipIdx] at hlength
          exact hlength ▸ request.prefix_pos })

/-- `compaction_forecast`. -/
structure Forecast where
  compacts : Bool := false
  survivorsBounded : Bool := false
  deriving DecidableEq, Repr

/-- The loop of `forecast_compaction` over the selected columns from position `i` on
    (compressed_scan.cpp:607-633). -/
def forecastColumns (chunk : Chunk) (request : Request) :
    ℕ → List ℕ → Bool → Bool → Except Halt Forecast
  | _, [], anyUnbounded, anyMaskProducer =>
    .ok (if anyMaskProducer then ⟨true, !anyUnbounded⟩ else {})
  | i, index :: rest, anyUnbounded, anyMaskProducer =>
    match (chunk.columns[index]?).bind Column.planTree with
    | none => .ok {}
    | some tree => do
      let caps ← probePlan d tree
      if caps.compactRoute = .full then return {}
      forecastColumns chunk request (i + 1) rest
        (anyUnbounded || decide (caps.compactRoute = .dictCodes) ||
          decide (caps.compactRoute = .strSplit))
        (anyMaskProducer || ((request.rangeAt i).isSome && caps.canProduceMask))

/-- The sources that `forecast_compaction` counts (lines 589–601). -/
def Request.totalSources (request : Request) : ℕ :=
  (request.columns.map fun entry =>
    (if entry.range.isSome then 1 else 0) + (if entry.equalsAny.isEmpty then 0 else 1) +
      entry.membership.length).sum

/-- `forecast_compaction` (compressed_scan.cpp:575-637). -/
def forecastCompaction (chunk : Chunk) (selected : List ℕ) (request : Request) :
    Except Halt Forecast :=
  if !d.enabled then .ok {}
  else if request.rowSelectionDisabled then .ok {}
  else if !request.rangesCoverWholeFilter then .ok {}
  else if !request.columns.any fun entry => entry.range.isSome then .ok {}
  else if request.totalSources > kMaxSelectionSources then .ok {}
  else forecastColumns d chunk request 0 selected false false

end Sirius.Compression.Pushdown
