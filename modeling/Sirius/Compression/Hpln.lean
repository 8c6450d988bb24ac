import Sirius.Common.Wire

/-!
# The `.hpln` header

The model of the writer and the parser of the compressed-table header
(src/compression/simpatico_codegen/src/api/compressed_table_io.cpp:36-221, 358-598,
847-1007) and of the type tags (src/codegen/plan/leaf_desc.hpp:122-167).

A string is its bytes. The GPU side of a table is what the writer asks of it: a
representation is its kind, type, length, metadata and named channels, and a validity
mask is its size. `Cudf` holds the two functions of cuDF the code calls, with what
their documentation says of them.

The writer casts every count and every string length to the width of its field
(`UInt16.ofNat`, `UInt8.ofNat`), as the source does with `static_cast`.
-/

namespace Sirius.Compression.Hpln

open Sirius.Common Sirius.Common.Wire

/-- The bytes of a `std::string`. -/
abbrev Str := List UInt8

/-! ## Types -/

/-- `cudf::type_id`. -/
inductive TypeId where
  | empty | int8 | int16 | int32 | int64 | uint8 | uint16 | uint32 | uint64
  | float32 | float64 | bool8
  | timestampDays | timestampSeconds | timestampMilliseconds | timestampMicroseconds
  | timestampNanoseconds
  | durationDays | durationSeconds | durationMilliseconds | durationMicroseconds
  | durationNanoseconds
  | dictionary32 | string | list | decimal32 | decimal64 | decimal128 | struct
  deriving DecidableEq, Repr

/-- `cudf::data_type`. -/
structure DataType where
  id : TypeId
  scale : Int32
  deriving DecidableEq, Repr

/-- What the code calls of cuDF: `size_of`, which throws on a type without a fixed
width, and `num_bitmask_words`, the 32-bit words of a mask of so many bits. -/
structure Cudf where
  sizeOf : TypeId → Option ℕ
  numBitmaskWords : Int32 → Int32
  sizeOf_empty : sizeOf .empty = none
  sizeOf_pos : ∀ id w, sizeOf id = some w → 0 < w
  sizeOf_le : ∀ id w, sizeOf id = some w → w ≤ 16
  words_eq : ∀ n : Int32, 0 ≤ n → (numBitmaskWords n).toInt = (n.toInt + 31) / 32

/-- `kTypeTags` (leaf_desc.hpp:122-153). -/
def typeTags : List (TypeId × UInt8) :=
  [(.int8, 0), (.int16, 1), (.int32, 2), (.int64, 3), (.uint8, 4), (.uint16, 5), (.uint32, 6),
    (.uint64, 7), (.float32, 8), (.float64, 9), (.string, 10), (.decimal32, 11), (.decimal64, 12),
    (.decimal128, 13), (.timestampDays, 14), (.timestampSeconds, 15),
    (.timestampMilliseconds, 16), (.timestampMicroseconds, 17), (.timestampNanoseconds, 18),
    (.durationDays, 19), (.durationSeconds, 20), (.durationMilliseconds, 21),
    (.durationMicroseconds, 22), (.durationNanoseconds, 23), (.bool8, 24)]

/-- `dtype_to_tag` (leaf_desc.hpp:155-160). -/
def dtypeToTag (dt : DataType) : UInt8 :=
  match typeTags.find? (fun e => e.1 = dt.id) with
  | some e => e.2
  | none => 255

/-- `tag_to_dtype` (leaf_desc.hpp:162-167). -/
def tagToDtype (tag : UInt8) : DataType :=
  match typeTags.find? (fun e => e.2 = tag) with
  | some e => ⟨e.1, 0⟩
  | none => ⟨.empty, 0⟩

/-- `OpId`, an enumeration over all the values of its `uint8_t`. -/
structure OpId where
  code : UInt8
  deriving DecidableEq, Repr

/-- `leaf_meta_v` (leaf_desc.hpp:17-83). -/
inductive LeafMeta where
  | none
  | alpRd (rightBw : UInt8)
  | ans (uncompressedSize : UInt64) (originalTypeId : Int32) (payloadFormat : UInt8)
  | bitcomp (uncompressedSize : UInt64) (originalTypeId algorithm : Int32)
  | nvcompCascaded (uncompressedSize : UInt64) (originalTypeId numDeltas numRLEs useBp : Int32)
      (payloadFormat : UInt8)
  | snappy (uncompressedSize : UInt64) (originalTypeId : Int32)
  | lz4 (uncompressedSize : UInt64) (originalTypeId : Int32)
  | deflate (uncompressedSize : UInt64) (originalTypeId : Int32)
  deriving DecidableEq, Repr

/-! ## The table -/

/-- A named channel of a representation: a column view, whose size is a
non-negative `cudf::size_type`. -/
structure NamedChannel where
  name : Str
  type : DataType
  size : ℕ
  size_lt : size < 2 ^ 31

/-- What the writer asks of a `compressed_representation`. -/
structure Representation where
  kind : OpId
  decodedType : DataType
  numRows : Int32
  metadata : LeafMeta
  namedChannels : List NamedChannel

/-- `bitjoin_input_ref`: a channel of a node, or a range of its bits. -/
structure BitjoinInput where
  node : UInt32
  channel : Str
  range : Option (UInt32 × UInt32)
  deriving DecidableEq, Repr

/-- `bitjoin_attrs`. -/
structure BitjoinAttrs where
  inputs : List BitjoinInput
  outputType : DataType
  deriving DecidableEq, Repr

/-- `PlanEdge`: a channel and the node that it goes to. -/
structure PlanEdge where
  channel : Str
  child : UInt32
  deriving DecidableEq, Repr

/-- `PlanNode` (plan_tree.hpp:78-128); `channels` is the map from output path to
representation. -/
structure PlanNode where
  op : Str
  bitjoin : Option BitjoinAttrs
  children : List PlanEdge
  outputNames : List Str
  outputPaths : List Str
  rep : Option Representation
  channels : List (Str × Representation)

/-- `validity_kind`. -/
inductive ValidityKind where
  | allValid | allNull | mask
  deriving DecidableEq, Repr

/-- `validity_sidecar`, with the size of its mask. -/
structure ValiditySidecar where
  kind : ValidityKind
  nullCount : Int64
  maskSize : UInt64
  deriving DecidableEq, Repr

/-- `PlanTree`, with its validity. -/
structure PlanTree where
  nodes : List PlanNode
  validity : ValiditySidecar

/-- `kEmptyTree`. -/
def emptyTree : PlanTree := ⟨[], ⟨.allValid, 0, 0⟩⟩

/-- `compressed_column`. -/
structure CompressedColumn where
  name : Option Str
  dtype : DataType
  numRows : Int64
  planTree : Option PlanTree

/-- `leaf_buffer_desc`. -/
structure LeafBufferDesc where
  name : Str
  typeTag : UInt8
  numRows : UInt64
  sizeBytes : UInt64
  deriving DecidableEq, Repr

/-- `leaf_desc`. -/
structure LeafDesc where
  nodeIndex : UInt32
  slot : Int32
  kind : OpId
  typeTag : UInt8
  numRows : UInt64
  metadata : LeafMeta
  buffers : List LeafBufferDesc
  deriving DecidableEq, Repr

/-- How the writer or the reader ends without a result: a message, one of the two
messages of the writer that quote a name, or an exception of cuDF that nothing here
catches. -/
inductive HplnError where
  | bad (message : String)
  /-- "write: column 'name' has an unsupported dtype (id n) with no serialization tag" -/
  | columnDtype (name : Str) (id : TypeId)
  /-- "write: leaf buffer 'name' has an unsupported dtype with no serialization tag" -/
  | bufferDtype (name : Str)
  | thrown
  deriving DecidableEq, Repr

/-! ## Field encodings -/

/-- `push_le<uint8_t>`. -/
def pushU8 (x : UInt8) : List UInt8 := leBytes 1 x.toNat
/-- `push_le<uint16_t>`. -/
def pushU16 (x : UInt16) : List UInt8 := leBytes 2 x.toNat
/-- `push_le<uint32_t>`. -/
def pushU32 (x : UInt32) : List UInt8 := leBytes 4 x.toNat
/-- `push_le<uint64_t>`. -/
def pushU64 (x : UInt64) : List UInt8 := leBytes 8 x.toNat
/-- `push_le<int32_t>`. -/
def pushI32 (x : Int32) : List UInt8 := pushU32 x.toUInt32
/-- `push_le<int64_t>`. -/
def pushI64 (x : Int64) : List UInt8 := pushU64 x.toUInt64

/-- `read_le<uint8_t>`. -/
def readU8 : Parser Unit UInt8 := do
  let n ← readNat 1
  pure (UInt8.ofNat n)

/-- `read_le<uint16_t>`. -/
def readU16 : Parser Unit UInt16 := do
  let n ← readNat 2
  pure (UInt16.ofNat n)

/-- `read_le<uint32_t>`. -/
def readU32 : Parser Unit UInt32 := do
  let n ← readNat 4
  pure (UInt32.ofNat n)

/-- `read_le<uint64_t>`. -/
def readU64 : Parser Unit UInt64 := do
  let n ← readNat 8
  pure (UInt64.ofNat n)

/-- `read_le<int32_t>`. -/
def readI32 : Parser Unit Int32 := do
  let x ← readU32
  pure x.toInt32

/-- `read_le<int64_t>`. -/
def readI64 : Parser Unit Int64 := do
  let x ← readU64
  pure x.toInt64

/-- `push_str16` (compressed_table_io.cpp:49-53). -/
def pushStr16 (s : Str) : List UInt8 := pushU16 (UInt16.ofNat s.length) ++ s

/-- `read_str16` (compressed_table_io.cpp:77-86). -/
def readStr16 : Parser Unit Str := do
  let len ← readU16
  readBytes len.toNat

/-- `push_meta` (compressed_table_io.cpp:104-156). -/
def pushMeta : LeafMeta → List UInt8
  | .none => pushU8 0
  | .alpRd rightBw => pushU8 1 ++ pushU8 rightBw
  | .ans size type format => pushU8 2 ++ (pushU64 size ++ (pushI32 type ++ pushU8 format))
  | .bitcomp size type algorithm => pushU8 3 ++ (pushU64 size ++ (pushI32 type ++ pushI32 algorithm))
  | .nvcompCascaded size type numDeltas numRLEs useBp format =>
    pushU8 4 ++ (pushU64 size ++ (pushI32 type ++ (pushI32 numDeltas ++ (pushI32 numRLEs ++
      (pushI32 useBp ++ pushU8 format)))))
  | .snappy size type => pushU8 5 ++ (pushU64 size ++ pushI32 type)
  | .lz4 size type => pushU8 6 ++ (pushU64 size ++ pushI32 type)
  | .deflate size type => pushU8 7 ++ (pushU64 size ++ pushI32 type)

/-- The size and type that the byte codecs share. -/
def readSized (make : UInt64 → Int32 → LeafMeta) : Parser Unit LeafMeta := do
  let size ← readU64
  let type ← readI32
  pure (make size type)

/-- `read_meta` (compressed_table_io.cpp:158-221). -/
def readMeta : Parser Unit LeafMeta := do
  let mk ← readU8
  if mk = 0 then pure .none
  else if mk = 1 then do
    let rightBw ← readU8
    pure (.alpRd rightBw)
  else if mk = 2 then do
    let size ← readU64
    let type ← readI32
    let format ← readU8
    pure (.ans size type format)
  else if mk = 3 then do
    let size ← readU64
    let type ← readI32
    let algorithm ← readI32
    pure (.bitcomp size type algorithm)
  else if mk = 4 then do
    let size ← readU64
    let type ← readI32
    let numDeltas ← readI32
    let numRLEs ← readI32
    let useBp ← readI32
    let format ← readU8
    pure (.nvcompCascaded size type numDeltas numRLEs useBp format)
  else if mk = 5 then readSized .snappy
  else if mk = 6 then readSized .lz4
  else if mk = 7 then readSized .deflate
  else throw ()

/-! ## Validity -/

/-- The tag of a kind. -/
def ValidityKind.code : ValidityKind → UInt8
  | allValid => 0
  | allNull => 1
  | mask => 2

/-- `ValidityRecord` (compressed_table_io.cpp:379-384). -/
structure ValidityRecord where
  kind : ValidityKind
  nullCount : Int64
  sizeBytes : UInt64
  payloadOffset : UInt64
  deriving DecidableEq, Repr

/-- `read_validity` (compressed_table_io.cpp:388-400). -/
def readValidity : Parser Unit ValidityRecord := do
  let k ← readU8
  if 2 < k then throw ()
  else if k = 0 then pure ⟨.allValid, 0, 0, 0⟩
  else do
    let nullCount ← readI64
    if k = 1 then pure ⟨.allNull, nullCount, 0, 0⟩
    else do
      let sizeBytes ← readU64
      let payloadOffset ← readU64
      pure ⟨.mask, nullCount, sizeBytes, payloadOffset⟩

/-! ## Plan nodes -/

/-- The range of an input, after a flag. -/
def pushRange : Option (UInt32 × UInt32) → List UInt8
  | some range => pushU8 1 ++ (pushU32 range.1 ++ pushU32 range.2)
  | none => pushU8 0

/-- An input of a bit join. -/
def pushInput (i : BitjoinInput) : List UInt8 :=
  pushU32 i.node ++ (pushStr16 i.channel ++ pushRange i.range)

/-- The attributes of a bit join, after a flag. -/
def pushBitjoin : Option BitjoinAttrs → List UInt8
  | some bj => pushU8 1 ++ (pushU8 (dtypeToTag bj.outputType) ++
      (pushU16 (UInt16.ofNat bj.inputs.length) ++ bj.inputs.flatMap pushInput))
  | none => pushU8 0

/-- An edge of the plan. -/
def pushEdge (e : PlanEdge) : List UInt8 := pushStr16 e.channel ++ pushU32 e.child

/-- `push_node` (compressed_table_io.cpp:404-438). -/
def pushNode (node : PlanNode) : List UInt8 :=
  pushStr16 node.op ++ (pushBitjoin node.bitjoin ++
    (pushU16 (UInt16.ofNat node.children.length) ++ (node.children.flatMap pushEdge ++
      (pushU16 (UInt16.ofNat node.outputNames.length) ++ node.outputNames.flatMap pushStr16))))

/-- What `push_node` wrote of a range. -/
def readRange : Parser Unit (Option (UInt32 × UInt32)) := do
  let hasRange ← readU8
  if hasRange = 0 then pure none
  else do
    let hi ← readU32
    let lo ← readU32
    pure (some (hi, lo))

/-- What it wrote of an input. -/
def readInput : Parser Unit BitjoinInput := do
  let node ← readU32
  let channel ← readStr16
  let range ← readRange
  pure ⟨node, channel, range⟩

/-- What it wrote of a bit join. -/
def readBitjoin : Parser Unit (Option BitjoinAttrs) := do
  let isBitjoin ← readU8
  if isBitjoin = 0 then pure none
  else do
    let outTag ← readU8
    let numInputs ← readU16
    let inputs ← readN readInput numInputs.toNat
    pure (some ⟨inputs, tagToDtype outTag⟩)

/-- What it wrote of an edge. -/
def readEdge : Parser Unit PlanEdge := do
  let channel ← readStr16
  let child ← readU32
  pure ⟨channel, child⟩

/-- `read_node` (compressed_table_io.cpp:444-481): the output paths mirror the output
names. -/
def readNode : Parser Unit PlanNode := do
  let op ← readStr16
  let bitjoin ← readBitjoin
  let ne ← readU16
  let children ← readN readEdge ne.toNat
  let no ← readU16
  let outputNames ← readN readStr16 no.toNat
  pure ⟨op, bitjoin, children, outputNames, outputNames, none, []⟩

/-! ## The parser -/

/-- `ColRecord` (compressed_table_io.cpp:485-494). -/
structure ColRecord where
  name : Str
  dtypeTag : UInt8
  scale : Int32
  numRows : Int64
  validity : ValidityRecord
  nodes : List PlanNode
  leafDescs : List LeafDesc
  bufOffsets : List (List UInt64)

/-- `nvcomp_payload_compatibility_error` (src/util/nvcomp_payload_format.hpp:20-31), for
the nvCOMP major version the program is built with. -/
def nvcompPayloadCompatibilityError (major : UInt8) (codec : String) (payloadFormat : UInt8) :
    Option String :=
  if payloadFormat ≠ major then
    some (codec ++ ": incompatible payload format " ++ toString payloadFormat.toNat ++
      " (expected " ++ toString major.toNat ++ ")")
  else if 6 ≤ major ∧ codec = "nvcomp_cascaded" then
    some "nvcomp_cascaded: unavailable with nvCOMP 6"
  else none

/-- The codec and the payload format of the metadata that records one. -/
def LeafMeta.payloadFormat? : LeafMeta → Option (String × UInt8)
  | .ans _ _ format => some ("ans", format)
  | .nvcompCascaded _ _ _ _ _ format => some ("nvcomp_cascaded", format)
  | _ => Option.none

section Parser

variable (cudf : Cudf) (major : UInt8)

/-- The bytes a mask needs, with the row count cast to `cudf::size_type`
(compressed_table_io.cpp:535-539). -/
def minMaskBytes (numRows : Int64) : UInt64 :=
  if numRows < 0 then 0 else (cudf.numBitmaskWords numRows.toInt32).toInt64.toUInt64 * 4

/-- A record that must not reach `attach_validity` (compressed_table_io.cpp:534-546). -/
def validityError (numRows : Int64) (v : ValidityRecord) : Option String :=
  match v.kind with
  | .mask =>
    if numRows < 0 ∨ v.sizeBytes < minMaskBytes cudf numRows ∨ v.nullCount < 0 ∨
        numRows < v.nullCount then
      some "col validity mask undersized or null_count out of range"
    else none
  | .allNull =>
    if v.nullCount ≠ numRows then some "all-null col validity null_count != num_rows" else none
  | .allValid => none

/-- `bad(message)`, when there is one. -/
def check (message : Option String) : Parser HplnError Unit :=
  match message with
  | some m => throw (.bad m)
  | none => pure ()

/-- The elements of a buffer, from its bytes (compressed_table_io.cpp:589-593). -/
def bufferRows (typeTag : UInt8) (sizeBytes : UInt64) : Parser HplnError UInt64 :=
  if 0 < sizeBytes ∧ typeTag < 255 then
    match cudf.sizeOf (tagToDtype typeTag).id with
    | some width => pure (sizeBytes / UInt64.ofNat width)
    | none => throw .thrown
  else pure 0

/-- A buffer of a leaf, with its offset in the payload. -/
def readBuffer : Parser HplnError (LeafBufferDesc × UInt64) := do
  let name ← orError (.bad "truncated buf name") readStr16
  let typeTag ← orError (.bad "truncated buf type_tag") readU8
  let sizeBytes ← orError (.bad "truncated buf size_bytes") readU64
  let offset ← orError (.bad "truncated buf payload_offset") readU64
  let numRows ← bufferRows cudf typeTag sizeBytes
  pure (⟨name, typeTag, numRows, sizeBytes⟩, offset)

/-- `nvcomp_payload_compatibility_error` of the metadata (compressed_table_io.cpp:567-575). -/
def metaError (metadata : LeafMeta) : Option String :=
  match metadata.payloadFormat? with
  | some (codec, format) => nvcompPayloadCompatibilityError major codec format
  | none => none

/-- One leaf (compressed_table_io.cpp:557-594). -/
def readLeaf : Parser HplnError (LeafDesc × List UInt64) := do
  let nodeIndex ← orError (.bad "truncated leaf node_index") readU32
  let slot ← orError (.bad "truncated leaf slot") readI32
  let kind ← orError (.bad "truncated leaf kind") readU8
  let typeTag ← orError (.bad "truncated leaf type_tag") readU8
  let numRows ← orError (.bad "truncated leaf num_rows") readU64
  let metadata ← orError (.bad "truncated/unknown leaf meta") readMeta
  check (metaError major metadata)
  let nb ← orError (.bad "truncated num_bufs") readU8
  let buffers ← readN (readBuffer cudf) nb.toNat
  pure (⟨nodeIndex, slot, ⟨kind⟩, typeTag, numRows, metadata, buffers.map Prod.fst⟩,
    buffers.map Prod.snd)

/-- One column (compressed_table_io.cpp:524-595). -/
def readColumn : Parser HplnError ColRecord := do
  let name ← orError (.bad "truncated col name") readStr16
  let dtypeTag ← orError (.bad "truncated col dtype") readU8
  let scale ← orError (.bad "truncated col scale") readI32
  let numRows ← orError (.bad "truncated col num_rows") readI64
  let validity ← orError (.bad "truncated/unknown col validity") readValidity
  check (validityError cudf numRows validity)
  let nn ← orError (.bad "truncated num_nodes") readU16
  let nodes ← readN (orError (.bad "truncated plan node") readNode) nn.toNat
  let nl ← orError (.bad "truncated num_leaves") readU16
  let leaves ← readN (readLeaf cudf major) nl.toNat
  pure ⟨name, dtypeTag, scale, numRows, validity, nodes, leaves.map Prod.fst,
    leaves.map Prod.snd⟩

/-- `kVersion`. -/
def version : UInt8 := 15

/-- `H`, `P`, `L`, `N`. -/
def magic : List UInt8 := [72, 80, 76, 78]

/-- `parse_hpln_header` (compressed_table_io.cpp:499-598). -/
def parseHplnHeader : Parser HplnError (List ColRecord) := do
  let m ← orError (.bad "truncated header") (readBytes 4)
  check (if m ≠ magic then some "not a HPLN file" else none)
  let ver ← orError (.bad "truncated header") readU8
  check (if ver ≠ version then
      some ("unsupported version " ++ toString ver.toNat ++ " (expected " ++
        toString version.toNat ++ ")")
    else none)
  let numCols ← orError (.bad "truncated header") readU16
  readN (readColumn cudf major) numCols.toNat

end Parser

/-! ## The writer -/

/-- A buffer of a leaf. -/
def bufferDesc (cudf : Cudf) (ch : NamedChannel) : Except HplnError LeafBufferDesc :=
  match cudf.sizeOf ch.type.id with
  | some width =>
    .ok ⟨ch.name, dtypeToTag ch.type, UInt64.ofNat ch.size,
      UInt64.ofNat ch.size * UInt64.ofNat width⟩
  | none => .error .thrown

/-- The leaf of a representation, as the writer enumerates it
(`make_leaf_desc`, compressed_table_io.cpp:851-879). -/
def makeLeafDesc (cudf : Cudf) (nodeIndex : ℕ) (slot : Int32) (rep : Representation) :
    Except HplnError LeafDesc := do
  let buffers ← rep.namedChannels.mapM (bufferDesc cudf)
  .ok ⟨UInt32.ofNat nodeIndex, slot, rep.kind, dtypeToTag rep.decodedType,
    if 0 < rep.numRows then rep.numRows.toInt64.toUInt64 else 0, rep.metadata, buffers⟩

/-- The slots of a node that hold a representation (compressed_table_io.cpp:895-910). -/
def PlanNode.slots (node : PlanNode) : List (Int32 × Representation) :=
  (node.rep.map fun rep => ((-1 : Int32), rep)).toList ++
    node.outputPaths.zipIdx.filterMap fun p =>
      (node.channels.find? fun e => e.1 = p.1).map fun e => (Int32.ofNat p.2, e.2)

/-- `describe` of one column (compressed_table_io.cpp:886-916). -/
def describeColumn (cudf : Cudf) (col : CompressedColumn) : Except HplnError (List LeafDesc) :=
  match col.planTree with
  | none => .ok []
  | some tree => do
    let leaves ← tree.nodes.zipIdx.mapM fun n =>
      n.1.slots.mapM fun s => makeLeafDesc cudf n.2 s.1 s.2
    .ok leaves.flatten

/-- `payload_buffer_ref`, without the device pointer. -/
structure PayloadBufferRef where
  offset : UInt64
  sizeBytes : UInt64
  allocBytes : UInt64
  columnIndex : ℕ
  deriving DecidableEq, Repr

/-- `out_header`, `out_buffers` and `payload_offset`. -/
structure Writer where
  hdr : List UInt8
  buffers : List PayloadBufferRef
  payloadOffset : UInt64
  deriving DecidableEq, Repr

/-- Bytes at the end of the header. -/
def Writer.push (w : Writer) (bytes : List UInt8) : Writer := { w with hdr := w.hdr ++ bytes }

/-- A buffer at the end of the payload. -/
def Writer.enumerate (w : Writer) (sizeBytes allocBytes : UInt64) (ci : ℕ) : Writer :=
  { w with
    buffers := w.buffers ++ [⟨w.payloadOffset, sizeBytes, allocBytes, ci⟩]
    payloadOffset := w.payloadOffset + sizeBytes }

/-- `push_validity` (compressed_table_io.cpp:358-376). -/
def pushValidity (w : Writer) (v : ValiditySidecar) (ci : ℕ) : Writer :=
  match v.kind with
  | .allValid => w.push (pushU8 v.kind.code)
  | .allNull => w.push (pushU8 v.kind.code ++ pushI64 v.nullCount)
  | .mask =>
    (w.push (pushU8 v.kind.code ++ (pushI64 v.nullCount ++
      (pushU64 v.maskSize ++ pushU64 w.payloadOffset)))).enumerate v.maskSize v.maskSize ci

section Write

variable (cudf : Cudf) (ci : ℕ)

/-- `leaf_alloc_bytes` (compressed_table_io.cpp:239-244). -/
def leafAllocBytes (typeTag : UInt8) (numRows : UInt64) : Except HplnError UInt64 :=
  match cudf.sizeOf (tagToDtype typeTag).id with
  | some width => .ok (numRows * UInt64.ofNat width)
  | none => .error .thrown

/-- One buffer of a leaf (compressed_table_io.cpp:981-1000). -/
def writeBuffer (w : Writer) (bd : LeafBufferDesc) : Except HplnError Writer :=
  if bd.typeTag = 255 then
    .error (.bufferDtype bd.name)
  else do
    let alloc ← leafAllocBytes cudf bd.typeTag bd.numRows
    .ok ((w.push (pushStr16 bd.name ++ (pushU8 bd.typeTag ++
      (pushU64 bd.sizeBytes ++ pushU64 w.payloadOffset)))).enumerate bd.sizeBytes alloc ci)

/-- What a leaf records before its buffers. -/
def pushLeaf (ld : LeafDesc) : List UInt8 :=
  pushU32 ld.nodeIndex ++ (pushI32 ld.slot ++ (pushU8 ld.kind.code ++ (pushU8 ld.typeTag ++
    (pushU64 ld.numRows ++ (pushMeta ld.metadata ++
      pushU8 (UInt8.ofNat ld.buffers.length))))))

/-- One leaf (compressed_table_io.cpp:966-1001). -/
def writeLeaf (w : Writer) (ld : LeafDesc) : Except HplnError Writer :=
  if ld.typeTag = 255 then
    .error (.bad ("write: leaf node " ++ toString ld.nodeIndex.toNat ++
      " has an unsupported dtype with no serialization tag"))
  else ld.buffers.foldlM (writeBuffer cudf ci) (w.push (pushLeaf ld))

/-- What a column records before its validity. -/
def pushColumn (col : CompressedColumn) : List UInt8 :=
  pushStr16 (col.name.getD []) ++ (pushU8 (dtypeToTag col.dtype) ++
    (pushI32 col.dtype.scale ++ pushI64 col.numRows))

/-- The plan nodes of a column and the count of its leaves. -/
def pushTree (tree : PlanTree) (leaves : ℕ) : List UInt8 :=
  pushU16 (UInt16.ofNat tree.nodes.length) ++ (tree.nodes.flatMap pushNode ++
    pushU16 (UInt16.ofNat leaves))

/-- One column (compressed_table_io.cpp:939-1002). -/
def writeColumn (w : Writer) (col : CompressedColumn) (descs : List LeafDesc) :
    Except HplnError Writer :=
  if dtypeToTag col.dtype = 255 then
    .error (.columnDtype (col.name.getD (toString ci).toUTF8.toList) col.dtype.id)
  else
    let tree := col.planTree.getD emptyTree
    let w := pushValidity (w.push (pushColumn col)) tree.validity ci
    descs.foldlM (writeLeaf cudf ci) (w.push (pushTree tree descs.length))

end Write

/-- The columns in turn, with their descriptions. -/
def writeColumns (cudf : Cudf) : ℕ → Writer → List (CompressedColumn × List LeafDesc) →
    Except HplnError Writer
  | _, w, [] => .ok w
  | ci, w, c :: cs => do
    let w ← writeColumn cudf ci w c.1 c.2
    writeColumns cudf (ci + 1) w cs

/-- `build_compressed_table_header` (compressed_table_io.cpp:921-1007): the header, the
buffers and `out_payload_bytes`. -/
def buildCompressedTableHeader (cudf : Cudf) (columns : List CompressedColumn) :
    Except HplnError Writer := do
  let allDescs ← columns.mapM (describeColumn cudf)
  let w : Writer := ⟨magic ++ (pushU8 version ++ pushU16 (UInt16.ofNat columns.length)), [], 0⟩
  writeColumns cudf 0 w (columns.zip allDescs)

end Sirius.Compression.Hpln
