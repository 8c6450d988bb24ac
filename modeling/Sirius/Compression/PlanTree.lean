import Sirius.Compression.PlanDsl

/-!
# Plan trees

The model of `plan_tree_from_steps`, `compute_input_sources`, `value_dsl_path` and
`render_plan_tree` (src/compression/simpatico_codegen/src/plan/plan_tree.cpp:42-239), with
the attributes that bit_spec.cpp reads off an operator's name. The compressed
representations of a node are left out: none of these functions looks at them.
-/

namespace Sirius.Compression.Plan

open Sirius.Common

/-! ## Attributes -/

/-- `bitextract_spec_result`: the fields with their widths, and the packed type. -/
structure BitSpec where
  fields : List (UInt32 × Str)
  outputType : Option String
  deriving DecidableEq, Repr

/-- `parse_float_alias` (bit_spec.cpp:21-34). -/
def parseFloatAlias (suffix : Str) : Option BitSpec :=
  if suffix = "f16".toList then
    some ⟨[(1, "sign".toList), (5, "exponent".toList), (10, "mantissa".toList)], some "UINT16"⟩
  else if suffix = "f32".toList then
    some ⟨[(1, "sign".toList), (8, "exponent".toList), (23, "mantissa".toList)], some "FLOAT32"⟩
  else if suffix = "f64".toList then
    some ⟨[(1, "sign".toList), (11, "exponent".toList), (52, "mantissa".toList)], some "FLOAT64"⟩
  else none

/-- One field of a list, `<digits><name>` (bit_spec.cpp:84-91); the width wraps. -/
def parseBitfield (tok : Str) : Option (UInt32 × Str) :=
  let digits := tok.takeWhile Char.isDigit
  if digits = [] ∨ digits.length = tok.length then none
  else
    let bits := UInt32.ofNat (decimal digits)
    if bits = 0 then none else some (bits, tok.drop digits.length)

/-- `parse_bitfield_list` (bit_spec.cpp:76-96). -/
def parseBitfieldList (fieldsSuffix : Str) : List (UInt32 × Str) :=
  ((fieldsSuffix.splitOn '_').mapM parseBitfield).getD []

/-- The smallest unsigned type that holds the fields (bit_spec.cpp:121-129). -/
def smallestType (fields : List (UInt32 × Str)) : String :=
  let total := (fields.map Prod.fst).sum
  if total ≤ 8 then "UINT8" else if total ≤ 16 then "UINT16"
  else if total ≤ 32 then "UINT32" else "UINT64"

/-- `parse_bitextract_spec` (bit_spec.cpp:98-131). -/
def parseBitextractSpec (suffix : Str) : BitSpec :=
  match if suffix = "f16".toList then none else parseFloatAlias suffix with
  | some spec => spec
  | none =>
    if (suffix.head?.map Char.isDigit).getD true then
      let fields := parseBitfieldList suffix
      if fields = [] then ⟨[], none⟩ else ⟨fields, some (smallestType fields)⟩
    else if '_' ∉ suffix then ⟨[], none⟩
    else match parsePackedTypeToken (suffix.takeWhile (· ≠ '_')) with
      | none => ⟨[], none⟩
      | some type =>
        let fields := parseBitfieldList (suffix.dropWhile (· ≠ '_')).tail
        if fields = [] then ⟨[], none⟩ else ⟨fields, some type⟩

/-- `parse_bitjoin_spec` (bit_spec.cpp:133-153). -/
def parseBitjoinSpec (suffix : Str) : BitSpec :=
  match parseFloatAlias suffix with
  | some spec => spec
  | none =>
    let (fieldsTok, typeTok) := (Text.splitLast '_' suffix).getD ([], suffix)
    match parsePackedTypeToken typeTok with
    | none => ⟨[], none⟩
    | some type =>
      if fieldsTok = [] then ⟨[], some type⟩
      else
        let fields := parseBitfieldList fieldsTok
        if fields = [] then ⟨[], none⟩ else ⟨fields, some type⟩

/-- `is_bitjoin_compressor`. -/
def isBitjoin (compressor : Str) : Bool := "bitjoin".toList.isPrefixOf compressor

/-- `bitjoin_spec_suffix` (plan_tree.cpp:24-31). -/
def bitjoinSpecSuffix (compressor : Str) : Str :=
  if "bitjoin_".toList.length < compressor.length ∧ "bitjoin_".toList <+: compressor then
    compressor.drop "bitjoin_".toList.length
  else []

/-- The bitextract attributes of a node (plan_tree.cpp:59-66). -/
def bitextractAttrs (compressor : Str) : Option BitSpec :=
  (stripBitextractPrefix compressor).bind fun suffix =>
    let spec := parseBitextractSpec suffix
    if spec.fields = [] then none else some spec

/-! ## The tree -/

/-- `bitjoin_input_ref`. -/
structure BitjoinInput where
  node : ℕ
  channel : Str
  range : Option BitRange
  deriving DecidableEq, Repr

/-- `bitjoin_attrs`. -/
structure BitjoinAttrs where
  inputs : List BitjoinInput
  outputType : Option String
  deriving DecidableEq, Repr

/-- `ValueId`: a node and the number of an output, which is a `uint8_t`. -/
structure ValueId where
  node : ℕ
  channel : UInt8
  deriving DecidableEq, Repr

/-- `PlanNode` (plan_tree.hpp:79-103); an edge is a channel and a child. -/
structure PlanNode where
  op : Str
  children : List (Str × ℕ) := []
  bitextract : Option BitSpec := none
  bitjoin : Option BitjoinAttrs := none
  outputNames : List Str := []
  outputPaths : List Str := []
  inputSources : List ValueId := []
  deriving DecidableEq, Repr

/-- `tree.nodes`, with `path_to_node` and `path_to_channel`: the latest entry of a path is
the first. -/
structure Builder where
  nodes : List PlanNode
  paths : List (Str × ℕ × Str)
  deriving DecidableEq, Repr

def Builder.start : Builder := ⟨[{ op := "input".toList }], [("input".toList, 0, [])]⟩

/-- The producer of a path, with the channel a step consumes it by; the root's only value
is called `root`. -/
def Builder.find (b : Builder) (root path : Str) : Option (ℕ × Str) :=
  (b.paths.lookup path).map fun e => (e.1, if path = "input".toList then root else e.2)

/-- `tree.nodes[parent].children.push_back`. -/
def addEdge (child : ℕ) (nodes : List PlanNode) (ref : ℕ × Str) : List PlanNode :=
  nodes.modify ref.1 fun n => { n with children := n.children ++ [(ref.2, child)] }

/-- The inputs of a step (plan_tree.cpp:68-101): the producers, and the bitjoin attributes. -/
def Builder.wire (b : Builder) (step : PlanStep) :
    Except PlanError (List (ℕ × Str) × Option BitjoinAttrs) :=
  if isBitjoin step.compressor then do
    let inputs ← step.inputs.mapM fun i =>
      match b.find "input".toList i.1 with
      | none => Except.error (.unknownBitjoinInput i.1)
      | some (node, channel) => .ok ⟨node, channel, i.2⟩
    .ok (inputs.map fun r => (r.node, r.channel),
      some ⟨inputs, (parseBitjoinSpec (bitjoinSpecSuffix step.compressor)).outputType⟩)
  else match step.inputs with
    | [i] =>
      match b.find (bitextractCanonicalName step.compressor) i.1 with
      | none => .error (.unknownInput i.1)
      | some ref => .ok ([ref], none)
    | _ => .error (.multiInput step.compressor)

/-- One step (plan_tree.cpp:52-111). -/
def Builder.addStep (b : Builder) (step : PlanStep) : Except PlanError Builder := do
  let nid := b.nodes.length
  let (refs, bitjoin) ← b.wire step
  .ok ⟨refs.foldl (addEdge nid) b.nodes ++
      [{ op := step.compressor, bitextract := bitextractAttrs step.compressor, bitjoin := bitjoin
         outputNames := step.outputNames, outputPaths := step.outputPaths }],
    ((step.outputPaths.zip step.outputNames).map fun p => (p.1, nid, p.2)).reverse ++ b.paths⟩

/-- `output_port` (plan_tree.cpp:121-129). -/
def outputPort (nodes : List PlanNode) (node : ℕ) (channel : Str) : Option UInt8 :=
  match nodes[node]? with
  | none => none
  | some n =>
    if node = 0 then some 0
    else (n.outputNames.findIdx? (· == channel)).map UInt8.ofNat

/-- `consumed_value` (plan_tree.cpp:151-164). -/
def consumedValue (nodes : List PlanNode) (consumer : ℕ) (ref : ℕ × Str) :
    Except PlanError ValueId :=
  match outputPort nodes ref.1 ref.2 with
  | none => .error (.notOutput consumer ref.2 ref.1)
  | some port => .ok ⟨ref.1, port⟩

/-- The references a node consumes: those of a bitjoin, or the edges to it
(plan_tree.cpp:174-187). -/
def consumedRefs (nodes : List PlanNode) (nid : ℕ) (node : PlanNode) : List (ℕ × Str) :=
  match node.bitjoin with
  | some bj => bj.inputs.map fun r => (r.node, r.channel)
  | none => nodes.zipIdx.flatMap fun p =>
      (p.1.children.filter fun e => e.2 = nid).map fun e => (p.2, e.1)

/-- `compute_input_sources` (plan_tree.cpp:168-189). -/
def computeInputSources (nodes : List PlanNode) : Except PlanError (List PlanNode) :=
  nodes.zipIdx.mapM fun n => do
    let sources ← (consumedRefs nodes n.2 n.1).mapM (consumedValue nodes n.2)
    .ok { n.1 with inputSources := sources }

/-- `plan_tree_from_steps` (plan_tree.cpp:42-119). -/
def planTreeFromSteps (steps : List PlanStep) : Except PlanError (List PlanNode) := do
  let b ← steps.foldlM Builder.addStep Builder.start
  computeInputSources b.nodes

/-- `plan_tree_from_dsl` (plan_tree.cpp:35-40). -/
def planTreeFromDsl (dsl : Str) : Except PlanError (List PlanNode) := do
  let steps ← parsePlanDsl dsl
  planTreeFromSteps steps

/-! ## Rendering -/

/-- The source a single-input node reads (plan_tree.cpp:206, 228). -/
def PlanNode.source (n : PlanNode) : ValueId := n.inputSources.head?.getD ⟨0, 0⟩

/-- `value_dsl_path` (plan_tree.cpp:197-213). A built tree has no chain of sources longer
than its nodes, which `fuel` counts down. -/
def valueDslPath (nodes : List PlanNode) : ℕ → ValueId → Str
  | 0, _ => []
  | fuel + 1, v =>
    match if v.node = 0 then none else nodes[v.node]? with
    | none => "input".toList
    | some p =>
      let base :=
        if p.bitjoin.isSome then p.op
        else if p.source.node = 0 then bitextractCanonicalName p.op
        else valueDslPath nodes fuel p.source
      let chan := (p.outputNames[v.channel.toNat]?).getD []
      if base = [] then chan else if chan = [] then base else base ++ '.' :: chan

/-- The inputs of a node, as they are rendered (plan_tree.cpp:223-232). -/
def renderedInputs (nodes : List PlanNode) (n : PlanNode) : List (Str × Option BitRange) :=
  match n.bitjoin with
  | some bj =>
    n.inputSources.zipIdx.map fun v =>
      (valueDslPath nodes nodes.length v.1, (bj.inputs[v.2]?).bind BitjoinInput.range)
  | none => [(valueDslPath nodes nodes.length n.source, none)]

/-- `render_plan_tree` (plan_tree.cpp:217-239). -/
def renderPlanTree (nodes : List PlanNode) : Str :=
  renderPlanSteps (nodes.tail.map fun n =>
    ⟨renderedInputs nodes n, n.op, n.outputNames.map fun name => (name, none), []⟩)

end Sirius.Compression.Plan
