import Sirius.Common.Checked
import Sirius.Common.Text

/-!
# The plan DSL

The model of `parse_plan_dsl` and `render_plan_steps`
(src/compression/simpatico_codegen/src/plan/plan_dsl.cpp), with the names of
bit_spec.cpp and the output channels of operator_registry.cpp that they consult. A
`std::string` is the list of its characters.
-/

namespace Sirius.Compression.Plan

open Sirius.Common Sirius.Common.Text

abbrev Str := List Char

/-! ## Operator names -/

/-- `std::isspace` in the C locale. -/
def isSpace (c : Char) : Bool := c ∈ [' ', '\t', '\n', '\x0b', '\x0c', '\r']

/-- `strip_bitextract_prefix` (bit_spec.cpp:12-19). -/
def stripBitextractPrefix (name : Str) : Option Str :=
  if "bitextract_".toList.length < name.length ∧ "bitextract_".toList <+: name then
    some (name.drop "bitextract_".toList.length)
  else none

/-- The tokens of `parse_packed_type_token` (bit_spec.cpp:36-49), with the type each is. -/
def packedTypeTokens : List (Str × String) :=
  [("u8", "UINT8"), ("uint8", "UINT8"), ("u16", "UINT16"), ("uint16", "UINT16"),
    ("u32", "UINT32"), ("uint32", "UINT32"), ("u64", "UINT64"), ("uint64", "UINT64"),
    ("i8", "INT8"), ("int8", "INT8"), ("i16", "INT16"), ("int16", "INT16"),
    ("i32", "INT32"), ("int32", "INT32"), ("i64", "INT64"), ("int64", "INT64"),
    ("f32", "FLOAT32"), ("f64", "FLOAT64")].map fun t => (t.1.toList, t.2)

/-- `parse_packed_type_token`; `none` is `EMPTY`. -/
def parsePackedTypeToken (tok : Str) : Option String := packedTypeTokens.lookup tok

/-- A typed bitextract suffix, without its type token (bit_spec.cpp:55-64). -/
def untyped (suffix : Str) : Option Str :=
  if suffix = "f32".toList ∨ suffix = "f64".toList then none
  else if (suffix.head?.map Char.isDigit).getD true then none
  else if '_' ∉ suffix then none
  else if (parsePackedTypeToken (suffix.takeWhile (· ≠ '_'))).isNone then none
  else some ((suffix.dropWhile (· ≠ '_')).tail)

/-- `bitextract_canonical_name` (bit_spec.cpp:51-65). -/
def bitextractCanonicalName (compressor : Str) : Str :=
  match (stripBitextractPrefix compressor).bind untyped with
  | some fields => "bitextract_".toList ++ fields
  | none => compressor

/-- `canonicalize_path` (bit_spec.cpp:67-74). -/
def canonicalizePath (path : Str) : Str :=
  bitextractCanonicalName (path.takeWhile (· ≠ '.')) ++ path.dropWhile (· ≠ '.')

/-- The output channels of the operators that have a fixed order
(operator_registry.cpp:44-61). -/
def channelTable : List (Str × List Str) :=
  [("delta", ["differences"]), ("rle", ["runs", "values"]),
    ("bitpack", ["chunk_min", "chunk_count", "chunk_bits", "packed"]),
    ("for", ["deltas", "references"]), ("zigzag", ["zigzag"]), ("dictionary", []),
    ("alp", ["integers", "exceptions", "exception_positions", "metadata"]),
    ("alp_rd", ["right_parts", "dict_indices", "dict", "metadata", "exceptions",
      "exception_positions"]),
    ("ans", ["output"]), ("bitcomp", ["output"]), ("snappy", ["output"]), ("deflate", ["output"]),
    ("lz4", ["output"]), ("bitextract", []), ("identity", ["data"]),
    ("nvcomp_cascaded", ["output"]), ("str_split", ["offsets", "chars"])].map
    fun e => (e.1.toList, e.2.map String.toList)

/-- `after_prefix` (operator_registry.cpp:23-31), as a test. -/
def hasParameters (name family : Str) : Bool :=
  decide (family.length + 1 < name.length) && (family ++ ['_']).isPrefixOf name

/-- `op_id_from_name` and `canonical_channels` (operator_registry.cpp:74-96): the order of an
operator's outputs, where it has one. -/
def canonicalOutputChannels (op : Str) : Option (List Str) :=
  if (stripBitextractPrefix op).isSome then none
  else match channelTable.lookup op with
    | some channels => if channels = [] then none else some channels
    | none =>
      if hasParameters op "bitcomp".toList || hasParameters op "nvcomp_cascaded".toList then
        some ["output".toList]
      else none

/-! ## Tokens -/

/-- `bit_range`. -/
abbrev BitRange := UInt32 × UInt32

/-- The value of a string of decimal digits. -/
def decimal (s : Str) : ℕ := s.foldl (fun n c => 10 * n + (c.toNat - 48)) 0

/-- `parse_uint` (plan_dsl.cpp:58-63). -/
def parseUint (s : Str) : Option UInt32 :=
  if s ≠ [] ∧ s.all Char.isDigit ∧ decimal s < 2 ^ 32 then some (UInt32.ofNat (decimal s)) else none

/-- `split_path_and_range` (plan_dsl.cpp:69-87); `none` is a malformed token. -/
def splitPathAndRange (tok : Str) : Option (Str × Option BitRange) :=
  match splitLast ':' tok with
  | none => some (tok, none)
  | some (before, lo) =>
    match splitLast '_' before with
    | none => none
    | some (path, hi) =>
      if path = [] then none
      else match parseUint hi, parseUint lo with
        | some hi, some lo => some (path, some (hi, lo))
        | _, _ => none

/-- `trim_copy`. -/
def trimCopy (s : Str) : Str := trim isSpace s

/-- `split_by_arrow` (plan_dsl.cpp:102-116). -/
def splitByArrow (line : Str) : List Str :=
  if line = [] then [] else (splitPair '-' '>' line).map trimCopy

/-- `split_csv` (plan_dsl.cpp:118-134). -/
def splitCsv (s : Str) : List Str := ((s.splitOn ',').map trimCopy).filter (· ≠ [])

/-- The errors of the parser and of the tree builder. -/
inductive PlanError where
  | sections (line : ℕ)
  | malformed (line : ℕ) (what : String) (tok : Str)
  | empty (line : ℕ)
  | noOutputs (line : ℕ)
  | duplicate (line : ℕ) (path : Str)
  | unknownBitjoinInput (path : Str)
  | unknownInput (path : Str)
  | multiInput (compressor : Str)
  | notOutput (consumer : ℕ) (channel : Str) (producer : ℕ)
  deriving DecidableEq, Repr

/-- One token of a list (plan_dsl.cpp:152-168). -/
def parseToken (line : ℕ) (what : String) (tok : Str) :
    Except PlanError (Str × Option BitRange) :=
  match splitPathAndRange tok with
  | none => .error (.malformed line what tok)
  | some (path, range) =>
    if path = [] then .error (.malformed line what tok) else .ok (canonicalizePath path, range)

/-- `parse_token_list` (plan_dsl.cpp:141-169). -/
def parseTokenList (line : ℕ) (what : String) (csv : Str) :
    Except PlanError (List (Str × Option BitRange)) :=
  (splitCsv csv).mapM (parseToken line what)

/-! ## Steps -/

/-- `plan_step`, with the paths and the names beside their ranges. -/
structure PlanStep where
  inputs : List (Str × Option BitRange)
  compressor : Str
  outputs : List (Str × Option BitRange)
  outputPaths : List Str
  deriving DecidableEq, Repr

def PlanStep.inputPaths (s : PlanStep) : List Str := s.inputs.map Prod.fst

def PlanStep.outputNames (s : PlanStep) : List Str := s.outputs.map Prod.fst

/-- `canonicalize_output_order` (plan_dsl.cpp:30-56). -/
def canonicalizeOutputOrder : List Str → List (Str × Option BitRange) →
    List (Str × Option BitRange)
  | [], outputs => outputs
  | c :: canon, outputs =>
    outputs.filter (fun o => o.1 = c) ++
      canonicalizeOutputOrder canon (outputs.filter fun o => o.1 ≠ c)

/-- The namespace of a step's outputs (plan_dsl.cpp:247-258). -/
def basePath (inputPaths : List Str) (compressor : Str) : Str :=
  match inputPaths with
  | [path] => if path = "input".toList then bitextractCanonicalName compressor else path
  | _ => compressor

/-- The path of an output (plan_dsl.cpp:260-267). -/
def outputPath (base output : Str) : Str := if base = [] then output else base ++ '.' :: output

/-- The third section of a line (plan_dsl.cpp:221-236). -/
def parseOutputs (line : ℕ) (compressor : Str) (parts : List Str) :
    Except PlanError (List (Str × Option BitRange)) :=
  match parts[2]? with
  | none => .ok []
  | some part => do
    let outputs ← parseTokenList line "output" part
    if outputs = [] then .error (.noOutputs line)
    else match canonicalOutputChannels compressor with
      | some canon => .ok (canonicalizeOutputOrder canon outputs)
      | none => .ok outputs

/-- A line that is neither blank nor a comment (plan_dsl.cpp:201-274). -/
def parseStep (seen : List Str) (line : ℕ) (text : Str) : Except PlanError PlanStep :=
  let parts := splitByArrow text
  if parts.length < 2 ∨ 3 < parts.length then .error (.sections line)
  else do
    let inputs ← parseTokenList line "input" (parts[0]?.getD [])
    let compressor := parts[1]?.getD []
    if inputs = [] ∨ compressor = [] then .error (.empty line)
    else do
      let outputs ← parseOutputs line compressor parts
      match inputs.find? fun i => seen.contains i.1 with
      | some i => .error (.duplicate line i.1)
      | none =>
        let base := basePath (inputs.map Prod.fst) compressor
        .ok ⟨inputs, compressor, outputs,
          ((outputs.map Prod.fst).filter (· ≠ [])).map (outputPath base)⟩

/-- The text of a raw line: without a final carriage return, a comment and the blanks
around it (plan_dsl.cpp:192-199). -/
def lineText (raw : Str) : Str :=
  let raw := if raw.getLast? = some '\r' then raw.dropLast else raw
  trimCopy (raw.takeWhile (· ≠ '#'))

/-- `std::getline`, to the end of the stream. -/
def getLines (dsl : Str) : List Str :=
  let lines := dsl.splitOn '\n'
  if lines.getLast? = some [] then lines.dropLast else lines

def parseLines : List Str → ℕ → List Str → Except PlanError (List PlanStep)
  | _, _, [] => .ok []
  | seen, line, raw :: rest =>
    let text := lineText raw
    if text = [] then parseLines seen (line + 1) rest
    else do
      let step ← parseStep seen line text
      let steps ← parseLines (step.inputPaths ++ seen) (line + 1) rest
      .ok (step :: steps)

/-- `parse_plan_dsl` (plan_dsl.cpp:173-281). -/
def parsePlanDsl (dsl : Str) : Except PlanError (List PlanStep) := parseLines [] 1 (getLines dsl)

/-! ## Rendering -/

/-- A number in decimal. -/
def renderUint (n : UInt32) : Str :=
  if n.toNat = 0 then ['0'] else (Nat.digits 10 n.toNat).reverse.map Nat.digitChar

def renderToken (t : Str × Option BitRange) : Str :=
  match t.2 with
  | none => t.1
  | some (hi, lo) => t.1 ++ '_' :: (renderUint hi ++ ':' :: renderUint lo)

/-- `render_token_list` (plan_dsl.cpp:285-297). -/
def renderTokenList : List (Str × Option BitRange) → Str
  | [] => []
  | [t] => renderToken t
  | t :: ts => renderToken t ++ ", ".toList ++ renderTokenList ts

/-- A step to be rendered. -/
def renderStep (inputs : List (Str × Option BitRange)) (compressor : Str)
    (outputs : List (Str × Option BitRange)) : Str :=
  renderTokenList inputs ++ " -> ".toList ++ compressor ++
    (if outputs = [] then [] else " -> ".toList ++ renderTokenList outputs)

/-- `render_plan_steps` (plan_dsl.cpp:301-313). -/
def renderPlanSteps (steps : List PlanStep) : Str :=
  steps.flatMap fun s => renderStep s.inputs s.compressor s.outputs ++ ['\n']

end Sirius.Compression.Plan
