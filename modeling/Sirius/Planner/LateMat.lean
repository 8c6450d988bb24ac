import Mathlib.Data.List.Basic

/-!
# The late-materialization walk

The model of `trace_through`, `join_output_position` and `analyze_column_lifetimes`
(src/planner/late_mat_plan_pass.cpp:202-526, 578-734): how far each column a scan emits is
merely carried by the operators above it, and where it sits on the way.

A plan is seen from the scan: the list of its ancestors, in ride order. An operator is
named by its distance from the scan, which is `0`. A pointer to the child the walk came
from is the side of the join it is.
-/

namespace Sirius.Planner.LateMat

/-! ## Expressions -/

/-- `ast::cast_kind`: a cast of the query, or one that restores a narrow carrier. -/
inductive CastKind where
  | logical | carrierRestore
  deriving DecidableEq, Repr

/-- `ast::node`: a reference, a cast, or any of the other alternatives with its children
(a constant has none). -/
inductive Expr where
  | reference (columnIndex : ℕ)
  | cast (kind : CastKind) (child : Expr)
  | node (alternative : ℕ) (children : List Expr)

/-- The reference a carrier restore is over (late_mat_plan_pass.cpp:481-492). -/
def Expr.restored? : Expr → Option ℕ
  | .cast .carrierRestore (.reference i) => some i
  | _ => none

mutual

/-- `reads_column` (late_mat_plan_pass.cpp:48-55). -/
def readsColumn (pos : ℕ) : Expr → Bool
  | .reference i => i == pos
  | .cast _ child => readsColumn pos child
  | .node _ children => readsAny pos children

/-- `visit_references` over the children. -/
def readsAny (pos : ℕ) : List Expr → Bool
  | [] => false
  | e :: es => readsColumn pos e || readsAny pos es

end

/-! ## Operators -/

/-- `duckdb::JoinType`. -/
inductive JoinType where
  | inner | left | right | outer | semi | anti | mark | single | rightSemi | rightAnti
  deriving DecidableEq, Repr

/-- The types that pass a payload through (late_mat_plan_pass.cpp:259-262). -/
def JoinType.carries : JoinType → Bool
  | .inner | .left | .right | .outer => true
  | _ => false

/-- `sirius::comparison_type`. -/
inductive Comparison where
  | equal | notEqual | lt | le | gt | ge | distinctFrom | notDistinctFrom
  deriving DecidableEq, Repr

/-- `sirius::join_condition`; a side may be missing. -/
structure JoinCondition where
  left : Option Expr
  right : Option Expr
  comparison : Comparison

/-- `is_bare_column_equality` (late_mat_plan_pass.cpp:63-68). -/
def JoinCondition.isBareColumnEquality (c : JoinCondition) : Bool :=
  match c.comparison, c.left, c.right with
  | .equal, some (.reference _), some (.reference _) => true
  | _, _, _ => false

/-- What the walk asks of a hash join. `fromLhs` is the child the walk came from, `none`
when it is neither or the join has not two. -/
structure HashJoin where
  joinType : JoinType
  fromLhs : Option Bool
  conditions : List JoinCondition
  lhsOutputColumns : List ℕ
  rhsOutputColumns : List ℕ

/-- The half of a condition that addresses a side. -/
def JoinCondition.side (c : JoinCondition) (fromLhs : Bool) : Option Expr :=
  if fromLhs then c.left else c.right

/-- `group_by_shape`: the keys, the aggregates with whether each is a `COUNT_VALID`, the
struct inputs, and the inputs that a `FIRST` carries. -/
structure GroupByShape where
  groupIdx : List ℕ
  aggregates : List (ℕ × Bool)
  aggregateStructIdx : List (List ℕ)
  carried : List ℕ

/-- A dynamic-filter channel: its producers and the columns they may probe. -/
structure Channel where
  hasProducers : Bool
  unscoped : Bool
  targets : List ℕ

/-- The operators the walk tells apart. Missing details stand for a node of another class
than its type says, which the walk cannot introspect. -/
inductive Op where
  | partition (keys : List ℕ)
  | concat (children : ℕ)
  | hashJoin (join : HashJoin)
  | dynamicFilter (endpoint : Option (Option Channel))
  | buildFilter (underBuildInput : Bool)
  | groupBy (shape : Option GroupByShape)
  | topN (orders : Option (List (Option ℕ)))
  | filter (predicate : Option Expr) (mask : Option (List ℕ))
  | projection (selectList : List (Option Expr))
  | otherJoin
  | other

/-- An ancestor of the scan, and whether it is a pipeline sink. -/
structure Node where
  op : Op
  isSink : Bool

/-- The scan: how many columns it emits. -/
structure Scan where
  width : ℕ
  isSink : Bool

/-- `is_group_by`. -/
def Op.isGroupBy : Op → Bool
  | .groupBy _ => true
  | _ => false

/-- `multiplies_rows` (late_mat_plan_pass.cpp:143-157). -/
def Op.multipliesRows : Op → Bool
  | .hashJoin _ | .otherJoin => true
  | _ => false

/-- `reduces_rows` (late_mat_plan_pass.cpp:161-165). -/
def Op.reducesRows : Op → Bool
  | .groupBy _ | .topN _ => true
  | _ => false

/-! ## One operator -/

structure ComparedCondition where
  index : ℕ
  bareEquality : Bool
  deriving DecidableEq, Repr

/-- `step` (late_mat_plan_pass.cpp:72-129). -/
structure Step where
  movedTo : Option ℕ := none
  readContent : Bool := false
  asJoinKey : Bool := false
  asGroupKey : Bool := false
  comparedIn : List ComparedCondition := []
  fromLhs : Bool := false
  countOnly : Bool := false
  carrierRestoreAt : Option ℕ := none
  deriving DecidableEq, Repr

def Step.reads : Step := { readContent := true }

def Step.readsAndMoves (position : Option ℕ) : Step := { movedTo := position, readContent := true }

def Step.counts : Step := { readContent := true, countOnly := true }

def Step.key (position : Option ℕ) : Step :=
  { movedTo := position, readContent := true, asJoinKey := true }

def Step.to (position : Option ℕ) : Step := { movedTo := position }

def Step.groupKey (position : Option ℕ) (alsoRead : Bool) : Step :=
  { movedTo := position, readContent := alsoRead, asGroupKey := true }

/-- `join_output_position` (late_mat_plan_pass.cpp:511-526). -/
def joinOutputPosition (fromLhs : Bool) (lhs rhs : List ℕ) (inPosition : ℕ) : Option ℕ :=
  if fromLhs then lhs.findIdx? (· == inPosition)
  else (rhs.findIdx? (· == inPosition)).map (lhs.length + ·)

/-- The conditions of a join that compare the column (late_mat_plan_pass.cpp:271-277). -/
def HashJoin.comparedIn (join : HashJoin) (fromLhs : Bool) (inPos : ℕ) :
    List ComparedCondition :=
  join.conditions.zipIdx.filterMap fun c =>
    if (c.1.side fromLhs).any (readsColumn inPos) then
      some ⟨c.2, c.1.isBareColumnEquality⟩
    else none

/-- An outer join can emit a row the side never matched (late_mat_plan_pass.cpp:302-306). -/
def HashJoin.nullifies (join : HashJoin) (fromLhs : Bool) : Bool :=
  join.joinType == .outer || (fromLhs && join.joinType == .right) ||
    (!fromLhs && join.joinType == .left)

/-- The column at a hash join (late_mat_plan_pass.cpp:254-308), with `nullified`. -/
def traceHashJoin (join : HashJoin) (inPos : ℕ) (nullified : Bool) : Step × Bool :=
  if !join.joinType.carries then (Step.reads, nullified)
  else match join.fromLhs with
    | none => (Step.reads, nullified)
    | some fromLhs =>
      let comparedIn := join.comparedIn fromLhs inPos
      let moved := joinOutputPosition fromLhs join.lhsOutputColumns join.rhsOutputColumns inPos
      if comparedIn ≠ [] then
        ({ Step.key moved with comparedIn := comparedIn, fromLhs := fromLhs }, nullified)
      else (Step.to moved, nullified || (moved.isSome && join.nullifies fromLhs))

/-- The column at a dynamic-filter endpoint (late_mat_plan_pass.cpp:310-325). -/
def traceDynamicFilter (endpoint : Option (Option Channel)) (inPos : ℕ) : Step :=
  match endpoint with
  | none => Step.reads
  | some none => Step.to (some inPos)
  | some (some channel) =>
    if !channel.hasProducers then Step.to (some inPos)
    else if channel.unscoped then Step.readsAndMoves (some inPos)
    else if channel.targets.contains inPos then Step.readsAndMoves (some inPos)
    else Step.to (some inPos)

/-- Whether an aggregate, a struct aggregate or a `FIRST` consumes the column, and whether
every such read is a count (late_mat_plan_pass.cpp:354-382). -/
def GroupByShape.reads (shape : GroupByShape) (inPos : ℕ) : Bool × Bool :=
  let slots := shape.aggregates.filter fun a => a.1 == inPos
  let any := !slots.isEmpty
  let aggregateInput := any || shape.aggregateStructIdx.any fun cols => cols.contains inPos
  if shape.carried.contains inPos then (true, false)
  else (aggregateInput, any && slots.all Prod.snd)

/-- The column at a group-by (late_mat_plan_pass.cpp:343-398). -/
def traceGroupBy (shape : Option GroupByShape) (inPos : ℕ) : Step :=
  match shape with
  | none => Step.reads
  | some shape =>
    match shape.groupIdx.findIdx? (· == inPos) with
    | none => if (shape.reads inPos).2 then Step.counts else Step.reads
    | some key => Step.groupKey (some key) (shape.reads inPos).1

/-- The column at a top-n (late_mat_plan_pass.cpp:400-429). -/
def traceTopN (orders : Option (List (Option ℕ))) (inPos : ℕ) : Step :=
  match orders with
  | none => Step.reads
  | some orders => go orders
where
  go : List (Option ℕ) → Step
    | [] => Step.to (some inPos)
    | none :: _ => Step.reads
    | some index :: rest => if index = inPos then Step.readsAndMoves (some inPos) else go rest

/-- The column at a filter (late_mat_plan_pass.cpp:431-452). -/
def traceFilter (predicate : Option Expr) (mask : Option (List ℕ)) (inPos : ℕ) : Step :=
  let moved :=
    match mask with
    | none => some inPos
    | some mask => mask.findIdx? (· == inPos)
  if predicate.any (readsColumn inPos) then Step.readsAndMoves moved else Step.to moved

/-- What the loop over a select list has found. -/
structure Found where
  movedTo : Option ℕ := none
  restoreAt : Option ℕ := none
  computedWith : Bool := false
  deriving DecidableEq, Repr

/-- One expression of a select list (late_mat_plan_pass.cpp:461-494). A carrier restore of
a column that already moved is passed over. -/
def Found.visit (inPos out : ℕ) (f : Found) : Option Expr → Found
  | none => f
  | some (.reference i) =>
    if i = inPos then
      if f.movedTo.isNone then { f with movedTo := some out } else { f with computedWith := true }
    else f
  | some e =>
    match e.restored? with
    | some i =>
      if i = inPos ∧ f.movedTo.isNone then { f with movedTo := some out, restoreAt := some out }
      else f
    | none => if readsColumn inPos e then { f with computedWith := true } else f

def Found.visitAll (inPos : ℕ) : ℕ → Found → List (Option Expr) → Found
  | _, f, [] => f
  | out, f, e :: es => Found.visitAll inPos (out + 1) (f.visit inPos out e) es

/-- The column at a projection (late_mat_plan_pass.cpp:454-499). -/
def traceProjection (selectList : List (Option Expr)) (inPos : ℕ) : Step :=
  let f := Found.visitAll inPos 0 {} selectList
  let moved := if f.computedWith then Step.readsAndMoves f.movedTo else Step.to f.movedTo
  { moved with carrierRestoreAt := f.restoreAt }

/-- `trace_through` (late_mat_plan_pass.cpp:202-506): the step, and `nullified` after it.
`consumer` is the operator above the node. -/
def traceThrough (op : Op) (consumer : Option Op) (inPos : ℕ) (nullified rodeGroupKey : Bool) :
    Step × Bool :=
  match op with
  | .partition keys =>
    if keys.contains inPos then
      if rodeGroupKey && consumer.any Op.isGroupBy then
        (Step.groupKey (some inPos) false, nullified)
      else (Step.key (some inPos), nullified)
    else (Step.to (some inPos), nullified)
  | .concat children =>
    (if children = 1 then Step.to (some inPos) else Step.reads, nullified)
  | .hashJoin join => traceHashJoin join inPos nullified
  | .dynamicFilter endpoint => (traceDynamicFilter endpoint inPos, nullified)
  | .buildFilter underBuildInput =>
    (if underBuildInput then Step.to (some inPos) else Step.reads, nullified)
  | .groupBy shape => (traceGroupBy shape inPos, nullified)
  | .topN orders => (traceTopN orders inPos, nullified)
  | .filter predicate mask => (traceFilter predicate mask inPos, nullified)
  | .projection selectList => (traceProjection selectList inPos, nullified)
  | .otherJoin => (Step.reads, nullified)
  | .other => (Step.reads, nullified)

/-! ## The walk -/

structure JoinKeyRole where
  join : ℕ
  condition : ℕ
  fromLhs : Bool
  bareColumnEquality : Bool
  deriving DecidableEq, Repr

structure CarrierRestoreSite where
  projection : ℕ
  outputPosition : ℕ
  deriving DecidableEq, Repr

structure GroupKeyRide where
  groupBys : List ℕ := []
  reader : Option ℕ := none
  positionAtReader : ℕ := 0
  readerInput : Option ℕ := none
  portCrossings : ℕ := 0
  nullifiedOnRide : Bool := false
  readAsJoinKey : Bool := false
  fannedOutAtReader : Bool := false
  deriving DecidableEq, Repr

/-- `column_lifetime` (late_mat_plan_pass.hpp:117-176). -/
structure ColumnLifetime where
  scanOutputPosition : ℕ
  firstReader : Option ℕ := none
  portCrossings : ℕ := 0
  positionAtReader : ℕ
  readerInput : Option ℕ := none
  nullifiedOnRide : Bool := false
  readAsJoinKey : Bool := false
  fannedOutAtReader : Bool := false
  consumedAsCountOnly : Bool := false
  joinKeyAt : List JoinKeyRole := []
  groupKeyAt : List ℕ := []
  carrierRestores : List CarrierRestoreSite := []
  groupRide : Option GroupKeyRide := none
  deriving DecidableEq, Repr

/-- `live_column` (late_mat_plan_pass.cpp:589-606). -/
structure LiveColumn where
  position : ℕ
  nullified : Bool := false
  stopped : Bool := false
  extending : Bool := false
  fannedOut : Bool := false
  deriving DecidableEq, Repr

/-- A column of the scan: its lifetime, and its live entry while it has one. -/
structure Traveller where
  life : ColumnLifetime
  live : Option LiveColumn
  deriving DecidableEq, Repr

/-- Where the walk stands: the operator it is at, the one above, and the crossings. -/
structure Stop where
  id : ℕ
  node : Node
  consumer : Option Op
  crossings : ℕ

/-- The snapshot of a stop (late_mat_plan_pass.cpp:647-655, 681-690). -/
def ColumnLifetime.stopAt (life : ColumnLifetime) (here : Stop) (col : LiveColumn) (moved : Step) :
    ColumnLifetime :=
  { life with
    firstReader := some here.id
    portCrossings := here.crossings
    positionAtReader := col.position
    readerInput := some (here.id - 1)
    nullifiedOnRide := col.nullified
    readAsJoinKey := moved.asJoinKey
    consumedAsCountOnly := moved.countOnly
    fannedOutAtReader := col.fannedOut }

/-- The end of the longer ride (late_mat_plan_pass.cpp:662-671, 692-699). -/
def ColumnLifetime.endGroupRide (life : ColumnLifetime) (here : Stop) (col : LiveColumn)
    (readAsJoinKey : Bool → Bool) : ColumnLifetime :=
  { life with
    groupRide := life.groupRide.map fun ride =>
      { ride with
        reader := some here.id
        portCrossings := here.crossings
        positionAtReader := col.position
        readerInput := some (here.id - 1)
        nullifiedOnRide := col.nullified
        readAsJoinKey := readAsJoinKey ride.readAsJoinKey
        fannedOutAtReader := col.fannedOut } }

/-- The roles recorded whatever else reads the column (late_mat_plan_pass.cpp:631-640). -/
def ColumnLifetime.record (life : ColumnLifetime) (here : Stop) (moved : Step) : ColumnLifetime :=
  { life with
    groupKeyAt := if moved.asGroupKey && here.node.op.isGroupBy then life.groupKeyAt ++ [here.id]
      else life.groupKeyAt
    carrierRestores := life.carrierRestores ++
      (moved.carrierRestoreAt.map fun out => ⟨here.id, out⟩).toList
    joinKeyAt := life.joinKeyAt ++
      moved.comparedIn.map fun c => ⟨here.id, c.index, moved.fromLhs, c.bareEquality⟩ }

/-- The stop of a ride, plain or extended (late_mat_plan_pass.cpp:645-675). -/
def Traveller.stopped (life : ColumnLifetime) (here : Stop) (col : LiveColumn) (moved : Step) :
    ColumnLifetime × LiveColumn :=
  let (life, col) :=
    if (moved.readContent || moved.asGroupKey) && !col.stopped then
      let life := life.stopAt here col moved
      let col := { col with stopped := true }
      if moved.asGroupKey && !moved.readContent then
        ({ life with groupRide := some {} }, { col with extending := true })
      else (life, col)
    else if col.extending && moved.readContent then
      (life.endGroupRide here col fun _ => moved.asJoinKey, { col with extending := false })
    else (life, col)
  if col.extending && moved.asGroupKey && here.node.op.isGroupBy then
    ({ life with
      groupRide := life.groupRide.map fun ride => { ride with groupBys := ride.groupBys ++ [here.id] }
      }, col)
  else (life, col)

/-- A column that is not passed on (late_mat_plan_pass.cpp:677-702). -/
def Traveller.dropped (life : ColumnLifetime) (here : Stop) (col : LiveColumn) (moved : Step) :
    ColumnLifetime :=
  let life := if !col.stopped then life.stopAt here col moved else life
  if col.extending then life.endGroupRide here col id else life

/-- One column at one operator (late_mat_plan_pass.cpp:625-708). -/
def Traveller.visit (here : Stop) (t : Traveller) : Traveller :=
  match t.live with
  | none => t
  | some col =>
    let (moved, nullified) :=
      traceThrough here.node.op here.consumer col.position col.nullified col.extending
    let (life, col) :=
      Traveller.stopped (t.life.record here moved) here { col with nullified := nullified } moved
    match moved.movedTo with
    | none => ⟨Traveller.dropped life here col moved, none⟩
    | some position =>
      let fannedOut :=
        if here.node.op.reducesRows then false
        else if here.node.op.multipliesRows then true else col.fannedOut
      ⟨life, some { col with position := position, fannedOut := fannedOut }⟩

/-- The columns and the crossings, after some operators. -/
structure Walk where
  crossings : ℕ
  columns : List Traveller

/-- Whether the operator of an id is a sink. -/
def isSinkAt (scan : Scan) (chain : List Node) : ℕ → Bool
  | 0 => scan.isSink
  | k + 1 => (chain[k]?.map Node.isSink).getD false

/-- `lifetimes` and `live` after `k` operators of the loop (late_mat_plan_pass.cpp:580-711). -/
def walkAfter (scan : Scan) (chain : List Node) : ℕ → Walk
  | 0 => ⟨0, (List.range scan.width).map fun col =>
      ⟨{ scanOutputPosition := col, positionAtReader := col }, some { position := col }⟩⟩
  | k + 1 =>
    let w := walkAfter scan chain k
    match chain[k]? with
    | none => w
    | some node =>
      let crossings := if isSinkAt scan chain k then w.crossings + 1 else w.crossings
      let here : Stop := ⟨k + 1, node, (chain[k + 1]?).map Node.op, crossings⟩
      ⟨crossings, w.columns.map (Traveller.visit here)⟩

/-- The columns that reach the top of the plan (late_mat_plan_pass.cpp:716-732). -/
def Traveller.finish (top crossings : ℕ) (t : Traveller) : ColumnLifetime :=
  match t.live with
  | none => t.life
  | some col =>
    if col.extending then
      { t.life with
        groupRide := t.life.groupRide.map fun ride =>
          { ride with
            portCrossings := crossings
            positionAtReader := col.position
            readerInput := some top
            nullifiedOnRide := col.nullified
            fannedOutAtReader := col.fannedOut } }
    else if col.stopped then t.life
    else
      { t.life with
        portCrossings := crossings
        positionAtReader := col.position
        readerInput := some top
        nullifiedOnRide := col.nullified
        fannedOutAtReader := col.fannedOut }

/-- `analyze_column_lifetimes` (late_mat_plan_pass.cpp:578-734). -/
def analyzeColumnLifetimes (scan : Scan) (chain : List Node) : List ColumnLifetime :=
  let w := walkAfter scan chain chain.length
  w.columns.map (Traveller.finish chain.length w.crossings)

end Sirius.Planner.LateMat
