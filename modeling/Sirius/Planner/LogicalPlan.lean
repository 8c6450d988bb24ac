import Mathlib

/-!
# Logical plans and what they compute

The logical operators of DuckDB that the planner looks through (src/planner/scan_column_origin.cpp,
src/planner/join_key_nullability.cpp), with the fields that it reads, and the rows that they produce.
A value is `none` where it is NULL. The rows of a plan are a relation: the operators leave the order
of their output, or the choice among equal rows, open.

* `Plan`: a tree of operators, each with the types of its output.
* `Eval`: the rows that a plan may produce.
* `Resolved`: the types of every operator have been resolved.
* `Eval.width`: the rows of a resolved plan are as wide as its types.
-/

namespace Sirius.Planner.LogicalPlan

variable {V T : Type}

/-! ## Rows and expressions -/

/-- A row of values, NULL where there is none. -/
abbrev Row (V : Type) := List (Option V)

/-- The value of a row at a position. -/
def column (ordinal : ℕ) (row : Row V) : Option V := row.getD ordinal none

/-- A bound expression: a reference to a column of the input, or anything that is computed. -/
inductive Expression (V T : Type) where
  | boundRef (index : ℕ) (returnType : T)
  | other (returnType : T) (value : Row V → Option V)

/-- The value of an expression on a row. -/
def Expression.eval : Expression V T → Row V → Option V
  | .boundRef index _, row => column index row
  | .other _ value, row => value row

/-- A projection map picks columns; an empty one keeps the row. -/
def projectRow (map : List ℕ) (row : Row V) : Row V :=
  if map = [] then row else map.map fun index => column index row

/-- The number of columns that are left. -/
def blockWidth (map : List ℕ) (width : ℕ) : ℕ := if map = [] then width else map.length

/-! ## Scans -/

/-- `ColumnIndex`: a column that a scan reads. -/
structure ColumnIndex where
  primaryIndex : Option ℕ
  isRowId : Bool := false
  isVirtual : Bool := false
  hasChildren : Bool := false
  deriving DecidableEq, Repr

/-- A column of a table. -/
structure ColumnDefinition (T : Type) where
  type : T
  generated : Bool := false

/-- A constraint of a table. -/
inductive Constraint where
  | notNull (index : ℕ)
  | other
  deriving DecidableEq, Repr

/-- `TableCatalogEntry`. -/
structure TableEntry (T : Type) where
  oid : ℕ
  isDuckTable : Bool
  columns : List (ColumnDefinition T)
  constraints : List Constraint

/-- `LogicalGet`. The index tells two scans of a plan apart. -/
structure Get (T : Type) where
  tableIndex : ℕ
  columnIds : List ColumnIndex
  projectionIds : List ℕ := []
  projectedInput : List ℕ := []
  hasPushedProjection : Bool := false
  functionName : String
  hasBindData : Bool := true
  table : Option (TableEntry T)

/-- The column that an output position of a scan reads. -/
def Get.columnAt (get : Get T) (ordinal : ℕ) : Option ColumnIndex :=
  if get.projectionIds = [] then get.columnIds[ordinal]?
  else get.projectionIds[ordinal]? >>= fun index => get.columnIds[index]?

/-- The data: the rows of the tables, and what the scans of them return. -/
structure Database (V T : Type) where
  tableRows : TableEntry T → List (Row V)
  scanRows : Get T → List (Row V)
  /-- A scan of a native table, without a projection pushed into it, returns rows of the table: a
      plain column of the output is the column of the table that it reads. -/
  reads : ∀ get table, get.table = some table → table.isDuckTable → get.functionName = "seq_scan" →
    get.hasPushedProjection = false → ∀ row ∈ scanRows get, ∃ source ∈ tableRows table,
      ∀ ordinal index, get.columnAt ordinal = some { primaryIndex := some index } →
        column ordinal row = column index source

/-! ## Joins -/

/-- `duckdb::JoinType`. -/
inductive JoinType where
  | invalid
  | left
  | right
  | inner
  | outer
  | semi
  | anti
  | mark
  | single
  | rightSemi
  | rightAnti
  deriving DecidableEq, Repr

/-- The operator types of the joins. -/
inductive JoinKind where
  | comparison
  | any
  | asof
  | delim
  deriving DecidableEq, Repr

/-- The comparisons of a join condition. -/
inductive ComparisonType where
  | equal
  | notEqual
  | lessThan
  | greaterThan
  | lessThanOrEqual
  | greaterThanOrEqual
  | distinctFrom
  | notDistinctFrom
  deriving DecidableEq, Repr

/-- `JoinCondition`: a comparison of the two sides, or any other predicate on a pair of rows. -/
inductive JoinCondition (V T : Type) where
  | comparison (type : ComparisonType) (lhs rhs : Expression V T)
  | expression (predicate : Row V → Row V → Option Bool)

/-- `LogicalJoin`. -/
structure Join (V T : Type) where
  kind : JoinKind
  joinType : JoinType
  leftProjectionMap : List ℕ := []
  rightProjectionMap : List ℕ := []
  conditions : List (JoinCondition V T)

section Conditions

variable [LinearOrder V]

/-- Three-valued comparison: a NULL side makes the result NULL, except for the two `DISTINCT FROM`
    comparisons. -/
def compareValues (type : ComparisonType) (a b : Option V) : Option Bool :=
  match type with
  | .distinctFrom => some (a ≠ b)
  | .notDistinctFrom => some (a = b)
  | .equal => a.bind fun x => b.map fun y => decide (x = y)
  | .notEqual => a.bind fun x => b.map fun y => decide (x ≠ y)
  | .lessThan => a.bind fun x => b.map fun y => decide (x < y)
  | .greaterThan => a.bind fun x => b.map fun y => decide (y < x)
  | .lessThanOrEqual => a.bind fun x => b.map fun y => decide (x ≤ y)
  | .greaterThanOrEqual => a.bind fun x => b.map fun y => decide (y ≤ x)

/-- The truth value of a condition on two rows. -/
def JoinCondition.eval (condition : JoinCondition V T) (l r : Row V) : Option Bool :=
  match condition with
  | .comparison type lhs rhs => compareValues type (lhs.eval l) (rhs.eval r)
  | .expression predicate => predicate l r

/-- Two rows match when every condition is true. -/
def matchesAll (conditions : List (JoinCondition V T)) (l r : Row V) : Bool :=
  conditions.all fun condition => condition.eval l r == some true

/-- Which positions of the two sides a join matches. An `ASOF` join chooses one of the rows that
    meet its conditions. -/
def Matching (join : Join V T) (lrows rrows : List (Row V)) (m : ℕ → ℕ → Bool) : Prop :=
  match join.kind with
  | .asof =>
    (∀ a b l r, lrows[a]? = some l → rrows[b]? = some r → m a b →
      matchesAll join.conditions l r) ∧ ∀ a b b', m a b → m a b' → b = b'
  | _ => ∀ a b l r, lrows[a]? = some l → rrows[b]? = some r →
    m a b = matchesAll join.conditions l r

end Conditions

section JoinRows

variable (lrows rrows : List (Row V)) (m : ℕ → ℕ → Bool)

/-- The row at position `a` of the left side has a match. -/
def leftMatched (a : ℕ) : Bool := (List.range rrows.length).any fun b => m a b

/-- The row at position `b` of the right side has a match. -/
def rightMatched (b : ℕ) : Bool := (List.range lrows.length).any fun a => m a b

/-- The rows of a side that satisfy a predicate of their position. -/
def rowsWhere (rows : List (Row V)) (p : ℕ → Bool) : List (Row V) :=
  (rows.zipIdx.filter fun row => p row.2).map Prod.fst

/-- The pairs that match. -/
def matchedPairs : List (Option (Row V) × Option (Row V)) :=
  lrows.zipIdx.flatMap fun l => (rowsWhere rrows fun b => m l.2 b).map fun r => (some l.1, some r)

/-- The rows of the left side without a match. -/
def leftPadded : List (Option (Row V) × Option (Row V)) :=
  (rowsWhere lrows fun a => !leftMatched rrows m a).map fun l => (some l, none)

/-- The rows of the right side without a match. -/
def rightPadded : List (Option (Row V) × Option (Row V)) :=
  (rowsWhere rrows fun b => !rightMatched lrows m b).map fun r => (none, some r)

/-- The pairs of a join that emits both sides; a missing side is padded with NULL. A `SINGLE` join
    picks one match for each row of the left side. -/
inductive JoinPairs : JoinType → List (Option (Row V) × Option (Row V)) → Prop
  | inner : JoinPairs .inner (matchedPairs lrows rrows m)
  | left : JoinPairs .left (matchedPairs lrows rrows m ++ leftPadded lrows rrows m)
  | right : JoinPairs .right (matchedPairs lrows rrows m ++ rightPadded lrows rrows m)
  | outer : JoinPairs .outer
      (matchedPairs lrows rrows m ++ leftPadded lrows rrows m ++ rightPadded lrows rrows m)
  | single (pick : ℕ → Option (Row V))
      (hsome : ∀ a r, pick a = some r → ∃ b, rrows[b]? = some r ∧ m a b)
      (hnone : ∀ a, pick a = none → leftMatched rrows m a = false) :
      JoinPairs .single (lrows.zipIdx.map fun l => (some l.1, pick l.2))

/-- The block of a side, NULL where the side is missing. -/
def padRow (map : List ℕ) (width : ℕ) : Option (Row V) → Row V
  | some row => projectRow map row
  | none => List.replicate (blockWidth map width) none

/-- The rows that a join emits (`LogicalJoin::ResolveTypes`): the left block, then the right block
    for the types that emit both sides. `MARK` appends a truth value to the left block. -/
inductive JoinRows (lmap rmap : List ℕ) (lw rw : ℕ) : JoinType → List (Row V) → Prop
  | pairs {type : JoinType} {pairs : List (Option (Row V) × Option (Row V))}
      (h : JoinPairs lrows rrows m type pairs) :
      JoinRows lmap rmap lw rw type (pairs.map fun p => padRow lmap lw p.1 ++ padRow rmap rw p.2)
  | semi : JoinRows lmap rmap lw rw .semi
      ((rowsWhere lrows (leftMatched rrows m)).map (projectRow lmap))
  | anti : JoinRows lmap rmap lw rw .anti
      ((rowsWhere lrows fun a => !leftMatched rrows m a).map (projectRow lmap))
  | mark (marks : ℕ → Option V) : JoinRows lmap rmap lw rw .mark
      (lrows.zipIdx.map fun l => projectRow lmap l.1 ++ [marks l.2])
  | rightSemi : JoinRows lmap rmap lw rw .rightSemi
      ((rowsWhere rrows (rightMatched lrows m)).map (projectRow rmap))
  | rightAnti : JoinRows lmap rmap lw rw .rightAnti
      ((rowsWhere rrows fun b => !rightMatched lrows m b).map (projectRow rmap))

end JoinRows

/-! ## Aggregates -/

/-- `LogicalAggregate`. No grouping sets stand for the one set of all keys. -/
structure Aggregate (V T : Type) where
  groups : List (Expression V T)
  groupingSets : List (Finset ℕ)
  /-- the aggregates and the grouping functions, over the rows of a group -/
  values : List (List (Row V) → Option V)

/-- The grouping sets. -/
def Aggregate.sets (aggregate : Aggregate V T) : List (Finset ℕ) :=
  if aggregate.groupingSets = [] then [Finset.range aggregate.groups.length]
  else aggregate.groupingSets

/-- The key of a row under a grouping set: the keys that the set omits are NULL. -/
def groupKey (groups : List (Expression V T)) (set : Finset ℕ) (row : Row V) : Row V :=
  groups.zipIdx.map fun group => if group.2 ∈ set then group.1.eval row else none

/-- The rows of one grouping set: one for each key. The empty set has a row also when there is no
    input. -/
def GroupRows [DecidableEq V] (aggregate : Aggregate V T) (rows : List (Row V)) (set : Finset ℕ)
    (out : List (Row V)) : Prop :=
  ∃ keys : List (Row V), keys.Nodup ∧
    (∀ key, key ∈ keys ↔ key ∈ rows.map (groupKey aggregate.groups set) ∨
      (set = ∅ ∧ rows = [] ∧ key = List.replicate aggregate.groups.length none)) ∧
    out = keys.map fun key => key ++ aggregate.values.map fun value =>
      value (rows.filter fun row => groupKey aggregate.groups set row = key)

/-! ## Plans -/

/-- The operators, by `LogicalOperatorType`. -/
inductive Operator (V T : Type) where
  | get (get : Get T)
  | projection (expressions : List (Expression V T))
  | filter (keep : Row V → Bool) (projectionMap : List ℕ)
  | orderBy (le : Row V → Row V → Prop) (projectionMap : List ℕ)
  /-- the offset and the count, which a percentage derives from the number of rows -/
  | limit (bounds : ℕ → ℕ × ℕ)
  | topN (le : Row V → Row V → Prop) (offset count : ℕ)
  | distinct (targets : Row V → Row V)
  | aggregate (aggregate : Aggregate V T)
  | join (join : Join V T)
  | crossProduct
  | other

/-- `LogicalOperator`, with the resolved types of its output. -/
inductive Plan (V T : Type) where
  | node (op : Operator V T) (types : List T) (children : List (Plan V T))

/-- The types of the output. -/
def Plan.types : Plan V T → List T
  | .node _ types _ => types

/-- The rows that a plan may produce. The rows of a scan that is fed by a child, and those of an
    operator that the planner does not look through, are left open. -/
inductive Eval [LinearOrder V] (db : Database V T) : Plan V T → List (Row V) → Prop
  | scan {get : Get T} {types : List T}
      (hwidth : ∀ row ∈ db.scanRows get, row.length = types.length) :
      Eval db (.node (.get get) types []) (db.scanRows get)
  | fed {get : Get T} {types : List T} {child : Plan V T} {children : List (Plan V T)}
      {rows : List (Row V)} (hwidth : ∀ row ∈ rows, row.length = types.length) :
      Eval db (.node (.get get) types (child :: children)) rows
  | projection {expressions : List (Expression V T)} {types : List T} {child : Plan V T}
      {rows : List (Row V)} (h : Eval db child rows) :
      Eval db (.node (.projection expressions) types [child])
        (rows.map fun row => expressions.map fun expression => expression.eval row)
  | filter {keep : Row V → Bool} {map : List ℕ} {types : List T} {child : Plan V T}
      {rows : List (Row V)} (h : Eval db child rows) :
      Eval db (.node (.filter keep map) types [child]) ((rows.filter keep).map (projectRow map))
  | orderBy {le : Row V → Row V → Prop} {map : List ℕ} {types : List T} {child : Plan V T}
      {rows sorted : List (Row V)} (h : Eval db child rows) (hperm : sorted.Perm rows)
      (hsorted : sorted.Pairwise le) :
      Eval db (.node (.orderBy le map) types [child]) (sorted.map (projectRow map))
  | limit {bounds : ℕ → ℕ × ℕ} {types : List T} {child : Plan V T} {rows : List (Row V)}
      (h : Eval db child rows) :
      Eval db (.node (.limit bounds) types [child])
        ((rows.drop (bounds rows.length).1).take (bounds rows.length).2)
  | topN {le : Row V → Row V → Prop} {offset count : ℕ} {types : List T} {child : Plan V T}
      {rows sorted : List (Row V)} (h : Eval db child rows) (hperm : sorted.Perm rows)
      (hsorted : sorted.Pairwise le) :
      Eval db (.node (.topN le offset count) types [child]) ((sorted.drop offset).take count)
  | distinct {targets : Row V → Row V} {types : List T} {child : Plan V T}
      {rows kept : List (Row V)} (h : Eval db child rows) (hkept : kept.Subperm rows)
      (hnodup : (kept.map targets).Nodup) (hall : ∀ row ∈ rows, targets row ∈ kept.map targets) :
      Eval db (.node (.distinct targets) types [child]) kept
  | aggregate {aggregate : Aggregate V T} {types : List T} {child : Plan V T}
      {rows out : List (Row V)} {groups : List (List (Row V))} (h : Eval db child rows)
      (hgroups : List.Forall₂ (GroupRows aggregate rows) aggregate.sets groups)
      (hout : out.Perm groups.flatten) :
      Eval db (.node (.aggregate aggregate) types [child]) out
  | join {join : Join V T} {types : List T} {left right : Plan V T} {lrows rrows : List (Row V)}
      {m : ℕ → ℕ → Bool} {joined out : List (Row V)} (hl : Eval db left lrows)
      (hr : Eval db right rrows) (hmatch : Matching join lrows rrows m)
      (hjoin : JoinRows lrows rrows m join.leftProjectionMap join.rightProjectionMap
        left.types.length right.types.length join.joinType joined) (hout : out.Perm joined) :
      Eval db (.node (.join join) types [left, right]) out
  | crossProduct {types : List T} {left right : Plan V T} {lrows rrows out : List (Row V)}
      (hl : Eval db left lrows) (hr : Eval db right rrows)
      (hout : out.Perm (lrows.flatMap fun l => rrows.map fun r => l ++ r)) :
      Eval db (.node .crossProduct types [left, right]) out
  | other {types : List T} {children : List (Plan V T)} {rows : List (Row V)}
      (hwidth : ∀ row ∈ rows, row.length = types.length) :
      Eval db (.node .other types children) rows

/-! ## Widths -/

/-- The number of types that `ResolveTypes` gives to an operator, from those of its children. -/
def HasWidth (op : Operator V T) (widths : List ℕ) (width : ℕ) : Prop :=
  match op with
  | .projection expressions => width = expressions.length
  | .filter _ map => width = blockWidth map (widths.getD 0 0)
  | .orderBy _ map => width = blockWidth map (widths.getD 0 0)
  | .limit _ => width = widths.getD 0 0
  | .topN _ _ _ => width = widths.getD 0 0
  | .distinct _ => width = widths.getD 0 0
  | .aggregate aggregate => width = aggregate.groups.length + aggregate.values.length
  | .join join =>
    let left := blockWidth join.leftProjectionMap (widths.getD 0 0)
    let right := blockWidth join.rightProjectionMap (widths.getD 1 0)
    match join.joinType with
    | .semi => width = left
    | .anti => width = left
    | .mark => width = left + 1
    | .rightSemi => width = right
    | .rightAnti => width = right
    | _ => width = left + right
  | .crossProduct => width = widths.getD 0 0 + widths.getD 1 0
  | .get _ => True
  | .other => True

/-- The types of every operator have been resolved. -/
inductive Resolved : Plan V T → Prop
  | node {op : Operator V T} {types : List T} {children : List (Plan V T)}
      (hchildren : ∀ child ∈ children, Resolved child)
      (hwidth : HasWidth op (children.map fun child => child.types.length) types.length) :
      Resolved (.node op types children)

theorem length_projectRow (map : List ℕ) (row : Row V) :
    (projectRow map row).length = blockWidth map row.length := by
  unfold projectRow blockWidth
  split_ifs
  · rfl
  · exact List.length_map _

theorem length_padRow (map : List ℕ) {width : ℕ} {row : Option (Row V)}
    (h : ∀ r, row = some r → r.length = width) :
    (padRow map width row).length = blockWidth map width := by
  cases row with
  | none => exact List.length_replicate
  | some r => rw [padRow, length_projectRow, h r rfl]

section Pairs

variable {lrows rrows : List (Row V)} {m : ℕ → ℕ → Bool}

theorem mem_rowsWhere {rows : List (Row V)} {p : ℕ → Bool} {row : Row V}
    (h : row ∈ rowsWhere rows p) : row ∈ rows := by
  obtain ⟨x, hx, rfl⟩ := List.mem_map.mp h
  exact List.fst_mem_of_mem_zipIdx (List.mem_of_mem_filter hx)

theorem rowsWhere_sublist (rows : List (Row V)) (p : ℕ → Bool) : (rowsWhere rows p).Sublist rows := by
  have hsub := (List.filter_sublist (l := rows.zipIdx) (p := fun row => p row.2)).map Prod.fst
  rwa [List.zipIdx_map_fst] at hsub

/-- The sides of a pair are rows of the two inputs. -/
theorem mem_of_joinPairs {type : JoinType} {pairs : List (Option (Row V) × Option (Row V))}
    (h : JoinPairs lrows rrows m type pairs) {p : Option (Row V) × Option (Row V)} (hp : p ∈ pairs) :
    (∀ l, p.1 = some l → l ∈ lrows) ∧ ∀ r, p.2 = some r → r ∈ rrows := by
  have hmatched : p ∈ matchedPairs lrows rrows m →
      (∀ l, p.1 = some l → l ∈ lrows) ∧ ∀ r, p.2 = some r → r ∈ rrows := by
    intro hp
    obtain ⟨l, hl, hp⟩ := List.mem_flatMap.mp hp
    obtain ⟨r, hr, rfl⟩ := List.mem_map.mp hp
    simp only [Option.some.injEq, forall_eq']
    exact ⟨List.fst_mem_of_mem_zipIdx hl, mem_rowsWhere hr⟩
  have hleft : p ∈ leftPadded lrows rrows m →
      (∀ l, p.1 = some l → l ∈ lrows) ∧ ∀ r, p.2 = some r → r ∈ rrows := by
    intro hp
    obtain ⟨l, hl, rfl⟩ := List.mem_map.mp hp
    simpa using mem_rowsWhere hl
  have hright : p ∈ rightPadded lrows rrows m →
      (∀ l, p.1 = some l → l ∈ lrows) ∧ ∀ r, p.2 = some r → r ∈ rrows := by
    intro hp
    obtain ⟨r, hr, rfl⟩ := List.mem_map.mp hp
    simpa using mem_rowsWhere hr
  cases h with
  | inner => exact hmatched hp
  | left => exact (List.mem_append.mp hp).elim hmatched hleft
  | right => exact (List.mem_append.mp hp).elim hmatched hright
  | outer =>
    rcases List.mem_append.mp hp with hp | hp
    · exact (List.mem_append.mp hp).elim hmatched hleft
    · exact hright hp
  | single pick hsome _ =>
    obtain ⟨l, hl, rfl⟩ := List.mem_map.mp hp
    refine ⟨fun l' hl' => ?_, fun r hr => ?_⟩
    · obtain rfl := Option.some.inj hl'
      exact List.fst_mem_of_mem_zipIdx hl
    · obtain ⟨b, hb, -⟩ := hsome l.2 r hr
      exact List.mem_of_getElem? hb

end Pairs

/-! ## The rows of a resolved plan -/

theorem joinRows_width {lrows rrows : List (Row V)} {m : ℕ → ℕ → Bool} {join : Join V T}
    {lw rw width : ℕ} {out : List (Row V)} (hl : ∀ row ∈ lrows, row.length = lw)
    (hr : ∀ row ∈ rrows, row.length = rw) (hwidth : HasWidth (.join join) [lw, rw] width)
    (h : JoinRows lrows rrows m join.leftProjectionMap join.rightProjectionMap lw rw join.joinType
      out) : ∀ row ∈ out, row.length = width := by
  intro row hrow
  have hside : ∀ {rows : List (Row V)} {w : ℕ} (map : List ℕ) (p : ℕ → Bool),
      (∀ row ∈ rows, row.length = w) → row ∈ (rowsWhere rows p).map (projectRow map) →
      row.length = blockWidth map w := by
    intro rows w map p hrows hmem
    obtain ⟨r, hr, rfl⟩ := List.mem_map.mp hmem
    rw [length_projectRow, hrows r (mem_rowsWhere hr)]
  generalize htype : join.joinType = type at h
  simp only [HasWidth, htype, List.getD_cons_zero, List.getD_cons_succ] at hwidth
  cases h with
  | pairs hpairs =>
    obtain ⟨p, hp, rfl⟩ := List.mem_map.mp hrow
    obtain ⟨hpl, hpr⟩ := mem_of_joinPairs hpairs hp
    rw [List.length_append, length_padRow _ fun r h => hl r (hpl r h),
      length_padRow _ fun r h => hr r (hpr r h)]
    cases hpairs <;> exact hwidth.symm
  | semi => rw [hwidth, hside _ _ hl hrow]
  | anti => rw [hwidth, hside _ _ hl hrow]
  | mark marks =>
    obtain ⟨l, hmem, rfl⟩ := List.mem_map.mp hrow
    rw [hwidth, List.length_append, length_projectRow, hl l.1 (List.fst_mem_of_mem_zipIdx hmem)]
    rfl
  | rightSemi => rw [hwidth, hside _ _ hr hrow]
  | rightAnti => rw [hwidth, hside _ _ hr hrow]

theorem groupRows_width [DecidableEq V] {aggregate : Aggregate V T} {rows out : List (Row V)}
    {set : Finset ℕ} (h : GroupRows aggregate rows set out) :
    ∀ row ∈ out, row.length = aggregate.groups.length + aggregate.values.length := by
  obtain ⟨keys, -, hkeys, rfl⟩ := h
  intro row hrow
  obtain ⟨key, hkey, rfl⟩ := List.mem_map.mp hrow
  have hlength : key.length = aggregate.groups.length := by
    rcases (hkeys key).mp hkey with hmem | ⟨-, -, rfl⟩
    · obtain ⟨r, -, rfl⟩ := List.mem_map.mp hmem
      rw [groupKey, List.length_map, List.length_zipIdx]
    · exact List.length_replicate
  rw [List.length_append, hlength, List.length_map]

/-- **The rows of a resolved plan are as wide as its types.** -/
theorem Eval.width [LinearOrder V] {db : Database V T} {plan : Plan V T} {rows : List (Row V)}
    (h : Eval db plan rows) (hplan : Resolved plan) :
    ∀ row ∈ rows, row.length = plan.types.length := by
  induction h with
  | scan hwidth => exact hwidth
  | fed hwidth => exact hwidth
  | other hwidth => exact hwidth
  | projection _ _ =>
    cases hplan with
    | node _ hwidth =>
      intro row hrow
      obtain ⟨r, -, rfl⟩ := List.mem_map.mp hrow
      rw [List.length_map]
      exact hwidth.symm
  | @filter _ _ _ child _ _ ih =>
    cases hplan with
    | node hchildren hwidth =>
      intro row hrow
      obtain ⟨r, hr, rfl⟩ := List.mem_map.mp hrow
      rw [length_projectRow, ih (hchildren child (by simp)) r (List.mem_of_mem_filter hr)]
      exact hwidth.symm
  | @orderBy _ _ _ child _ _ _ hperm _ ih =>
    cases hplan with
    | node hchildren hwidth =>
      intro row hrow
      obtain ⟨r, hr, rfl⟩ := List.mem_map.mp hrow
      rw [length_projectRow, ih (hchildren child (by simp)) r (hperm.mem_iff.mp hr)]
      exact hwidth.symm
  | @limit _ _ child _ _ ih =>
    cases hplan with
    | node hchildren hwidth =>
      intro row hrow
      rw [ih (hchildren child (by simp)) row (List.mem_of_mem_drop (List.mem_of_mem_take hrow))]
      exact hwidth.symm
  | @topN _ _ _ _ child _ _ _ hperm _ ih =>
    cases hplan with
    | node hchildren hwidth =>
      intro row hrow
      have hmem := hperm.mem_iff.mp (List.mem_of_mem_drop (List.mem_of_mem_take hrow))
      rw [ih (hchildren child (by simp)) row hmem]
      exact hwidth.symm
  | @distinct _ _ child _ _ _ hkept _ _ ih =>
    cases hplan with
    | node hchildren hwidth =>
      intro row hrow
      rw [ih (hchildren child (by simp)) row (hkept.subset hrow)]
      exact hwidth.symm
  | aggregate _ hgroups hout _ =>
    cases hplan with
    | node hchildren hwidth =>
      intro row hrow
      obtain ⟨out, hmem, hrow⟩ := List.mem_flatten.mp (hout.mem_iff.mp hrow)
      obtain ⟨i, hi, rfl⟩ := List.getElem_of_mem hmem
      have hgroup := hgroups.get (by rw [hgroups.length_eq]; exact hi) hi
      rw [groupRows_width hgroup row hrow]
      exact hwidth.symm
  | @join _ _ left right _ _ _ _ _ _ _ _ hjoin hout ihl ihr =>
    cases hplan with
    | node hchildren hwidth =>
      intro row hrow
      exact joinRows_width (ihl (hchildren left (by simp))) (ihr (hchildren right (by simp))) hwidth
        hjoin row (hout.mem_iff.mp hrow)
  | @crossProduct _ left right _ _ _ _ _ hout ihl ihr =>
    cases hplan with
    | node hchildren hwidth =>
      intro row hrow
      obtain ⟨l, hl, hrow⟩ := List.mem_flatMap.mp (hout.mem_iff.mp hrow)
      obtain ⟨r, hr, rfl⟩ := List.mem_map.mp hrow
      rw [List.length_append, ihl (hchildren left (by simp)) l hl,
        ihr (hchildren right (by simp)) r hr]
      exact hwidth.symm

end Sirius.Planner.LogicalPlan
