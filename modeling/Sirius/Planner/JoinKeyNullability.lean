import Sirius.Planner.LogicalPlan

/-!
# Null-safe join keys

Model of `normalize_non_null_join_keys` (src/planner/join_key_nullability.cpp:37-170), which replaces
`IS NOT DISTINCT FROM` by `=` in a comparison join when a NOT NULL constraint of a native table shows
that one side of each such condition is never NULL.

* `nonNullKey`: the proof that a key is not NULL, traced to a scan.
* `normalizeNonNullJoinKeys`: the rewriting.
* `ne_none_of_nonNullKey`: a key that is accepted is not NULL in any row.
* `join_keys_normalized`: the rewriting keeps the result of the join.
-/

namespace Sirius.Planner.LogicalPlan

variable {V T : Type} [DecidableEq T]

/-! ## The certificate -/

/-- `non_null_key::from_scan`. -/
def nonNullKeyFromScan (get : Get T) (children : List (Plan V T)) (ordinal : ℕ) (type : T) : Bool :=
  if children ≠ [] ∨ get.projectedInput ≠ [] ∨ get.hasPushedProjection ∨
      get.functionName ≠ "seq_scan" ∨ !get.hasBindData then false
  else
    match get.columnAt ordinal, get.table with
    -- not the row id, not a virtual column and not a part of a nested one
    | some ⟨some index, false, false, false⟩, some table =>
      if !table.isDuckTable then false
      else
        match table.columns[index]? with
        | none => false
        | some definition =>
          if definition.generated ∨ definition.type ≠ type then false
          else table.constraints.any fun constraint => constraint == .notNull index
    | _, _ => false

/-- A projection map, which is only read when it is not empty. -/
def mappedOrdinal (map : List ℕ) (ordinal : ℕ) : Option ℕ :=
  if map = [] then some ordinal else map[ordinal]?

/-- The input column that an operator with one child forwards. -/
def forwardedOrdinal (op : Operator V T) (ordinal : ℕ) (type : T) : Option ℕ :=
  match op with
  | .projection expressions =>
    match expressions[ordinal]? with
    | some (.boundRef index type') => if type' = type then some index else none
    | _ => none
  | .filter _ map => mappedOrdinal map ordinal
  | .orderBy _ map => mappedOrdinal map ordinal
  | .limit _ => some ordinal
  | .topN _ _ _ => some ordinal
  | .distinct _ => some ordinal
  | _ => none

/-- The loop of `non_null_key::parse`. -/
def nonNullColumn : Plan V T → ℕ → T → Bool
  | .node (.get get) types children, ordinal, type =>
    if types[ordinal]? ≠ some type then false else nonNullKeyFromScan get children ordinal type
  | .node op types [child], ordinal, type =>
    if types[ordinal]? ≠ some type then false
    else
      match forwardedOrdinal op ordinal type with
      | none => false
      | some index => nonNullColumn child index type
  | .node _ _ _, _, _ => false

/-- `non_null_key::parse`. -/
def nonNullKey (subtree : Plan V T) : Expression V T → Bool
  | .boundRef index type => nonNullColumn subtree index type
  | .other _ _ => false

/-! ## The rewriting -/

/-- The loop body over the conditions, which gives up at the first null-safe comparison that is not
    proven. -/
def collectKey (left right : Plan V T) (keys : List ℕ) (condition : JoinCondition V T × ℕ) :
    Option (List ℕ) :=
  match condition.1 with
  | .comparison .notDistinctFrom lhs rhs =>
    if !nonNullKey left lhs && !nonNullKey right rhs then none else some (keys ++ [condition.2])
  | _ => some keys

/-- The keys of all conditions, if each of them can be normalized. -/
def normalizedKeys (left right : Plan V T) (conditions : List (JoinCondition V T)) :
    Option (List ℕ) :=
  conditions.zipIdx.foldlM (collectKey left right) []

/-- The replacement of a condition. -/
def toEquality : JoinCondition V T → JoinCondition V T
  | .comparison _ lhs rhs => .comparison .equal lhs rhs
  | .expression predicate => .expression predicate

/-- `normalize_non_null_join_keys`: the join afterwards, and the number of normalized conditions. -/
def normalizeNonNullJoinKeys (join : Join V T) (children : List (Plan V T)) : Join V T × ℕ :=
  if join.kind ≠ .comparison ∨ join.joinType = .mark then (join, 0)
  else
    match children with
    | [left, right] =>
      match normalizedKeys left right join.conditions with
      | none => (join, 0)
      | some keys =>
        let replaced := keys.foldl (fun conditions index => conditions.modify index toEquality)
          join.conditions
        ({ join with conditions := replaced }, keys.length)
    | _ => (join, 0)

/-! ## A key that is accepted is not NULL -/

/-- The rows of the tables meet the NOT NULL constraints. -/
def NotNull (db : Database V T) : Prop :=
  ∀ table : TableEntry T, ∀ index, Constraint.notNull index ∈ table.constraints →
    ∀ row ∈ db.tableRows table, column index row ≠ none

section Certificate

variable {db : Database V T} {ordinal : ℕ} {type : T}

theorem ne_none_of_fromScan {get : Get T} {children : List (Plan V T)} (hdb : NotNull db)
    (h : nonNullKeyFromScan get children ordinal type) :
    children = [] ∧ ∀ row ∈ db.scanRows get, column ordinal row ≠ none := by
  unfold nonNullKeyFromScan at h
  split_ifs at h with hscan
  simp only [not_or, not_not, Bool.not_eq_true, Bool.not_eq_false'] at hscan
  obtain ⟨hchildren, -, hpushed, hname, -⟩ := hscan
  refine ⟨hchildren, ?_⟩
  split at h
  · rename_i index table hcolumn htable
    split_ifs at h with hduck
    split at h
    · cases h
    · rename_i definition hdefinition
      split_ifs at h with hplain
      rw [List.any_eq_true] at h
      obtain ⟨constraint, hmem, heq⟩ := h
      rw [beq_iff_eq] at heq
      subst heq
      intro row hrow
      obtain ⟨source, hsource, hreads⟩ := db.reads get table htable (by simpa using hduck) hname
        hpushed row hrow
      rw [hreads ordinal index hcolumn]
      exact hdb table index hmem source hsource
  · cases h

omit [DecidableEq T] in
/-- A projection map keeps the values. -/
theorem column_mappedOrdinal {map : List ℕ} {index : ℕ} (h : mappedOrdinal map ordinal = some index)
    (row : Row V) : column ordinal (projectRow map row) = column index row := by
  unfold mappedOrdinal at h
  unfold projectRow
  split_ifs at h ⊢
  · rw [Option.some.inj h]
  · rw [column, List.getD_eq_getElem?_getD, List.getElem?_map, h]
    rfl

/-- One round of the loop. -/
theorem forwarded_of_nonNullColumn {op : Operator V T} {types : List T} {child : Plan V T}
    (hop : ∀ get, op ≠ .get get) (h : nonNullColumn (.node op types [child]) ordinal type) :
    ∃ index, forwardedOrdinal op ordinal type = some index ∧ nonNullColumn child index type := by
  rw [nonNullColumn.eq_2 _ _ _ _ _ hop] at h
  split_ifs at h
  split at h
  · cases h
  · rename_i index hindex
    exact ⟨index, hindex, h⟩

/-- Rows that an operator passes on, each with the value of the child's row. -/
theorem ne_none_of_forwarded {op : Operator V T} {types : List T} {child : Plan V T}
    {rows out : List (Row V)} (hop : ∀ get, op ≠ .get get)
    (hchild : ∀ index, nonNullColumn child index type → ∀ row ∈ rows, column index row ≠ none)
    (hout : ∀ index, forwardedOrdinal op ordinal type = some index →
      ∀ row ∈ out, ∃ source ∈ rows, column ordinal row = column index source)
    (h : nonNullColumn (.node op types [child]) ordinal type) :
    ∀ row ∈ out, column ordinal row ≠ none := by
  obtain ⟨index, hindex, hrest⟩ := forwarded_of_nonNullColumn hop h
  intro row hrow
  obtain ⟨source, hsource, heq⟩ := hout index hindex row hrow
  rw [heq]
  exact hchild index hrest source hsource

/-- **A column that is accepted is not NULL** in any row of the plan. -/
theorem ne_none_of_nonNullColumn [LinearOrder V] {plan : Plan V T} {rows : List (Row V)}
    (hdb : NotNull db) (hrows : Eval db plan rows) (h : nonNullColumn plan ordinal type) :
    ∀ row ∈ rows, column ordinal row ≠ none := by
  induction hrows generalizing ordinal with
  | scan hwidth =>
    simp only [nonNullColumn] at h
    split_ifs at h
    exact (ne_none_of_fromScan hdb h).2
  | fed hwidth =>
    simp only [nonNullColumn] at h
    split_ifs at h
    cases (ne_none_of_fromScan hdb h).1
  | projection _ ih =>
    refine ne_none_of_forwarded (by simp) (fun index => ih) (fun index hindex row hrow => ?_) h
    obtain ⟨source, hsource, rfl⟩ := List.mem_map.mp hrow
    refine ⟨source, hsource, ?_⟩
    simp only [forwardedOrdinal] at hindex
    split at hindex
    · rename_i index' type' hget
      obtain ⟨-, heq⟩ := Option.ite_none_right_eq_some.mp hindex
      rw [column, List.getD_eq_getElem?_getD, List.getElem?_map, hget, ← Option.some.inj heq]
      rfl
    · cases hindex
  | filter _ ih =>
    refine ne_none_of_forwarded (by simp) (fun index => ih) (fun index hindex row hrow => ?_) h
    obtain ⟨source, hsource, rfl⟩ := List.mem_map.mp hrow
    exact ⟨source, List.mem_of_mem_filter hsource, column_mappedOrdinal hindex source⟩
  | orderBy _ hperm _ ih =>
    refine ne_none_of_forwarded (by simp) (fun index => ih) (fun index hindex row hrow => ?_) h
    obtain ⟨source, hsource, rfl⟩ := List.mem_map.mp hrow
    exact ⟨source, hperm.mem_iff.mp hsource, column_mappedOrdinal hindex source⟩
  | limit _ ih =>
    refine ne_none_of_forwarded (by simp) (fun index => ih) (fun index hindex row hrow => ?_) h
    obtain rfl := Option.some.inj hindex
    exact ⟨row, List.mem_of_mem_drop (List.mem_of_mem_take hrow), rfl⟩
  | topN _ hperm _ ih =>
    refine ne_none_of_forwarded (by simp) (fun index => ih) (fun index hindex row hrow => ?_) h
    obtain rfl := Option.some.inj hindex
    exact ⟨row, hperm.mem_iff.mp (List.mem_of_mem_drop (List.mem_of_mem_take hrow)), rfl⟩
  | distinct _ hkept _ _ ih =>
    refine ne_none_of_forwarded (by simp) (fun index => ih) (fun index hindex row hrow => ?_) h
    obtain rfl := Option.some.inj hindex
    exact ⟨row, hkept.subset hrow, rfl⟩
  | aggregate _ _ _ _ =>
    obtain ⟨index, hindex, -⟩ := forwarded_of_nonNullColumn (by simp) h
    cases hindex
  | join _ _ _ _ _ _ _ => simp [nonNullColumn] at h
  | crossProduct _ _ _ _ _ => simp [nonNullColumn] at h
  | @other _ children _ _ =>
    -- only an operator with one child is stepped through, and this one forwards nothing
    match children, h with
    | [child], h =>
      obtain ⟨index, hindex, -⟩ := forwarded_of_nonNullColumn (by simp) h
      cases hindex
    | [], h => simp [nonNullColumn] at h
    | _ :: _ :: _, h => simp [nonNullColumn] at h

theorem ne_none_of_nonNullKey [LinearOrder V] {plan : Plan V T} {rows : List (Row V)}
    {expression : Expression V T} (hdb : NotNull db) (hrows : Eval db plan rows)
    (h : nonNullKey plan expression) : ∀ row ∈ rows, expression.eval row ≠ none := by
  cases expression with
  | boundRef index type => exact ne_none_of_nonNullColumn hdb hrows h
  | other type value => cases h

end Certificate

/-! ## The rewriting keeps the result -/

section Rewriting

variable {left right : Plan V T} {conditions : List (JoinCondition V T)} {keys : List ℕ}

/-- What becomes of a condition. -/
def normalizeCondition : JoinCondition V T → JoinCondition V T
  | .comparison .notDistinctFrom lhs rhs => .comparison .equal lhs rhs
  | condition => condition

/-- A null-safe comparison with a side that is proven not to be NULL; any other condition. -/
def Proven (left right : Plan V T) : JoinCondition V T → Prop
  | .comparison .notDistinctFrom lhs rhs => nonNullKey left lhs ∨ nonNullKey right rhs
  | _ => True

theorem collectKey_eq_some {condition : JoinCondition V T} {index : ℕ} {next : List ℕ}
    (h : collectKey left right keys (condition, index) = some next) :
    Proven left right condition ∧ ∀ i, i ∈ next ↔ i ∈ keys ∨
      (i = index ∧ ∃ lhs rhs, condition = .comparison .notDistinctFrom lhs rhs) := by
  unfold collectKey at h
  split at h
  · rename_i lhs rhs hcondition
    obtain rfl : condition = .comparison .notDistinctFrom lhs rhs := hcondition
    obtain ⟨hside, heq⟩ := Option.ite_none_left_eq_some.mp h
    obtain rfl := Option.some.inj heq
    constructor
    · show nonNullKey left lhs ∨ nonNullKey right rhs
      by_contra hneither
      rw [not_or, Bool.not_eq_true, Bool.not_eq_true] at hneither
      simp [hneither] at hside
    · intro i
      simp
  · rename_i hother
    obtain rfl := Option.some.inj h
    refine ⟨?_, fun i => ⟨.inl, fun hi => hi.resolve_right ?_⟩⟩
    · unfold Proven
      split
      · exact absurd rfl (hother _ _)
      · trivial
    · rintro ⟨-, lhs, rhs, heq⟩
      exact hother lhs rhs heq

theorem collectKeys_eq_some {start : ℕ} {acc : List ℕ}
    (h : (conditions.zipIdx start).foldlM (collectKey left right) acc = some keys) :
    (∀ condition ∈ conditions, Proven left right condition) ∧
      ∀ i, i ∈ keys ↔ i ∈ acc ∨ ∃ j lhs rhs, i = start + j ∧
        conditions[j]? = some (.comparison .notDistinctFrom lhs rhs) := by
  induction conditions generalizing start acc with
  | nil =>
    obtain rfl := Option.some.inj h
    simp
  | cons condition conditions ih =>
    rw [List.zipIdx_cons, List.foldlM_cons] at h
    obtain ⟨next, hnext, hrest⟩ := Option.bind_eq_some_iff.mp h
    obtain ⟨hproven, hmem⟩ := ih hrest
    obtain ⟨hfirst, hhead⟩ := collectKey_eq_some hnext
    refine ⟨List.forall_mem_cons.mpr ⟨hfirst, hproven⟩, fun i => ?_⟩
    rw [hmem, hhead, or_assoc]
    refine or_congr_right ⟨?_, ?_⟩
    · rintro (⟨rfl, lhs, rhs, rfl⟩ | ⟨j, lhs, rhs, rfl, hget⟩)
      · exact ⟨0, lhs, rhs, rfl, rfl⟩
      · exact ⟨j + 1, lhs, rhs, by omega, hget⟩
    · rintro ⟨j, lhs, rhs, rfl, hget⟩
      cases j with
      | zero => exact .inl ⟨rfl, lhs, rhs, Option.some.inj hget⟩
      | succ j => exact .inr ⟨j, lhs, rhs, by omega, hget⟩

/-- The keys are the null-safe comparisons, and every one of them is proven. -/
theorem normalizedKeys_eq_some (h : normalizedKeys left right conditions = some keys) :
    (∀ condition ∈ conditions, Proven left right condition) ∧
      ∀ i, i ∈ keys ↔ ∃ lhs rhs, conditions[i]? = some (.comparison .notDistinctFrom lhs rhs) := by
  obtain ⟨hproven, hmem⟩ := collectKeys_eq_some h
  refine ⟨hproven, fun i => ?_⟩
  rw [hmem]
  simp

omit [DecidableEq T] in
/-- Every listed position is replaced, however often it is listed. -/
theorem getElem?_foldl_modify (keys : List ℕ) (conditions : List (JoinCondition V T)) (i : ℕ) :
    (keys.foldl (fun conditions index => conditions.modify index toEquality) conditions)[i]?
      = (conditions[i]?).map fun condition => if i ∈ keys then toEquality condition
        else condition := by
  induction keys generalizing conditions with
  | nil => simp
  | cons key keys ih =>
    rw [List.foldl_cons, ih, List.getElem?_modify]
    cases conditions[i]? with
    | none => rfl
    | some condition =>
      have hidem : toEquality (toEquality condition) = toEquality condition := by
        cases condition <;> rfl
      simp only [Option.map_eq_map, Option.map_some, List.mem_cons]
      by_cases hkey : key = i
      · rw [if_pos hkey, if_pos (Or.inl hkey.symm), hidem, ite_self]
      · rw [if_neg hkey]
        simp only [Ne.symm hkey, false_or]

theorem replaced_eq_map (h : normalizedKeys left right conditions = some keys) :
    keys.foldl (fun conditions index => conditions.modify index toEquality) conditions
      = conditions.map normalizeCondition := by
  apply List.ext_getElem?
  intro i
  rw [getElem?_foldl_modify, List.getElem?_map]
  cases hget : conditions[i]? with
  | none => rfl
  | some condition =>
    rw [Option.map_some, Option.map_some, Option.some.injEq]
    have hkeys := (normalizedKeys_eq_some h).2 i
    simp only [hget, Option.some.injEq] at hkeys
    split_ifs with hmem
    · obtain ⟨lhs, rhs, rfl⟩ := hkeys.mp hmem
      rfl
    · have hother : ∀ lhs rhs, condition ≠ .comparison .notDistinctFrom lhs rhs :=
        fun lhs rhs heq => hmem (hkeys.mpr ⟨lhs, rhs, heq⟩)
      unfold normalizeCondition
      split
      · exact absurd rfl (hother _ _)
      · rfl

/-- **The two outcomes of the rewriting.** -/
theorem normalize_cases (join : Join V T) (left right : Plan V T) :
    normalizeNonNullJoinKeys join [left, right] = (join, 0) ∨
      ((∀ condition ∈ join.conditions, Proven left right condition) ∧
        (normalizeNonNullJoinKeys join [left, right]).1
          = { join with conditions := join.conditions.map normalizeCondition }) := by
  unfold normalizeNonNullJoinKeys
  split_ifs
  · exact .inl rfl
  · cases hkeys : normalizedKeys left right join.conditions with
    | none =>
      left
      simp only [hkeys]
    | some keys =>
      refine .inr ⟨(normalizedKeys_eq_some hkeys).1, ?_⟩
      simp only [hkeys, ← replaced_eq_map hkeys]

end Rewriting

/-! ## Rows match as before -/

section Matches

variable [LinearOrder V] {db : Database V T} {left right : Plan V T} {lrows rrows : List (Row V)}

omit [DecidableEq T] in
/-- `=` is true where `IS NOT DISTINCT FROM` is, when a side is not NULL. -/
theorem compareValues_equal_iff {a b : Option V} (h : a ≠ none ∨ b ≠ none) :
    compareValues .equal a b = some true ↔ compareValues .notDistinctFrom a b = some true := by
  cases a with
  | none =>
    cases b with
    | none => simp at h
    | some y => simp [compareValues]
  | some x =>
    cases b with
    | none => simp [compareValues]
    | some y => simp [compareValues]

/-- **The same pairs match.** -/
theorem eval_normalizeCondition (hdb : NotNull db) (hl : Eval db left lrows)
    (hr : Eval db right rrows) {condition : JoinCondition V T} (h : Proven left right condition)
    {l r : Row V} (hlmem : l ∈ lrows) (hrmem : r ∈ rrows) :
    (normalizeCondition condition).eval l r = some true ↔ condition.eval l r = some true := by
  unfold normalizeCondition
  split
  · rename_i lhs rhs
    apply compareValues_equal_iff
    rcases h with h | h
    · exact .inl (ne_none_of_nonNullKey hdb hl h l hlmem)
    · exact .inr (ne_none_of_nonNullKey hdb hr h r hrmem)
  · rfl

theorem matchesAll_normalize (hdb : NotNull db) (hl : Eval db left lrows) (hr : Eval db right rrows)
    (join : Join V T) {l r : Row V} (hlmem : l ∈ lrows) (hrmem : r ∈ rrows) :
    matchesAll (normalizeNonNullJoinKeys join [left, right]).1.conditions l r
      = matchesAll join.conditions l r := by
  rcases normalize_cases join left right with heq | ⟨hproven, heq⟩
  · rw [heq]
  · rw [heq]
    show (join.conditions.map normalizeCondition).all _ = join.conditions.all _
    rw [List.all_map]
    rw [Bool.eq_iff_iff, List.all_eq_true, List.all_eq_true]
    refine forall₂_congr fun condition hcondition => ?_
    rw [Function.comp_apply, beq_iff_eq, beq_iff_eq]
    exact eval_normalizeCondition hdb hl hr (hproven condition hcondition) hlmem hrmem

omit [LinearOrder V] in
/-- The rewriting changes nothing but the conditions. -/
theorem normalize_fields (join : Join V T) (left right : Plan V T) :
    ∃ conditions, (normalizeNonNullJoinKeys join [left, right]).1
      = { join with conditions := conditions } := by
  rcases normalize_cases join left right with heq | ⟨-, heq⟩
  · exact ⟨join.conditions, by rw [heq]⟩
  · exact ⟨_, heq⟩

/-- The rows match as before, so that the same matchings are possible. -/
theorem matching_normalize_iff (hdb : NotNull db) (hl : Eval db left lrows)
    (hr : Eval db right rrows) (join : Join V T) (m : ℕ → ℕ → Bool) :
    Matching (normalizeNonNullJoinKeys join [left, right]).1 lrows rrows m
      ↔ Matching join lrows rrows m := by
  have hsame : ∀ a b l r, lrows[a]? = some l → rrows[b]? = some r →
      matchesAll (normalizeNonNullJoinKeys join [left, right]).1.conditions l r
        = matchesAll join.conditions l r :=
    fun a b l r hget hget' => matchesAll_normalize hdb hl hr join (List.mem_of_getElem? hget)
      (List.mem_of_getElem? hget')
  obtain ⟨conditions, heq⟩ := normalize_fields join left right
  rw [heq] at hsame ⊢
  have hpairs : (∀ a b l r, lrows[a]? = some l → rrows[b]? = some r →
      m a b = matchesAll conditions l r) ↔ ∀ a b l r, lrows[a]? = some l → rrows[b]? = some r →
      m a b = matchesAll join.conditions l r := by
    refine forall₄_congr fun a b l r => forall₂_congr fun hget hget' => ?_
    rw [hsame a b l r hget hget']
  have hchosen : (∀ a b l r, lrows[a]? = some l → rrows[b]? = some r → m a b →
      matchesAll conditions l r) ↔ ∀ a b l r, lrows[a]? = some l → rrows[b]? = some r → m a b →
      matchesAll join.conditions l r := by
    refine forall₄_congr fun a b l r => forall₂_congr fun hget hget' => ?_
    rw [hsame a b l r hget hget']
  unfold Matching
  cases join.kind with
  | asof => exact and_congr_left fun _ => hchosen
  | comparison => exact hpairs
  | any => exact hpairs
  | delim => exact hpairs

omit [DecidableEq T] in
/-- The result of a join, by its matchings. -/
theorem eval_join_iff (join : Join V T) (types : List T) (rows : List (Row V)) :
    Eval db (.node (.join join) types [left, right]) rows ↔
      ∃ lrows rrows m joined, Eval db left lrows ∧ Eval db right rrows ∧
        Matching join lrows rrows m ∧
        JoinRows lrows rrows m join.leftProjectionMap join.rightProjectionMap left.types.length
          right.types.length join.joinType joined ∧ rows.Perm joined := by
  constructor
  · intro h
    cases h with
    | join hl hr hmatch hjoin hout => exact ⟨_, _, _, _, hl, hr, hmatch, hjoin, hout⟩
  · rintro ⟨lrows, rrows, m, joined, hl, hr, hmatch, hjoin, hout⟩
    exact .join hl hr hmatch hjoin hout

end Matches

/-- **The rewriting keeps the result.** In a database that meets the NOT NULL constraints, a key that
    is accepted is not NULL in any row of its side, the rewritten conditions match the same pairs of
    rows, and the join has the same results. When a null-safe comparison is not proven, nothing is
    changed. -/
theorem join_keys_normalized [LinearOrder V] {db : Database V T} (hdb : NotNull db) :
    (∀ (subtree : Plan V T) (expression : Expression V T) rows, nonNullKey subtree expression →
      Eval db subtree rows → ∀ row ∈ rows, expression.eval row ≠ none) ∧
    ∀ (join : Join V T) (left right : Plan V T),
      (∀ lrows rrows, Eval db left lrows → Eval db right rrows → ∀ l ∈ lrows, ∀ r ∈ rrows,
        matchesAll (normalizeNonNullJoinKeys join [left, right]).1.conditions l r
          = matchesAll join.conditions l r) ∧
      (∀ types rows,
        Eval db (.node (.join (normalizeNonNullJoinKeys join [left, right]).1) types [left, right])
            rows ↔ Eval db (.node (.join join) types [left, right]) rows) ∧
      (normalizeNonNullJoinKeys join [left, right] = (join, 0) ∨
        (normalizeNonNullJoinKeys join [left, right]).1
          = { join with conditions := join.conditions.map normalizeCondition }) ∧
      ((∃ lhs rhs, JoinCondition.comparison .notDistinctFrom lhs rhs ∈ join.conditions ∧
          nonNullKey left lhs = false ∧ nonNullKey right rhs = false) →
        normalizeNonNullJoinKeys join [left, right] = (join, 0)) := by
  refine ⟨fun subtree expression rows h hrows => ne_none_of_nonNullKey hdb hrows h, ?_⟩
  intro join left right
  refine ⟨fun lrows rrows hl hr l hlmem r hrmem => ?_, fun types rows => ?_, ?_, ?_⟩
  · exact matchesAll_normalize hdb hl hr join hlmem hrmem
  · obtain ⟨conditions, heq⟩ := normalize_fields join left right
    rw [eval_join_iff, eval_join_iff]
    refine exists₄_congr fun lrows rrows m joined => ?_
    refine and_congr_right fun hl => and_congr_right fun hr => ?_
    rw [matching_normalize_iff hdb hl hr, heq]
  · exact (normalize_cases join left right).imp_right And.right
  · rintro ⟨lhs, rhs, hmem, hleft, hright⟩
    refine (normalize_cases join left right).resolve_right fun hcase => ?_
    rcases hcase.1 _ hmem with h | h
    · rw [hleft] at h
      cases h
    · rw [hright] at h
      cases h

/-- A table with a NOT NULL column, and the scans of it. -/
def constrainedTable : TableEntry Unit where
  oid := 0
  isDuckTable := true
  columns := [{ type := () }]
  constraints := [.notNull 0]

def nativeScan (table : Option (TableEntry Unit)) : Get Unit where
  tableIndex := 0
  columnIds := [{ primaryIndex := some 0 }]
  functionName := "seq_scan"
  table := table

def constrainedRows (table : TableEntry Unit) : List (Row ℤ) :=
  if table.constraints = [.notNull 0] then [[some 1], [some 2]] else []

/-- Its table keeps the constraint, its other scans do not. -/
def constrainedData : Database ℤ Unit where
  tableRows := constrainedRows
  scanRows := fun get =>
    match get.table with
    | some table =>
      if get.projectionIds = [] then
        (constrainedRows table).map fun source =>
          get.columnIds.map fun index => index.primaryIndex.bind fun i => column i source
      else []
    | none => [[some 2], [none]]
  reads := by
    intro get table htable _ _ _ row hrow
    simp only [htable] at hrow
    split_ifs at hrow with hids
    · obtain ⟨source, hsource, rfl⟩ := List.mem_map.mp hrow
      refine ⟨source, hsource, fun ordinal index hcolumn => ?_⟩
      rw [Get.columnAt, if_pos hids] at hcolumn
      rw [column, List.getD_eq_getElem?_getD, List.getElem?_map, hcolumn]
      rfl
    · cases hrow

theorem notNull_constrainedData : NotNull constrainedData := by
  intro table index hindex row hrow
  have hrow' : row ∈ constrainedRows table := hrow
  unfold constrainedRows at hrow'
  split_ifs at hrow' with hconstraints
  · rw [hconstraints, List.mem_singleton] at hindex
    obtain rfl := Constraint.notNull.inj hindex
    simp only [List.mem_cons, List.not_mem_nil, or_false] at hrow'
    rcases hrow' with rfl | rfl <;> decide
  · cases hrow'

/-- A null-safe join of the table with rows that may be NULL. -/
def nullSafeJoin : Join ℤ Unit where
  kind := .comparison
  joinType := .left
  conditions := [.comparison .notDistinctFrom (.boundRef 0 ()) (.boundRef 0 ())]

theorem join_keys_normalized_nullSafeJoin :
    normalizeNonNullJoinKeys nullSafeJoin
        [.node (.get (nativeScan (some constrainedTable))) [()] [],
          .node (.get (nativeScan none)) [()] []]
      = ({ nullSafeJoin with
            conditions := [.comparison .equal (.boundRef 0 ()) (.boundRef 0 ())] }, 1) ∧
    ∀ types rows,
      Eval constrainedData (.node (.join (normalizeNonNullJoinKeys nullSafeJoin
        [.node (.get (nativeScan (some constrainedTable))) [()] [],
          .node (.get (nativeScan none)) [()] []]).1) types
        [.node (.get (nativeScan (some constrainedTable))) [()] [],
          .node (.get (nativeScan none)) [()] []]) rows ↔
      Eval constrainedData (.node (.join nullSafeJoin) types
        [.node (.get (nativeScan (some constrainedTable))) [()] [],
          .node (.get (nativeScan none)) [()] []]) rows :=
  ⟨rfl, ((join_keys_normalized notNull_constrainedData).2 _ _ _).2.1⟩

end Sirius.Planner.LogicalPlan
