import Sirius.Planner.LogicalPlan

/-!
# The scan column that an output column carries

Model of `resolve_scan_column_origin` (src/planner/scan_column_origin.cpp:36-171), which follows an
output column of a plan down to the base scan that it comes from.

* `stepOrigin`, `resolveScanColumnOrigin`: one operator, and the loop over the plan.
* `Carries`: what an output column keeps of the column that it comes from.
* `carries_of_stepOrigin`: every operator that the loop steps through keeps it.
* `scan_column_origin_sound`: the whole way down.
-/

namespace Sirius.Planner.LogicalPlan

variable {V T : Type}

/-! ## The resolution -/

/-- `origin_policy`. -/
inductive OriginPolicy where
  | rowSubset
  | valuePreserving
  deriving DecidableEq, Repr

structure OrdinalOrigin where
  childIndex : ℕ
  childOrdinal : ℕ
  deriving DecidableEq, Repr

/-- `mapped_origin`. -/
def mappedOrigin (childIndex : ℕ) (map : List ℕ) (ordinal childWidth : ℕ) : Option OrdinalOrigin :=
  if map = [] then
    if childWidth ≤ ordinal then none else some ⟨childIndex, ordinal⟩
  else (map[ordinal]?).map fun index => ⟨childIndex, index⟩

/-- `join_origin`, with the widths of the children. -/
def joinOrigin (join : Join V T) (widths : List ℕ) (ordinal : ℕ) (policy : OriginPolicy) :
    Option OrdinalOrigin :=
  match widths with
  | [leftWidth, rightWidth] =>
    let leftBlock := blockWidth join.leftProjectionMap leftWidth
    let left := mappedOrigin 0 join.leftProjectionMap ordinal leftWidth
    let right := mappedOrigin 1 join.rightProjectionMap (ordinal - leftBlock) rightWidth
    match join.joinType with
    | .semi => if leftBlock ≤ ordinal then none else left
    | .anti => if leftBlock ≤ ordinal then none else left
    | .mark => if leftBlock ≤ ordinal then none else left
    | .rightSemi => mappedOrigin 1 join.rightProjectionMap ordinal rightWidth
    | .rightAnti => mappedOrigin 1 join.rightProjectionMap ordinal rightWidth
    | .single =>
      if ordinal < leftBlock then left else if policy = .rowSubset then none else right
    | _ =>
      if policy = .rowSubset then none else if ordinal < leftBlock then left else right
  | _ => none

/-- A column that is a bare reference. -/
def referenceOrigin : Option (Expression V T) → Option OrdinalOrigin
  | some (.boundRef index _) => some ⟨0, index⟩
  | _ => none

/-- `step_origin`, with the widths of the children. -/
def stepOrigin (op : Operator V T) (widths : List ℕ) (ordinal : ℕ) (policy : OriginPolicy) :
    Option OrdinalOrigin :=
  match widths with
  | [] => none
  | childWidth :: _ =>
    match op with
    | .projection expressions => referenceOrigin expressions[ordinal]?
    | .filter _ map => mappedOrigin 0 map ordinal childWidth
    | .orderBy _ map => mappedOrigin 0 map ordinal childWidth
    | .limit _ => mappedOrigin 0 [] ordinal childWidth
    | .topN _ _ _ => mappedOrigin 0 [] ordinal childWidth
    | .distinct _ => mappedOrigin 0 [] ordinal childWidth
    | .aggregate aggregate =>
      if policy = .rowSubset ∧ 1 < aggregate.groupingSets.length then none
      else referenceOrigin aggregate.groups[ordinal]?
    | .join join =>
      if join.kind ≠ .comparison ∧ policy = .rowSubset then none
      else joinOrigin join widths ordinal policy
    | .crossProduct =>
      if policy = .rowSubset ∨ widths.length ≠ 2 then none
      else if ordinal < childWidth then some ⟨0, ordinal⟩
      else mappedOrigin 1 [] (ordinal - childWidth) (widths.getD 1 0)
    | _ => none

/-- `scan_column_origin`. -/
structure ScanOrigin (T : Type) where
  get : Get T
  ordinal : ℕ

/-- `admissible_base_scan`. -/
def admissibleBaseScan (get : Get T) (children : List (Plan V T)) (ordinal : ℕ) : Bool :=
  if children ≠ [] ∨ get.projectedInput ≠ [] then false
  else
    let width := if get.projectionIds = [] then get.columnIds.length else get.projectionIds.length
    decide (ordinal < width)

/-- `resolve_scan_column_origin`. -/
def resolveScanColumnOrigin : Plan V T → ℕ → OriginPolicy → Option (ScanOrigin T)
  | .node (.get get) _ children, ordinal, _ =>
    if admissibleBaseScan get children ordinal then some ⟨get, ordinal⟩ else none
  | .node op _ children, ordinal, policy =>
    match stepOrigin op (children.map fun child => child.types.length) ordinal policy with
    | none => none
    | some step =>
      match _hchild : children[step.childIndex]? with
      | none => none
      | some child => resolveScanColumnOrigin child step.childOrdinal policy
termination_by plan => plan
decreasing_by
  have := List.sizeOf_lt_of_mem (List.mem_of_getElem? _hchild)
  simp only [Plan.node.sizeOf_spec]
  omega

/-- An aggregate over one grouping set groups by the key. -/
def GroupsByKey (op : Operator V T) (ordinal : ℕ) : Prop :=
  match op with
  | .aggregate aggregate => ∀ set, aggregate.groupingSets = [set] → ordinal ∈ set
  | _ => True

/-- Every aggregate that the loop steps through groups by the key that it resolves. -/
def KeysGrouped : Plan V T → ℕ → OriginPolicy → Prop
  | .node op _ children, ordinal, policy =>
    match stepOrigin op (children.map fun child => child.types.length) ordinal policy with
    | none => True
    | some step =>
      GroupsByKey op ordinal ∧
      match _hchild : children[step.childIndex]? with
      | none => True
      | some child => KeysGrouped child step.childOrdinal policy
termination_by plan => plan
decreasing_by
  have := List.sizeOf_lt_of_mem (List.mem_of_getElem? _hchild)
  simp only [Plan.node.sizeOf_spec]
  omega

/-! ## What a column keeps -/

/-- **The output column comes from the child's column**: its values are among the child's, and
    where the rows are a subset (`subset`) each is the value of a row of its own. -/
def Carries (subset : Prop) (rows : List (Row V)) (ordinal : ℕ) (source : List (Row V))
    (sourceOrdinal : ℕ) : Prop :=
  (∀ v, some v ∈ rows.map (column ordinal) → some v ∈ source.map (column sourceOrdinal)) ∧
    (subset → (rows.map (column ordinal)).Subperm (source.map (column sourceOrdinal)))

section Carries

variable {subset : Prop} {rows source : List (Row V)} {i j : ℕ}

theorem Carries.of_subperm (h : (rows.map (column i)).Subperm (source.map (column j))) :
    Carries subset rows i source j :=
  ⟨fun _ hv => h.subset hv, fun _ => h⟩

theorem Carries.of_subset (hsubset : ¬subset)
    (h : ∀ row ∈ rows, ∀ v, column i row = some v → ∃ r ∈ source, column j r = some v) :
    Carries subset rows i source j := by
  refine ⟨fun v hv => ?_, fun h => absurd h hsubset⟩
  obtain ⟨row, hrow, heq⟩ := List.mem_map.mp hv
  obtain ⟨r, hr, hcolumn⟩ := h row hrow v heq
  exact List.mem_map.mpr ⟨r, hr, hcolumn⟩

theorem Carries.trans {base : List (Row V)} {k : ℕ} {subset' : Prop}
    (h : Carries subset rows i source j) (h' : Carries subset' source j base k)
    (himp : subset → subset') : Carries subset rows i base k :=
  ⟨fun v hv => h'.1 v (h.1 v hv), fun hs => (h.2 hs).trans (h'.2 (himp hs))⟩

theorem Carries.mono {subset' : Prop} (h : Carries subset' rows i source j)
    (himp : subset → subset') : Carries subset rows i source j :=
  ⟨h.1, fun hs => h.2 (himp hs)⟩

theorem Carries.perm {joined : List (Row V)} (h : Carries subset joined i source j)
    (hperm : rows.Perm joined) : Carries subset rows i source j :=
  (Carries.of_subperm (hperm.map (column i)).subperm).trans h id

variable {map : List ℕ}

/-- A projection map sends an output column to the column that it picks. -/
theorem column_projectRow {child width ordinal : ℕ} {origin : OrdinalOrigin}
    (h : mappedOrigin child map ordinal width = some origin) (row : Row V) :
    column ordinal (projectRow map row) = column origin.childOrdinal row := by
  unfold mappedOrigin at h
  unfold projectRow
  split_ifs at h ⊢ with hmap hwidth
  · obtain rfl := Option.some.inj h
    rfl
  · obtain ⟨index, hindex, rfl⟩ := Option.map_eq_some_iff.mp h
    unfold column
    rw [List.getD_eq_getElem?_getD, List.getElem?_map, hindex]
    rfl

theorem childIndex_mappedOrigin {child width ordinal : ℕ} {origin : OrdinalOrigin}
    (h : mappedOrigin child map ordinal width = some origin) : origin.childIndex = child := by
  unfold mappedOrigin at h
  split_ifs at h
  · obtain rfl := Option.some.inj h
    rfl
  · obtain ⟨index, -, rfl⟩ := Option.map_eq_some_iff.mp h
    rfl

/-- The output position of a map is in its block. -/
theorem lt_of_mappedOrigin {child width ordinal : ℕ} {origin : OrdinalOrigin}
    (h : mappedOrigin child map ordinal width = some origin) : ordinal < blockWidth map width := by
  unfold mappedOrigin at h
  unfold blockWidth
  split_ifs at h ⊢ with hmap hwidth
  · omega
  · obtain ⟨index, hindex, -⟩ := Option.map_eq_some_iff.mp h
    exact (List.getElem?_eq_some_iff.mp hindex).1

theorem subperm_map {α β : Type} (f : α → β) {xs ys : List α} (h : xs.Subperm ys) :
    (xs.map f).Subperm (ys.map f) := by
  obtain ⟨zs, hperm, hsub⟩ := h
  exact ⟨zs.map f, hperm.map f, hsub.map f⟩

theorem projectRow_nil : projectRow (V := V) [] = id := by
  funext row
  exact if_pos rfl

/-- Rows of the child, in some order, through a projection map. -/
theorem carries_projectRow {child width ordinal : ℕ} {origin : OrdinalOrigin}
    (h : mappedOrigin child map ordinal width = some origin) (hsub : rows.Subperm source) :
    Carries subset (rows.map (projectRow map)) ordinal source origin.childOrdinal := by
  apply Carries.of_subperm
  rw [List.map_map]
  have hcolumn : column ordinal ∘ projectRow map = column (V := V) origin.childOrdinal := by
    funext row
    exact column_projectRow h row
  rw [hcolumn]
  exact subperm_map _ hsub

/-- Rows of the child, in some order. -/
theorem carries_passThrough {child width ordinal : ℕ} {origin : OrdinalOrigin}
    (h : mappedOrigin child [] ordinal width = some origin) (hsub : rows.Subperm source) :
    Carries subset rows ordinal source origin.childOrdinal := by
  have hcarries : Carries subset (rows.map (projectRow [])) ordinal source origin.childOrdinal :=
    carries_projectRow h hsub
  rwa [projectRow_nil, List.map_id] at hcarries

/-- A projection computes the referenced column. -/
theorem carries_projection {expressions : List (Expression V T)} {ordinal index : ℕ} {type : T}
    (h : expressions[ordinal]? = some (.boundRef index type)) :
    Carries subset (source.map fun row => expressions.map fun expression => expression.eval row)
      ordinal source index := by
  apply Carries.of_subperm
  rw [List.map_map]
  have hcolumn : (column ordinal ∘ fun row : Row V => expressions.map fun expression =>
      expression.eval row) = column index := by
    funext row
    rw [Function.comp_apply, column, List.getD_eq_getElem?_getD, List.getElem?_map, h]
    rfl
  rw [hcolumn]

end Carries

/-! ## Joins -/

section Joins

variable {policy : OriginPolicy} {subset : Prop} {lrows rrows joined : List (Row V)} {m : ℕ → ℕ → Bool}
  {lw rw ordinal : ℕ} {lmap rmap : List ℕ} {origin : OrdinalOrigin}

theorem column_append_left {i : ℕ} {a : Row V} (b : Row V) (h : i < a.length) :
    column i (a ++ b) = column i a := by
  unfold column
  rw [List.getD_append _ _ _ _ h]

theorem column_append_right {i : ℕ} {a : Row V} (b : Row V) (h : a.length ≤ i) :
    column i (a ++ b) = column (i - a.length) b := by
  unfold column
  rw [List.getD_append_right _ _ _ _ h]

/-- What a padded block holds: the value of the row, or NULL. -/
theorem column_padRow {child width : ℕ} {map : List ℕ} {row : Option (Row V)} {v : V}
    (h : mappedOrigin child map ordinal width = some origin)
    (hv : column ordinal (padRow map width row) = some v) :
    ∃ r, row = some r ∧ column origin.childOrdinal r = some v := by
  cases row with
  | none =>
    unfold column padRow at hv
    rw [List.getD_replicate _ (lt_of_mappedOrigin h)] at hv
    cases hv
  | some r =>
    rw [padRow, column_projectRow h] at hv
    exact ⟨r, rfl, hv⟩

variable {pairs : List (Option (Row V) × Option (Row V))}

/-- The left block of the pairs of a join. -/
theorem left_of_joinPairs {type : JoinType} (hl : ∀ row ∈ lrows, row.length = lw)
    (h : JoinPairs lrows rrows m type pairs)
    (horigin : mappedOrigin 0 lmap ordinal lw = some origin) {p : Option (Row V) × Option (Row V)}
    (hp : p ∈ pairs) :
    column ordinal (padRow lmap lw p.1 ++ padRow rmap rw p.2)
      = column ordinal (padRow lmap lw p.1) := by
  apply column_append_left
  rw [length_padRow lmap fun r hr => hl r ((mem_of_joinPairs h hp).1 r hr)]
  exact lt_of_mappedOrigin horigin

theorem carries_left_of_joinPairs {type : JoinType} (hsubset : ¬subset)
    (hl : ∀ row ∈ lrows, row.length = lw) (h : JoinPairs lrows rrows m type pairs)
    (horigin : mappedOrigin 0 lmap ordinal lw = some origin) :
    Carries subset (pairs.map fun p => padRow lmap lw p.1 ++ padRow rmap rw p.2) ordinal lrows
      origin.childOrdinal := by
  apply Carries.of_subset hsubset
  intro row hrow v hv
  obtain ⟨p, hp, rfl⟩ := List.mem_map.mp hrow
  rw [left_of_joinPairs hl h horigin hp] at hv
  obtain ⟨l, hl', hvalue⟩ := column_padRow horigin hv
  exact ⟨l, (mem_of_joinPairs h hp).1 l hl', hvalue⟩

theorem carries_right_of_joinPairs {type : JoinType} (hsubset : ¬subset)
    (hl : ∀ row ∈ lrows, row.length = lw) (h : JoinPairs lrows rrows m type pairs)
    (hge : blockWidth lmap lw ≤ ordinal)
    (horigin : mappedOrigin 1 rmap (ordinal - blockWidth lmap lw) rw = some origin) :
    Carries subset (pairs.map fun p => padRow lmap lw p.1 ++ padRow rmap rw p.2) ordinal rrows
      origin.childOrdinal := by
  apply Carries.of_subset hsubset
  intro row hrow v hv
  obtain ⟨p, hp, rfl⟩ := List.mem_map.mp hrow
  have hlength := length_padRow lmap fun r hr => hl r ((mem_of_joinPairs h hp).1 r hr)
  rw [column_append_right _ (hlength ▸ hge), hlength] at hv
  obtain ⟨r, hr, hvalue⟩ := column_padRow horigin hv
  exact ⟨r, (mem_of_joinPairs h hp).2 r hr, hvalue⟩

/-- A row of the output for each row of the left side, in the left block. -/
theorem carries_zipIdx {f : Row V × ℕ → Row V} {j : ℕ}
    (h : ∀ l ∈ lrows.zipIdx, column ordinal (f l) = column j l.1) :
    Carries subset (lrows.zipIdx.map f) ordinal lrows j := by
  apply Carries.of_subperm
  have heq : (lrows.zipIdx.map f).map (column ordinal) = lrows.map (column j) := by
    rw [List.map_map]
    calc lrows.zipIdx.map (column ordinal ∘ f) = lrows.zipIdx.map (column j ∘ Prod.fst) :=
          List.map_congr_left h
      _ = lrows.map (column j) := by rw [← List.map_map, List.zipIdx_map_fst]
  rw [heq]

/-- The column of one of the two sides, the one that the origin names. -/
def CarriesSide (subset : Prop) (joined : List (Row V)) (ordinal : ℕ)
    (lrows rrows : List (Row V)) (origin : OrdinalOrigin) : Prop :=
  (origin.childIndex = 0 ∧ Carries subset joined ordinal lrows origin.childOrdinal) ∨
    (origin.childIndex = 1 ∧ Carries subset joined ordinal rrows origin.childOrdinal)

/-- A join that emits both sides keeps the values of both. -/
theorem carriesSide_of_joinPairs {type : JoinType} (hsubset : ¬subset)
    (hl : ∀ row ∈ lrows, row.length = lw) (h : JoinPairs lrows rrows m type pairs)
    (horigin : (if ordinal < blockWidth lmap lw then mappedOrigin 0 lmap ordinal lw
      else mappedOrigin 1 rmap (ordinal - blockWidth lmap lw) rw) = some origin) :
    CarriesSide subset (pairs.map fun p => padRow lmap lw p.1 ++ padRow rmap rw p.2) ordinal lrows
      rrows origin := by
  split_ifs at horigin with hlt
  · exact .inl ⟨childIndex_mappedOrigin horigin, carries_left_of_joinPairs hsubset hl h horigin⟩
  · exact .inr ⟨childIndex_mappedOrigin horigin,
      carries_right_of_joinPairs hsubset hl h (not_lt.mp hlt) horigin⟩

/-- The left side of `SINGLE` has one output row for each of its rows. -/
theorem carries_single {pick : ℕ → Option (Row V)}
    (hl : ∀ row ∈ lrows, row.length = lw)
    (h : JoinPairs lrows rrows m .single (lrows.zipIdx.map fun l => (some l.1, pick l.2)))
    (horigin : mappedOrigin 0 lmap ordinal lw = some origin) :
    Carries subset ((lrows.zipIdx.map fun l => (some l.1, pick l.2)).map fun p =>
      padRow lmap lw p.1 ++ padRow rmap rw p.2) ordinal lrows origin.childOrdinal := by
  rw [List.map_map]
  apply carries_zipIdx
  intro l hmem
  have hpair := List.mem_map_of_mem (f := fun l : Row V × ℕ => (some l.1, pick l.2)) hmem
  show column ordinal (padRow lmap lw (some l.1) ++ padRow rmap rw (pick l.2)) = _
  rw [left_of_joinPairs hl h horigin hpair, padRow, column_projectRow horigin]

/-- **A join keeps the column** of the side that `join_origin` names. -/
theorem carries_joinOrigin {join : Join V T} (hl : ∀ row ∈ lrows, row.length = lw)
    (hjoin : JoinRows lrows rrows m join.leftProjectionMap join.rightProjectionMap lw rw
      join.joinType joined)
    (h : joinOrigin join [lw, rw] ordinal policy = some origin) :
    CarriesSide (policy = .rowSubset) joined ordinal lrows rrows origin := by
  generalize htype : join.joinType = type at hjoin
  simp only [joinOrigin, htype] at h
  have hwhere : ∀ (rows : List (Row V)) (p : ℕ → Bool), (rowsWhere rows p).Subperm rows :=
    fun rows p => (rowsWhere_sublist rows p).subperm
  cases hjoin with
  | semi | anti =>
    obtain ⟨-, h⟩ := Option.ite_none_left_eq_some.mp h
    exact .inl ⟨childIndex_mappedOrigin h, carries_projectRow h (hwhere _ _)⟩
  | rightSemi | rightAnti =>
    exact .inr ⟨childIndex_mappedOrigin h, carries_projectRow h (hwhere _ _)⟩
  | mark marks =>
    obtain ⟨-, h⟩ := Option.ite_none_left_eq_some.mp h
    refine .inl ⟨childIndex_mappedOrigin h, carries_zipIdx fun l hmem => ?_⟩
    rw [column_append_left, column_projectRow h]
    rw [length_projectRow, hl l.1 (List.fst_mem_of_mem_zipIdx hmem)]
    exact lt_of_mappedOrigin h
  | pairs hpairs =>
    cases hpairs with
    | single pick hsome hnone =>
      simp only at h
      by_cases hpolicy : policy = .rowSubset
      · simp only [hpolicy, ite_true, Option.ite_none_right_eq_some] at h
        exact .inl ⟨childIndex_mappedOrigin h.2, carries_single hl (.single pick hsome hnone) h.2⟩
      · rw [if_neg hpolicy] at h
        exact carriesSide_of_joinPairs hpolicy hl (.single pick hsome hnone) h
    | inner | left | right | outer =>
      obtain ⟨hpolicy, h⟩ := Option.ite_none_left_eq_some.mp h
      exact carriesSide_of_joinPairs hpolicy hl (by constructor) h

end Joins

/-! ## Aggregates -/

section Aggregates

variable [DecidableEq V] {policy : OriginPolicy} {aggregate : Aggregate V T}
  {rows out : List (Row V)} {set : Finset ℕ} {ordinal index : ℕ} {type : T}

omit [DecidableEq V] in
theorem column_groupKey {groups : List (Expression V T)}
    (h : groups[ordinal]? = some (.boundRef index type)) (row : Row V) :
    column ordinal (groupKey groups set row) = if ordinal ∈ set then column index row else none := by
  unfold groupKey
  rw [column, List.getD_eq_getElem?_getD, List.getElem?_map, List.getElem?_zipIdx, h]
  simp only [Option.map_some, Option.getD_some, Nat.zero_add]
  rfl

/-- The column of a key in the rows of a grouping set. -/
theorem map_column_groupRows (h : GroupRows aggregate rows set out)
    (hgroup : aggregate.groups[ordinal]? = some (.boundRef index type)) :
    ∃ keys : List (Row V), keys.Nodup ∧ out.map (column ordinal) = keys.map (column ordinal) ∧
      ∀ key ∈ keys, key ∈ rows.map (groupKey aggregate.groups set) ∨
        (set = ∅ ∧ column ordinal key = none) := by
  have hlt : ordinal < aggregate.groups.length := (List.getElem?_eq_some_iff.mp hgroup).1
  obtain ⟨keys, hnodup, hkeys, rfl⟩ := h
  refine ⟨keys, hnodup, ?_, ?_⟩
  · rw [List.map_map]
    apply List.map_congr_left
    intro key hkey
    apply column_append_left
    rcases (hkeys key).mp hkey with hmem | ⟨-, -, rfl⟩
    · obtain ⟨row, -, rfl⟩ := List.mem_map.mp hmem
      rwa [groupKey, List.length_map, List.length_zipIdx]
    · rwa [List.length_replicate]
  · intro key hkey
    rcases (hkeys key).mp hkey with hmem | ⟨hset, -, rfl⟩
    · exact .inl hmem
    · refine .inr ⟨hset, ?_⟩
      rw [column, List.getD_replicate _ hlt]

/-- The keys of a grouping set are values of the input, or NULL where the set omits them. -/
theorem mem_of_groupRows (h : GroupRows aggregate rows set out)
    (hgroup : aggregate.groups[ordinal]? = some (.boundRef index type)) {row : Row V}
    (hrow : row ∈ out) {v : V} (hv : column ordinal row = some v) :
    ∃ r ∈ rows, column index r = some v := by
  obtain ⟨keys, -, heq, hkeys⟩ := map_column_groupRows h hgroup
  have hmem : some v ∈ keys.map (column ordinal) := by
    rw [← heq, ← hv]
    exact List.mem_map_of_mem hrow
  obtain ⟨key, hkey, hvalue⟩ := List.mem_map.mp hmem
  rcases hkeys key hkey with hinput | ⟨-, hnone⟩
  · obtain ⟨r, hr, rfl⟩ := List.mem_map.mp hinput
    rw [column_groupKey hgroup] at hvalue
    split_ifs at hvalue
    exact ⟨r, hr, hvalue⟩
  · rw [hnone] at hvalue
    cases hvalue

/-- A grouping set that has the key names each of its groups after a row of its own. -/
theorem subperm_of_groupRows (h : GroupRows aggregate rows set out)
    (hgroup : aggregate.groups[ordinal]? = some (.boundRef index type)) (hset : ordinal ∈ set) :
    (out.map (column ordinal)).Subperm (rows.map (column index)) := by
  obtain ⟨keys, hnodup, heq, hkeys⟩ := map_column_groupRows h hgroup
  have hsub : keys.Subperm (rows.map (groupKey aggregate.groups set)) := by
    apply hnodup.subperm
    intro key hkey
    refine (hkeys key hkey).resolve_right fun hempty => ?_
    rw [hempty.1] at hset
    exact absurd hset (Finset.notMem_empty ordinal)
  have hmap := subperm_map (column ordinal) hsub
  rw [heq]
  convert hmap using 1
  rw [List.map_map]
  apply List.map_congr_left
  intro row _
  rw [Function.comp_apply, column_groupKey hgroup, if_pos hset]

/-- **An aggregate keeps the values of its keys**, and with one grouping set that has the key also
    their rows. -/
theorem carries_aggregate {groups : List (List (Row V))}
    (hgroups : List.Forall₂ (GroupRows aggregate rows) aggregate.sets groups)
    (hgroup : aggregate.groups[ordinal]? = some (.boundRef index type))
    (hpolicy : ¬(policy = .rowSubset ∧ 1 < aggregate.groupingSets.length)) :
    Carries (policy = .rowSubset ∧ ∀ set, aggregate.groupingSets = [set] → ordinal ∈ set)
      groups.flatten ordinal rows index := by
  have hvalues : Carries False groups.flatten ordinal rows index := by
    apply Carries.of_subset not_false
    intro row hrow v hv
    obtain ⟨out, hout, hrow⟩ := List.mem_flatten.mp hrow
    obtain ⟨i, hi, rfl⟩ := List.getElem_of_mem hout
    exact mem_of_groupRows (hgroups.get (by rw [hgroups.length_eq]; exact hi) hi) hgroup hrow hv
  refine ⟨hvalues.1, fun ⟨hsubset, hkey⟩ => ?_⟩
  -- one grouping set, explicit or implied, which has the key
  obtain ⟨set, hsets, hmem⟩ : ∃ set, aggregate.sets = [set] ∧ ordinal ∈ set := by
    unfold Aggregate.sets
    split_ifs with hempty
    · exact ⟨_, rfl, Finset.mem_range.mpr (List.getElem?_eq_some_iff.mp hgroup).1⟩
    · have hle : aggregate.groupingSets.length ≤ 1 := not_lt.mp fun hlt => hpolicy ⟨hsubset, hlt⟩
      obtain ⟨set, hset⟩ := List.length_eq_one_iff.mp
        (le_antisymm hle (List.length_pos_iff.mpr hempty))
      exact ⟨set, hset, hkey set hset⟩
  rw [hsets] at hgroups
  obtain ⟨out, hout, rfl⟩ : ∃ out, GroupRows aggregate rows set out ∧ groups = [out] := by
    cases hgroups with
    | cons hout hrest =>
      cases hrest
      exact ⟨_, hout, rfl⟩
  rw [List.flatten_singleton]
  exact subperm_of_groupRows hout hgroup hmem

end Aggregates

/-! ## The way down -/

section Resolve

variable {policy : OriginPolicy} {ordinal : ℕ} {origin : ScanOrigin T}

variable {op : Operator V T} {types : List T} {children : List (Plan V T)}

/-- One round of the loop. -/
theorem resolve_node (hop : ∀ get, op ≠ .get get)
    (h : resolveScanColumnOrigin (.node op types children) ordinal policy = some origin) :
    ∃ step child, stepOrigin op (children.map fun child => child.types.length) ordinal policy
        = some step ∧ children[step.childIndex]? = some child ∧
      resolveScanColumnOrigin child step.childOrdinal policy = some origin := by
  rw [resolveScanColumnOrigin.eq_2 _ _ _ _ _ hop] at h
  split at h
  · cases h
  · rename_i step hstep
    split at h
    · cases h
    · rename_i child hchild
      exact ⟨step, child, hstep, hchild, h⟩

variable {step : OrdinalOrigin} {child : Plan V T}

theorem resolve_of_step (hop : ∀ get, op ≠ .get get)
    (hstep : stepOrigin op (children.map fun child => child.types.length) ordinal policy = some step)
    (hchild : children[step.childIndex]? = some child) :
    resolveScanColumnOrigin (.node op types children) ordinal policy
      = resolveScanColumnOrigin child step.childOrdinal policy := by
  rw [resolveScanColumnOrigin.eq_2 _ _ _ _ _ hop]
  simp only [hstep]
  split
  · rename_i hnone
    rw [hchild] at hnone
    cases hnone
  · rename_i child' hsome
    rw [Option.some.inj (hchild.symm.trans hsome)]

theorem exists_of_referenceOrigin {expression : Option (Expression V T)}
    (h : referenceOrigin expression = some step) :
    ∃ index type, expression = some (.boundRef index type) ∧ step = ⟨0, index⟩ := by
  unfold referenceOrigin at h
  split at h
  · exact ⟨_, _, rfl, (Option.some.inj h).symm⟩
  · cases h

theorem keysGrouped_step
    (hstep : stepOrigin op (children.map fun child => child.types.length) ordinal policy = some step)
    (hchild : children[step.childIndex]? = some child)
    (h : KeysGrouped (.node op types children) ordinal policy) :
    GroupsByKey op ordinal ∧ KeysGrouped child step.childOrdinal policy := by
  rw [KeysGrouped] at h
  simp only [hstep] at h
  refine ⟨h.1, ?_⟩
  have hrest := h.2
  split at hrest
  · rename_i hnone
    rw [hchild] at hnone
    cases hnone
  · rename_i child' hsome
    rwa [Option.some.inj (hchild.symm.trans hsome)]

theorem keysGrouped_of_step
    (hstep : stepOrigin op (children.map fun child => child.types.length) ordinal policy = some step)
    (hchild : children[step.childIndex]? = some child) (hop : GroupsByKey op ordinal)
    (h : KeysGrouped child step.childOrdinal policy) :
    KeysGrouped (.node op types children) ordinal policy := by
  rw [KeysGrouped]
  simp only [hstep]
  refine ⟨hop, ?_⟩
  split
  · trivial
  · rename_i child' hsome
    rwa [← Option.some.inj (hchild.symm.trans hsome)]

/-- The rows of the plan are a subset of the scan's. -/
def SubsetOf (plan : Plan V T) (ordinal : ℕ) (policy : OriginPolicy) : Prop :=
  policy = .rowSubset ∧ KeysGrouped plan ordinal policy

/-- An operator with one child, of which it keeps the column. -/
theorem carries_unary
    {rows source : List (Row V)} {base : List (Row V)}
    (hplan : Resolved (.node op types [child])) (hop : ∀ get, op ≠ .get get)
    (hstep : ∀ step, stepOrigin op [child.types.length] ordinal policy = some step →
      step.childIndex = 0 ∧
        Carries (policy = .rowSubset ∧ GroupsByKey op ordinal) rows ordinal source step.childOrdinal)
    (hchild : ∀ {i}, Resolved child → resolveScanColumnOrigin child i policy = some origin →
      Carries (SubsetOf child i policy) source i base origin.ordinal)
    (h : resolveScanColumnOrigin (.node op types [child]) ordinal policy = some origin) :
    Carries (SubsetOf (.node op types [child]) ordinal policy) rows ordinal base
      origin.ordinal := by
  obtain ⟨step, child', horigin, hget, hrest⟩ := resolve_node hop h
  have hkeys : SubsetOf (.node op types [child]) ordinal policy →
      GroupsByKey op ordinal ∧ KeysGrouped child' step.childOrdinal policy :=
    fun hs => keysGrouped_step horigin hget hs.2
  obtain ⟨hindex, hcarries⟩ := hstep step horigin
  rw [hindex] at hget
  obtain rfl := Option.some.inj hget
  have hrows := hcarries.mono fun hs : SubsetOf (.node op types [child]) ordinal policy =>
    ⟨hs.1, (hkeys hs).1⟩
  cases hplan with
  | node hchildren _ =>
    exact hrows.trans (hchild (hchildren child (by simp)) hrest) fun hs => ⟨hs.1, (hkeys hs).2⟩

/-- An operator with two children, of which it keeps the column of one. -/
theorem carries_binary {left right : Plan V T}
    {rows lrows rrows : List (Row V)} {base : List (Row V)} (hop : ∀ get, op ≠ .get get)
    (hstep : ∀ step,
      stepOrigin op [left.types.length, right.types.length] ordinal policy = some step →
      CarriesSide (policy = .rowSubset) rows ordinal lrows rrows step)
    (hleft : ∀ i, resolveScanColumnOrigin left i policy = some origin →
      Carries (SubsetOf left i policy) lrows i base origin.ordinal)
    (hright : ∀ i, resolveScanColumnOrigin right i policy = some origin →
      Carries (SubsetOf right i policy) rrows i base origin.ordinal)
    (h : resolveScanColumnOrigin (.node op types [left, right]) ordinal policy = some origin) :
    Carries (SubsetOf (.node op types [left, right]) ordinal policy) rows ordinal base
      origin.ordinal := by
  obtain ⟨step, child', horigin, hget, hrest⟩ := resolve_node hop h
  have hkeys : SubsetOf (.node op types [left, right]) ordinal policy →
      SubsetOf child' step.childOrdinal policy :=
    fun hs => ⟨hs.1, (keysGrouped_step horigin hget hs.2).2⟩
  rcases hstep step horigin with ⟨hindex, hcarries⟩ | ⟨hindex, hcarries⟩
  · rw [hindex] at hget
    obtain rfl := Option.some.inj hget
    exact (hcarries.mono And.left).trans (hleft _ hrest) hkeys
  · rw [hindex] at hget
    obtain rfl := Option.some.inj hget
    exact (hcarries.mono And.left).trans (hright _ hrest) hkeys

/-- A cross product repeats the rows of both sides. -/
theorem carriesSide_crossProduct {lrows rrows : List (Row V)} {lw rw : ℕ}
    (hl : ∀ row ∈ lrows, row.length = lw)
    (h : stepOrigin (.crossProduct : Operator V T) [lw, rw] ordinal policy = some step) :
    CarriesSide (policy = .rowSubset) (lrows.flatMap fun l => rrows.map fun r => l ++ r) ordinal lrows rrows
      step := by
  simp only [stepOrigin, List.getD_cons_succ, List.getD_cons_zero] at h
  obtain ⟨hpolicy, h⟩ := Option.ite_none_left_eq_some.mp h
  rw [not_or] at hpolicy
  split_ifs at h with hlt
  · obtain rfl := Option.some.inj h
    refine .inl ⟨rfl, Carries.of_subset hpolicy.1 fun row hrow v hv => ?_⟩
    obtain ⟨l, hmem, hrow⟩ := List.mem_flatMap.mp hrow
    obtain ⟨r, -, rfl⟩ := List.mem_map.mp hrow
    rw [column_append_left _ (by rw [hl l hmem]; exact hlt)] at hv
    exact ⟨l, hmem, hv⟩
  · refine .inr ⟨childIndex_mappedOrigin h, Carries.of_subset hpolicy.1 fun row hrow v hv => ?_⟩
    obtain ⟨l, hmem, hrow⟩ := List.mem_flatMap.mp hrow
    obtain ⟨r, hr, rfl⟩ := List.mem_map.mp hrow
    rw [column_append_right _ (by rw [hl l hmem]; exact not_lt.mp hlt), hl l hmem] at hv
    refine ⟨r, hr, ?_⟩
    rw [← column_projectRow h r]
    exact hv

/-- **The origin holds what the output column carries.** -/
theorem carries_of_resolve [LinearOrder V] {db : Database V T} {plan : Plan V T}
    {rows : List (Row V)} (hplan : Resolved plan) (hrows : Eval db plan rows)
    (h : resolveScanColumnOrigin plan ordinal policy = some origin) :
    Carries (SubsetOf plan ordinal policy) rows ordinal (db.scanRows origin.get)
      origin.ordinal := by
  -- by induction on the evaluation: each operator keeps the column of the child that is stepped into
  induction hrows generalizing ordinal with
  | scan hwidth =>
    rw [resolveScanColumnOrigin] at h
    obtain ⟨-, h⟩ := Option.ite_none_right_eq_some.mp h
    obtain rfl := Option.some.inj h
    exact Carries.of_subperm (List.Subperm.refl _)
  | fed hwidth =>
    rw [resolveScanColumnOrigin] at h
    simp [admissibleBaseScan] at h
  | other hwidth =>
    obtain ⟨step, child, hstep, -, -⟩ := resolve_node (by simp) h
    unfold stepOrigin at hstep
    split at hstep <;> cases hstep
  | @projection _ _ child _ _ ih =>
    refine carries_unary hplan (by simp) (fun step hstep => ?_) ih h
    obtain ⟨index, type, hget, rfl⟩ := exists_of_referenceOrigin hstep
    exact ⟨rfl, carries_projection hget⟩
  | @filter _ _ _ child _ _ ih =>
    refine carries_unary hplan (by simp) (fun step hstep => ?_) ih h
    exact ⟨childIndex_mappedOrigin hstep, carries_projectRow hstep List.filter_sublist.subperm⟩
  | @orderBy _ _ _ child _ _ _ hperm _ ih =>
    refine carries_unary hplan (by simp) (fun step hstep => ?_) ih h
    exact ⟨childIndex_mappedOrigin hstep, carries_projectRow hstep hperm.subperm⟩
  | @limit _ _ child _ _ ih =>
    refine carries_unary hplan (by simp) (fun step hstep => ?_) ih h
    exact ⟨childIndex_mappedOrigin hstep, carries_passThrough hstep
      ((List.take_sublist _ _).trans (List.drop_sublist _ _)).subperm⟩
  | @topN _ _ _ _ child _ _ _ hperm _ ih =>
    refine carries_unary hplan (by simp) (fun step hstep => ?_) ih h
    refine ⟨childIndex_mappedOrigin hstep,
      carries_passThrough hstep (List.Subperm.trans ?_ hperm.subperm)⟩
    exact ((List.take_sublist _ _).trans (List.drop_sublist _ _)).subperm
  | @distinct _ _ child _ _ _ hkept _ _ ih =>
    refine carries_unary hplan (by simp) (fun step hstep => ?_) ih h
    exact ⟨childIndex_mappedOrigin hstep, carries_passThrough hstep hkept⟩
  | @aggregate _ _ child _ _ _ _ hgroups hout ih =>
    refine carries_unary hplan (by simp) (fun step hstep => ?_) ih h
    obtain ⟨hpolicy, hstep⟩ := Option.ite_none_left_eq_some.mp hstep
    obtain ⟨index, type, hget, rfl⟩ := exists_of_referenceOrigin hstep
    exact ⟨rfl, (carries_aggregate hgroups hget hpolicy).perm hout⟩
  | @join _ _ left right _ _ _ _ _ hl _ _ hjoin hout ihl ihr =>
    cases hplan with
    | node hchildren _ =>
      have hleft := hchildren left (by simp)
      refine carries_binary (by simp) (fun step hstep => ?_) (fun i hi => ihl hleft hi)
        (fun i hi => ihr (hchildren right (by simp)) hi) h
      obtain ⟨-, hstep⟩ := Option.ite_none_left_eq_some.mp hstep
      rcases carries_joinOrigin (hl.width hleft) hjoin hstep with ⟨hindex, hc⟩ | ⟨hindex, hc⟩
      · exact .inl ⟨hindex, hc.perm hout⟩
      · exact .inr ⟨hindex, hc.perm hout⟩
  | @crossProduct _ left right _ _ _ hl _ hout ihl ihr =>
    cases hplan with
    | node hchildren _ =>
      have hleft := hchildren left (by simp)
      refine carries_binary (by simp) (fun step hstep => ?_) (fun i hi => ihl hleft hi)
        (fun i hi => ihr (hchildren right (by simp)) hi) h
      rcases carriesSide_crossProduct (hl.width hleft) hstep with ⟨hindex, hc⟩ | ⟨hindex, hc⟩
      · exact .inl ⟨hindex, hc.perm hout⟩
      · exact .inr ⟨hindex, hc.perm hout⟩

end Resolve

/-- **The origin of a column.** When an output column of a plan is resolved to a column of a scan,
    every non-NULL value of the output occurs in the scan's column. With the policy `rowSubset`, and
    when no aggregate on the way has one grouping set that omits the key, the output rows are mapped
    injectively to rows of the scan that hold the same value. -/
theorem scan_column_origin_sound [LinearOrder V] {db : Database V T} {plan : Plan V T}
    {rows : List (Row V)} {ordinal : ℕ} {policy : OriginPolicy} {origin : ScanOrigin T}
    (hplan : Resolved plan) (hrows : Eval db plan rows)
    (h : resolveScanColumnOrigin plan ordinal policy = some origin) :
    (∀ row ∈ rows, ∀ v, column ordinal row = some v →
      ∃ source ∈ db.scanRows origin.get, column origin.ordinal source = some v) ∧
    (policy = .rowSubset → KeysGrouped plan ordinal policy →
      ∃ f : Fin rows.length → Fin (db.scanRows origin.get).length,
        Function.Injective f ∧ ∀ i, column origin.ordinal ((db.scanRows origin.get).get (f i))
          = column ordinal (rows.get i)) := by
  obtain ⟨hvalues, hsub⟩ := carries_of_resolve hplan hrows h
  refine ⟨fun row hrow v hv => ?_, fun hpolicy hkeys => ?_⟩
  · have hmem := hvalues v (List.mem_map.mpr ⟨row, hrow, hv⟩)
    obtain ⟨source, hsource, hcolumn⟩ := List.mem_map.mp hmem
    exact ⟨source, hsource, hcolumn⟩
  · have hsubperm := hsub ⟨hpolicy, hkeys⟩
    refine ⟨fun i => (hsubperm.idxInj (i.cast (List.length_map _).symm)).cast (List.length_map _),
      fun i j hij => ?_, fun i => ?_⟩
    · have := hsubperm.idxInj_injective (Fin.cast_injective _ hij)
      exact Fin.cast_injective _ this
    · have hget := hsubperm.getElem_idxInj_eq_getElem (i := i.cast (List.length_map _).symm)
      simp only [List.getElem_map] at hget
      exact hget

/-- Two scans and their rows. -/
def scanOf (tableIndex width : ℕ) : Get Unit where
  tableIndex := tableIndex
  columnIds := (List.range width).map fun index => { primaryIndex := some index }
  functionName := "parquet_scan"
  table := none

def twoScans : Database ℤ Unit where
  tableRows := fun _ => []
  scanRows := fun get =>
    if get.table.isSome then []
    else if get.tableIndex = 0 then [[some 1, some 5], [some 2, none]] else [[some 5]]
  reads := by
    intro get table htable _ _ _ row hrow
    simp [htable] at hrow

def semiJoin : Join ℤ Unit where
  kind := .comparison
  joinType := .semi
  conditions := [.comparison .equal (.boundRef 1 ()) (.boundRef 0 ())]

/-- The second column of the left scan, of the rows that match the right scan on it. -/
def semiJoinPlan : Plan ℤ Unit :=
  .node (.projection [.boundRef 1 ()]) [()]
    [.node (.join semiJoin) [(), ()]
      [.node (.get (scanOf 0 2)) [(), ()] [], .node (.get (scanOf 1 1)) [()] []]]

theorem eval_semiJoinPlan : Eval twoScans semiJoinPlan [[some 5]] := by
  have hleft : Eval twoScans (.node (.get (scanOf 0 2)) [(), ()] [])
      (twoScans.scanRows (scanOf 0 2)) := .scan (by decide)
  have hright : Eval twoScans (.node (.get (scanOf 1 1)) [()] [])
      (twoScans.scanRows (scanOf 1 1)) := .scan (by decide)
  have hmatch : Matching semiJoin (twoScans.scanRows (scanOf 0 2)) (twoScans.scanRows (scanOf 1 1))
      fun a _ => a == 0 := by
    intro a b l r hl hr
    match a, b with
    | 0, 0 =>
      obtain rfl := Option.some.inj hl
      obtain rfl := Option.some.inj hr
      decide
    | 1, 0 =>
      obtain rfl := Option.some.inj hl
      obtain rfl := Option.some.inj hr
      decide
    | a + 2, _ => cases hl
    | _, b + 1 => cases hr
  exact .projection (.join hleft hright hmatch .semi (List.Perm.refl _))

theorem resolved_semiJoinPlan : Resolved semiJoinPlan := by
  refine .node (fun child hchild => ?_) rfl
  obtain rfl := List.mem_singleton.mp hchild
  refine .node (fun child hchild => ?_) rfl
  simp only [List.mem_cons, List.not_mem_nil, or_false] at hchild
  rcases hchild with rfl | rfl
  · exact .node (by simp) trivial
  · exact .node (by simp) trivial

theorem resolve_semiJoinPlan :
    resolveScanColumnOrigin semiJoinPlan 0 .rowSubset = some ⟨scanOf 0 2, 1⟩ := by
  rw [semiJoinPlan, resolve_of_step (by simp) rfl rfl, resolve_of_step (by simp) rfl rfl,
    resolveScanColumnOrigin]
  rfl

theorem keysGrouped_semiJoinPlan : KeysGrouped semiJoinPlan 0 .rowSubset := by
  refine keysGrouped_of_step rfl rfl ?_ (keysGrouped_of_step rfl rfl ?_ ?_)
  · trivial
  · trivial
  · rw [KeysGrouped]
    trivial

theorem scan_column_origin_sound_semiJoinPlan :
    Eval twoScans semiJoinPlan [[some 5]] ∧
      resolveScanColumnOrigin semiJoinPlan 0 .rowSubset = some ⟨scanOf 0 2, 1⟩ ∧
      ∃ f : Fin 1 → Fin 2, Function.Injective f ∧ ∀ i,
        column 1 ((twoScans.scanRows (scanOf 0 2)).get (f i)) = column 0 ([[some 5]].get i) :=
  ⟨eval_semiJoinPlan, resolve_semiJoinPlan,
    (scan_column_origin_sound resolved_semiJoinPlan eval_semiJoinPlan resolve_semiJoinPlan).2 rfl
      keysGrouped_semiJoinPlan⟩

/-- A key that the only grouping set omits. -/
def omittedKey : Aggregate ℤ Unit where
  groups := [.boundRef 0 ()]
  groupingSets := [∅]
  values := []

def omittedKeyPlan : Plan ℤ Unit :=
  .node (.aggregate omittedKey) [()] [.node (.get (scanOf 1 1)) [()] []]

theorem eval_omittedKeyPlan : Eval twoScans omittedKeyPlan [[none]] := by
  have hscan : Eval twoScans (.node (.get (scanOf 1 1)) [()] [])
      (twoScans.scanRows (scanOf 1 1)) := .scan (by decide)
  have hgroup : GroupRows omittedKey (twoScans.scanRows (scanOf 1 1)) ∅ [[none]] := by
    refine ⟨[[none]], by decide, fun key => ?_, rfl⟩
    have hkeys : (twoScans.scanRows (scanOf 1 1)).map (groupKey omittedKey.groups ∅)
        = [[none]] := rfl
    have hrows : twoScans.scanRows (scanOf 1 1) ≠ [] := by decide
    rw [hkeys]
    exact ⟨.inl, fun h => h.resolve_right fun hempty => hrows hempty.2.1⟩
  exact .aggregate hscan (.cons hgroup .nil) (List.Perm.refl _)

theorem omittedKeyPlan_not_subset :
    Resolved omittedKeyPlan ∧ Eval twoScans omittedKeyPlan [[none]] ∧
      resolveScanColumnOrigin omittedKeyPlan 0 .rowSubset = some ⟨scanOf 1 1, 0⟩ ∧
      ¬∃ f : Fin 1 → Fin 1, Function.Injective f ∧ ∀ i,
        column 0 ((twoScans.scanRows (scanOf 1 1)).get (f i)) = column 0 ([[none]].get i) := by
  refine ⟨?_, eval_omittedKeyPlan, ?_, ?_⟩
  · refine .node (fun child hchild => ?_) rfl
    obtain rfl := List.mem_singleton.mp hchild
    exact .node (by simp) trivial
  · rw [omittedKeyPlan, resolve_of_step (by simp) rfl rfl, resolveScanColumnOrigin]
    rfl
  · rintro ⟨f, -, hf⟩
    have hvalue := hf 0
    rw [Subsingleton.elim (f 0) 0] at hvalue
    exact absurd hvalue (by decide)

end Sirius.Planner.LogicalPlan
