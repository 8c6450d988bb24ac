import Mathlib
import Sirius.Common.Agreement
import Sirius.Planner.LateMat

/-!
# A column is carried below its first reader

What the operators of a plan emit, over any interpretation of their expressions, of their
hashes, orders and published filters and of the other inputs of their joins; and that the
walk's `first_reader` is a bound on where a column's values can matter.

* `carry_confined`: below its first reader an operator that copies the column to one place
  emits the same rows, whatever the column holds, but for that place.
* `lifetimes_confined`: this holds of a whole plan whose operators name each column once, as
  those of the planner do.
-/

namespace Sirius.Planner.LateMat

open Sirius.Common

variable {V : Type}

/-! ## What an operator emits -/

/-- What a plan leaves open. An operator is named by its id. -/
structure Interp (V : Type) where
  null : V
  cast : CastKind → V → V
  apply : ℕ → List V → V
  truth : V → Bool
  partitions : ℕ → ℕ
  bucket : ℕ → List V → ℕ
  joinMaps : ℕ → List (List V) → List (List V) → List (Option ℕ × Option ℕ)
  otherInput : ℕ → List (List V)
  published : ℕ → List V → Bool
  topRows : ℕ → List (List V) → List ℕ
  whole : ℕ → List (List V) → List (List V)

namespace Interp

variable (I : Interp V)

mutual

/-- The value of an expression on a row. -/
def eval (row : List V) : Expr → V
  | .reference i => row[i]?.getD I.null
  | .cast kind child => I.cast kind (eval row child)
  | .node alternative children => I.apply alternative (evalAll row children)

def evalAll (row : List V) : List Expr → List V
  | [] => []
  | e :: es => eval row e :: evalAll row es

end

/-- The columns at `cols`, in that order. -/
def project (cols : List ℕ) (row : List V) : List V := cols.map fun i => row[i]?.getD I.null

/-- A missing expression of a select list computes nothing. -/
def evalOut (row : List V) (e : Option Expr) : V := (e.map (I.eval row)).getD I.null

/-- The key of a row on one side of a join. -/
def joinKey (conditions : List JoinCondition) (fromLhs : Bool) (row : List V) : List V :=
  conditions.filterMap fun c => (c.side fromLhs).map (I.eval row)

/-- The row a gather map names; an unmatched side is all null. -/
def gathered (t : List (List V)) (i : Option ℕ) : List V := (i.bind fun i => t[i]?).getD []

/-- A hash join: gather maps from the keys of both sides, then the columns of the left and
those of the right. -/
def emitJoin (id : ℕ) (join : HashJoin) (fromLhs : Bool) (t : List (List V)) : List (List V) :=
  let lhs := if fromLhs then t else I.otherInput id
  let rhs := if fromLhs then I.otherInput id else t
  (I.joinMaps id (lhs.map (I.joinKey join.conditions true))
      (rhs.map (I.joinKey join.conditions false))).map fun m =>
    I.project join.lhsOutputColumns (gathered lhs m.1) ++
      I.project join.rhsOutputColumns (gathered rhs m.2)

/-- The rows an operator emits for the rows of its input. What the walk does not model may
do anything with them. -/
def emit (id : ℕ) (op : Op) (t : List (List V)) : List (List V) :=
  match op with
  | .partition keys =>
    (List.range (I.partitions id)).flatMap fun b =>
      t.filter fun r => I.bucket id (I.project keys r) == b
  | .concat children => if children = 1 then t else I.whole id t
  | .hashJoin join =>
    if !join.joinType.carries then I.whole id t
    else match join.fromLhs with
      | none => I.whole id t
      | some fromLhs => I.emitJoin id join fromLhs t
  | .dynamicFilter none => I.whole id t
  | .dynamicFilter (some none) => t
  | .dynamicFilter (some (some channel)) =>
    if !channel.hasProducers then t
    else if channel.unscoped then t.filter (I.published id)
    else t.filter fun r => I.published id (I.project channel.targets r)
  | .buildFilter underBuildInput => if underBuildInput then t else I.whole id t
  | .groupBy _ => I.whole id t
  | .topN none => I.whole id t
  | .topN (some orders) =>
    if orders.contains none then I.whole id t
    else (I.topRows id (t.map (I.project (orders.filterMap fun o => o)))).filterMap fun i => t[i]?
  | .filter predicate mask =>
    let kept := t.filter fun r => (predicate.map fun e => I.truth (I.eval r e)).getD true
    match mask with
    | none => kept
    | some mask => kept.map (I.project mask)
  | .projection selectList => t.map fun r => selectList.map (I.evalOut r)
  | .otherJoin => I.whole id t
  | .other => I.whole id t

/-- The rows the operator of an id emits, for the rows of the scan. -/
def emitted (chain : List Node) (rows : List (List V)) : ℕ → List (List V)
  | 0 => rows
  | k + 1 =>
    match chain[k]? with
    | none => emitted chain rows k
    | some node => I.emit (k + 1) node.op (emitted chain rows k)

end Interp

/-! ## Specification -/

/-- The operators strictly below the first reader, or all of them without one. -/
def Below (scan : Scan) (chain : List Node) (c id : ℕ) : Prop :=
  id ≤ chain.length ∧
    ∀ life, (analyzeColumnLifetimes scan chain)[c]? = some life →
      ∀ reader, life.firstReader = some reader → id < reader

/-- Where the walk has the column in the output of an operator. -/
def tracked (scan : Scan) (chain : List Node) (c id : ℕ) : Option ℕ :=
  ((walkAfter scan chain id).columns[c]?.bind Traveller.live).map LiveColumn.position

/-- For any two scan outputs that differ in column `c` only, every operator below its first
reader emits the same rows but for the tracked position. -/
def Confined (I : Interp V) (scan : Scan) (chain : List Node) (c : ℕ) : Prop :=
  ∀ rows rows' : List (List V), (∀ r ∈ rows, r.length = scan.width) → TablesAgree c rows rows' →
    ∀ id, Below scan chain c id → ∃ p, tracked scan chain c id = some p ∧
      TablesAgree p (I.emitted chain rows id) (I.emitted chain rows' id)

/-- The output position `q` of the operator holds its input position `p`, as it is or with
its carrier restored. -/
def Op.Copies (op : Op) (p q : ℕ) : Prop :=
  match op with
  | .filter _ (some mask) => mask[q]? = some p
  | .hashJoin join =>
    if join.fromLhs = some true then join.lhsOutputColumns[q]? = some p
    else join.lhsOutputColumns.length ≤ q ∧
      join.rhsOutputColumns[q - join.lhsOutputColumns.length]? = some p
  | .projection selectList =>
    ∃ e, selectList[q]? = some (some e) ∧ (e = .reference p ∨ e.restored? = some p)
  | _ => q = p

/-- The operator copies its input position `p` to one place at most. -/
def Op.CopiesOnce (op : Op) (p : ℕ) : Prop :=
  ∀ q q', op.Copies p q → op.Copies p q' → q = q'

/-- What the planner builds. An output mask, and a join's projection of the side the walk
comes from, lists each column once; a select list restores no column that an expression
before it copies. Bare references may repeat. -/
def Op.NamesOnce (op : Op) : Prop :=
  match op with
  | .filter _ (some mask) => mask.Nodup
  | .hashJoin join =>
    if join.fromLhs = some true then join.lhsOutputColumns.Nodup else join.rhsOutputColumns.Nodup
  | .projection selectList => selectList.Pairwise fun e e' => ∀ a ∈ e, ∀ a' ∈ e', ∀ p,
      a = .reference p ∨ a.restored? = some p → a'.restored? ≠ some p
  | _ => True

/-! ## Where a ride ends -/

/-- The output position of a column that the operator merely carries. -/
def Op.carry (op : Op) (p : ℕ) : Option ℕ :=
  let moved := (traceThrough op none p false false).1
  if moved.readContent || moved.asGroupKey then none else moved.movedTo

/-- The position of a column after some operators, while all of them carry it. -/
def rideAfter (chain : List Node) (c : ℕ) : ℕ → Option ℕ
  | 0 => some c
  | k + 1 =>
    match chain[k]? with
    | none => rideAfter chain c k
    | some node => (rideAfter chain c k).bind node.op.carry

/-- Before it stops, the step of a column depends on the operator and the position only. -/
theorem traceThrough_fst (op : Op) (consumer : Option Op) (p : ℕ) (nullified : Bool) :
    (traceThrough op consumer p nullified false).1 = (traceThrough op none p false false).1 := by
  cases op with
  | hashJoin join =>
    simp only [traceThrough, traceHashJoin]
    split_ifs
    · rfl
    · cases join.fromLhs with
      | none => rfl
      | some fromLhs =>
        simp only
        split_ifs
        · rfl
        · rfl
  | partition keys =>
    simp only [traceThrough, Bool.false_and]
    split_ifs
    · rfl
    · rfl
    · rfl
  | _ => rfl

/-- A column on its ride. -/
structure Traveller.Riding (t : Traveller) (p : ℕ) : Prop where
  unread : t.life.firstReader = none
  live : ∃ col, t.live = some col ∧ col.position = p ∧ col.stopped = false ∧ col.extending = false

/-- A column whose ride ended at the operator `reader`. -/
structure Traveller.Stopped (t : Traveller) (reader : ℕ) : Prop where
  reader : t.life.firstReader = some reader
  live : ∀ col, t.live = some col → col.stopped = true

section Visit

variable (life : ColumnLifetime) (here : Stop) (col : LiveColumn) {moved : Step}

theorem Traveller.stopped_of_carried (hreads : (moved.readContent || moved.asGroupKey) = false)
    (hextending : col.extending = false) :
    Traveller.stopped life here col moved = (life, col) := by
  simp only [Traveller.stopped, hreads, hextending, Bool.false_and, if_neg Bool.false_ne_true]

theorem Traveller.stopped_of_read (hreads : (moved.readContent || moved.asGroupKey) = true)
    (hstopped : col.stopped = false) :
    (Traveller.stopped life here col moved).1.firstReader = some here.id ∧
      (Traveller.stopped life here col moved).2.stopped = true := by
  simp only [Traveller.stopped, hreads, hstopped, Bool.not_false, Bool.and_self, if_pos]
  split_ifs
  all_goals exact ⟨rfl, rfl⟩

theorem Traveller.stopped_of_stopped (moved : Step) (hstopped : col.stopped = true) :
    (Traveller.stopped life here col moved).1.firstReader = life.firstReader ∧
      (Traveller.stopped life here col moved).2.stopped = true := by
  simp only [Traveller.stopped, hstopped, Bool.not_true, Bool.and_false,
    if_neg Bool.false_ne_true]
  obtain ⟨position, nullified, stopped, extending, fannedOut⟩ := col
  obtain rfl : stopped = true := hstopped
  split_ifs
  all_goals exact ⟨rfl, rfl⟩

theorem Traveller.dropped_firstReader (moved : Step) :
    (Traveller.dropped life here col moved).firstReader =
      if col.stopped then life.firstReader else some here.id := by
  unfold Traveller.dropped
  cases col.stopped <;> cases col.extending <;> rfl

variable {t : Traveller} {p q : ℕ}

/-- An operator that carries the column leaves it on its ride. -/
theorem Traveller.Riding.carried (here : Stop) (ht : t.Riding p)
    (hcarry : here.node.op.carry p = some q) : (t.visit here).Riding q := by
  obtain ⟨hunread, col, hlive, rfl, hstopped, hextending⟩ := ht
  simp only [Op.carry, ← traceThrough_fst _ here.consumer _ col.nullified] at hcarry
  split_ifs at hcarry with hreads
  simp only [Traveller.visit, hlive, hextending, hcarry]
  rw [Traveller.stopped_of_carried _ _ _ (Bool.eq_false_iff.mpr hreads) rfl]
  exact ⟨hunread, _, rfl, rfl, hstopped, rfl⟩

/-- Any other operator is the column's first reader. -/
theorem Traveller.Riding.stops (here : Stop) (ht : t.Riding p)
    (hcarry : here.node.op.carry p = none) : (t.visit here).Stopped here.id := by
  obtain ⟨hunread, col, hlive, rfl, hstopped, hextending⟩ := ht
  simp only [Op.carry, ← traceThrough_fst _ here.consumer _ col.nullified] at hcarry
  simp only [Traveller.visit, hlive, hextending]
  generalize traceThrough here.node.op here.consumer col.position col.nullified false = m at *
  by_cases hreads : (m.1.readContent || m.1.asGroupKey) = true
  · obtain ⟨hreader, hnow⟩ := Traveller.stopped_of_read (t.life.record here m.1) here
      { col with nullified := m.2, extending := false } hreads hstopped
    cases m.1.movedTo with
    | none => exact ⟨by rw [Traveller.dropped_firstReader, hnow, if_pos rfl, hreader], by simp⟩
    | some position =>
      refine ⟨hreader, fun col' hcol' => ?_⟩
      obtain rfl := Option.some.inj hcol'
      exact hnow
  · rw [if_neg hreads] at hcarry
    rw [hcarry, Traveller.stopped_of_carried _ _ _ (Bool.eq_false_iff.mpr hreads) rfl]
    refine ⟨?_, by simp⟩
    rw [Traveller.dropped_firstReader]
    simp only [hstopped, if_neg Bool.false_ne_true]

/-- A recorded first reader stays. -/
theorem Traveller.Stopped.stays {reader : ℕ} (here : Stop) (ht : t.Stopped reader) :
    (t.visit here).Stopped reader := by
  obtain ⟨hreader, hlive⟩ := ht
  unfold Traveller.visit
  cases hcol : t.live with
  | none => exact ⟨hreader, hlive⟩
  | some col =>
    have hstopped := hlive col hcol
    simp only
    generalize traceThrough here.node.op here.consumer col.position col.nullified col.extending = m
    obtain ⟨hkeep, hnow⟩ := Traveller.stopped_of_stopped (t.life.record here m.1) here
      { col with nullified := m.2 } m.1 hstopped
    have hreader' : (t.life.record here m.1).firstReader = some reader := hreader
    cases m.1.movedTo with
    | none =>
      exact ⟨by rw [Traveller.dropped_firstReader, hnow, if_pos rfl, hkeep, hreader'], by simp⟩
    | some position =>
      refine ⟨hkeep.trans hreader', fun col' hcol' => ?_⟩
      obtain rfl := Option.some.inj hcol'
      exact hnow

end Visit

/-! ## The walk follows the ride -/

section Walk

variable {scan : Scan} {chain : List Node} {c : ℕ}

theorem rideAfter_succ_none {k : ℕ} (h : rideAfter chain c k = none) :
    rideAfter chain c (k + 1) = none := by
  rw [rideAfter]
  cases chain[k]? with
  | none => exact h
  | some node => exact (congrArg (Option.bind · node.op.carry) h).trans rfl

theorem rideAfter_none_of_le {j k : ℕ} (hle : j ≤ k) (h : rideAfter chain c j = none) :
    rideAfter chain c k = none := by
  induction k, hle using Nat.le_induction with
  | base => exact h
  | succ k _ ih => exact rideAfter_succ_none ih

/-- What the walk holds of a column after `k` operators: it rides where all of them carried
it, or its first reader is the one that did not. -/
def Traveller.Follows (chain : List Node) (c k : ℕ) (t : Traveller) : Prop :=
  (∃ p, rideAfter chain c k = some p ∧ t.Riding p) ∨
    ∃ j, (∃ p, rideAfter chain c j = some p) ∧ rideAfter chain c (j + 1) = none ∧ j < k ∧
      t.Stopped (j + 1)

theorem Traveller.visit_follows {t : Traveller} {k : ℕ} {node : Node} (hnode : chain[k]? = some node)
    (consumer : Option Op) (crossings : ℕ) (ht : t.Follows chain c k) :
    (t.visit ⟨k + 1, node, consumer, crossings⟩).Follows chain c (k + 1) := by
  have hsucc : rideAfter chain c (k + 1) = (rideAfter chain c k).bind node.op.carry := by
    rw [rideAfter, hnode]
  rcases ht with ⟨p, hride, hriding⟩ | ⟨j, hsome, hnone, hlt, hstopped⟩
  · rw [hride, Option.bind_some] at hsucc
    cases hcarry : node.op.carry p with
    | some q => exact .inl ⟨q, hsucc.trans hcarry, hriding.carried _ hcarry⟩
    | none =>
      exact .inr ⟨k, ⟨p, hride⟩, hsucc.trans hcarry, by omega, hriding.stops _ hcarry⟩
  · exact .inr ⟨j, hsome, hnone, by omega, hstopped.stays _⟩

/-- After every operator of the chain, the walk follows each column of the scan. -/
theorem walkAfter_follows (hc : c < scan.width) (k : ℕ) (hk : k ≤ chain.length) :
    ∃ t, (walkAfter scan chain k).columns[c]? = some t ∧ t.Follows chain c k := by
  induction k with
  | zero =>
    refine ⟨⟨{ scanOutputPosition := c, positionAtReader := c }, some { position := c }⟩, ?_,
      .inl ⟨c, rfl, rfl, _, rfl, rfl, rfl, rfl⟩⟩
    simp only [walkAfter, List.getElem?_map, List.getElem?_range hc, Option.map_some]
  | succ k ih =>
    obtain ⟨t, ht, hfollows⟩ := ih (by omega)
    have hnode : chain[k]? = some chain[k] := List.getElem?_eq_getElem (by omega)
    refine ⟨_, ?_, Traveller.visit_follows hnode ((chain[k + 1]?).map Node.op)
      (if isSinkAt scan chain k then (walkAfter scan chain k).crossings + 1
        else (walkAfter scan chain k).crossings) hfollows⟩
    simp only [walkAfter, hnode, List.getElem?_map, ht, Option.map_some]

theorem Traveller.finish_firstReader (t : Traveller) (top crossings : ℕ) :
    (t.finish top crossings).firstReader = t.life.firstReader := by
  unfold Traveller.finish
  cases t.live with
  | none => rfl
  | some col =>
    simp only
    split_ifs
    all_goals rfl

theorem Traveller.Follows.below_iff {t : Traveller} {id : ℕ} (ht : t.Follows chain c chain.length)
    (hid : id ≤ chain.length) :
    (∀ reader, t.life.firstReader = some reader → id < reader) ↔
      ∃ p, rideAfter chain c id = some p := by
  rcases ht with ⟨p, hride, hriding⟩ | ⟨j, ⟨p, hsome⟩, hnone, hlt, hstopped⟩
  · have hget : ∃ p, rideAfter chain c id = some p := by
      cases hid' : rideAfter chain c id with
      | some p => exact ⟨p, rfl⟩
      | none => rw [rideAfter_none_of_le hid hid'] at hride; cases hride
    simp [hriding.unread, hget]
  · rw [hstopped.reader]
    constructor
    · intro hbelow
      have hle : id ≤ j := by
        have := hbelow (j + 1) rfl
        omega
      cases hid' : rideAfter chain c id with
      | some p => exact ⟨p, rfl⟩
      | none => rw [rideAfter_none_of_le hle hid'] at hsome; cases hsome
    · rintro ⟨q, hq⟩ reader hreader
      obtain rfl := Option.some.inj hreader
      by_contra hge
      rw [rideAfter_none_of_le (not_lt.mp hge) hnone] at hq
      cases hq

/-- **The operators below the first reader are those the column rides past.** -/
theorem below_iff_ride (hc : c < scan.width) (id : ℕ) :
    Below scan chain c id ↔ id ≤ chain.length ∧ ∃ p, rideAfter chain c id = some p := by
  unfold Below
  refine and_congr_right fun hid => ?_
  obtain ⟨t, ht, hfollows⟩ := walkAfter_follows hc chain.length le_rfl
  rw [← hfollows.below_iff hid]
  have hlife : (analyzeColumnLifetimes scan chain)[c]? =
      some (t.finish chain.length (walkAfter scan chain chain.length).crossings) := by
    simp only [analyzeColumnLifetimes, List.getElem?_map, ht, Option.map_some]
  rw [hlife]
  simp only [Option.some.injEq, forall_eq', Traveller.finish_firstReader]

/-- There the tracked position is that of the ride. -/
theorem tracked_eq_ride (hc : c < scan.width) {id p : ℕ} (hid : id ≤ chain.length)
    (hride : rideAfter chain c id = some p) : tracked scan chain c id = some p := by
  obtain ⟨t, ht, hfollows⟩ := walkAfter_follows hc id hid
  rcases hfollows with ⟨q, hq, -, col, hcol, hposition, -⟩ | ⟨j, -, hnone, hlt, -⟩
  · obtain rfl : q = p := Option.some.inj (hq.symm.trans hride)
    simp only [tracked, ht, Option.bind_some, hcol, Option.map_some, hposition]
  · rw [rideAfter_none_of_le hlt hnone] at hride
    cases hride

end Walk

/-! ## An operator that carries a column -/

section Carry

variable {p q : ℕ} {r r' : List V} {t t' : List (List V)}

mutual

theorem Interp.eval_congr (I : Interp V) (h : AgreeExcept p r r') (e : Expr)
    (hreads : readsColumn p e = false) : I.eval r e = I.eval r' e := by
  match e with
  | .reference i =>
    rw [readsColumn, beq_eq_false_iff_ne] at hreads
    rw [Interp.eval, Interp.eval, h.2 i hreads]
  | .cast kind child =>
    rw [readsColumn] at hreads
    rw [Interp.eval, Interp.eval, I.eval_congr h child hreads]
  | .node alternative children =>
    rw [readsColumn] at hreads
    rw [Interp.eval, Interp.eval, I.evalAll_congr h children hreads]

theorem Interp.evalAll_congr (I : Interp V) (h : AgreeExcept p r r') (es : List Expr)
    (hreads : readsAny p es = false) : I.evalAll r es = I.evalAll r' es := by
  match es with
  | [] => rfl
  | e :: es =>
    rw [readsAny, Bool.or_eq_false_iff] at hreads
    rw [Interp.evalAll, Interp.evalAll, I.eval_congr h e hreads.1, I.evalAll_congr h es hreads.2]

end

theorem carry_moves {op : Op} (h : op.carry p = some q) :
    (traceThrough op none p false false).1.readContent = false ∧
      (traceThrough op none p false false).1.asGroupKey = false ∧
      (traceThrough op none p false false).1.movedTo = some q := by
  simp only [Op.carry] at h
  split_ifs at h with hreads
  rw [Bool.not_eq_true, Bool.or_eq_false_iff] at hreads
  exact ⟨hreads.1, hreads.2, h⟩

theorem findIdx?_eq_some {cols : List ℕ} (h : cols.findIdx? (· == p) = some q) :
    cols[q]? = some p := by
  obtain ⟨hlt, heq, -⟩ := List.findIdx?_eq_some_iff_getElem.mp h
  rw [List.getElem?_eq_getElem hlt, beq_iff_eq.mp heq]

theorem carry_partition {keys : List ℕ} (h : (Op.partition keys).carry p = some q) :
    p ∉ keys ∧ q = p := by
  obtain ⟨hreads, -, hmoved⟩ := carry_moves h
  simp only [traceThrough, Bool.false_and] at hreads hmoved
  by_cases hkey : keys.contains p = true
  · rw [if_pos hkey] at hreads
    cases hreads
  · rw [if_neg hkey] at hmoved
    exact ⟨fun hp => hkey (List.contains_iff_mem.mpr hp), (Option.some.inj hmoved).symm⟩

theorem carry_concat {children : ℕ} (h : (Op.concat children).carry p = some q) :
    children = 1 ∧ q = p := by
  obtain ⟨hreads, -, hmoved⟩ := carry_moves h
  simp only [traceThrough] at hreads hmoved
  split_ifs at hreads hmoved with hone
  · exact ⟨hone, (Option.some.inj hmoved).symm⟩
  · cases hreads

theorem carry_buildFilter {under : Bool} (h : (Op.buildFilter under).carry p = some q) :
    under = true ∧ q = p := by
  obtain ⟨hreads, -, hmoved⟩ := carry_moves h
  simp only [traceThrough] at hreads hmoved
  split_ifs at hreads hmoved with hunder
  · exact ⟨hunder, (Option.some.inj hmoved).symm⟩
  · cases hreads

theorem carry_dynamicFilter {endpoint : Option (Option Channel)}
    (h : (Op.dynamicFilter endpoint).carry p = some q) :
    q = p ∧ (endpoint = some none ∨ ∃ channel, endpoint = some (some channel) ∧
      (channel.hasProducers = true → channel.unscoped = false ∧ p ∉ channel.targets)) := by
  obtain ⟨hreads, -, hmoved⟩ := carry_moves h
  match endpoint with
  | none => cases hreads
  | some none => exact ⟨(Option.some.inj hmoved).symm, .inl rfl⟩
  | some (some channel) =>
    simp only [traceThrough, traceDynamicFilter] at hreads hmoved
    split_ifs at hreads hmoved with hproducers hunscoped htarget
    · refine ⟨(Option.some.inj hmoved).symm, .inr ⟨channel, rfl, fun hhas => ?_⟩⟩
      rw [hhas] at hproducers
      cases hproducers
    · cases hreads
    · cases hreads
    · exact ⟨(Option.some.inj hmoved).symm, .inr ⟨channel, rfl, fun _ =>
        ⟨Bool.eq_false_iff.mpr hunscoped, fun hp => htarget (List.contains_iff_mem.mpr hp)⟩⟩⟩

/-- A group-by reads what it does not group by. -/
theorem traceGroupBy_reads (shape : Option GroupByShape) (p : ℕ) :
    ((traceGroupBy shape p).readContent || (traceGroupBy shape p).asGroupKey) = true := by
  unfold traceGroupBy
  split
  · rfl
  · split
    · split_ifs
      · rfl
      · rfl
    · simp [Step.groupKey]

theorem carry_groupBy (shape : Option GroupByShape) (p : ℕ) :
    (Op.groupBy shape).carry p = none :=
  if_pos (traceGroupBy_reads shape p)

theorem traceTopN_go {orders : List (Option ℕ)}
    (hreads : (traceTopN.go p orders).readContent = false) :
    none ∉ orders ∧ some p ∉ orders ∧ (traceTopN.go p orders).movedTo = some p := by
  induction orders with
  | nil => exact ⟨by simp, by simp, rfl⟩
  | cons order rest ih =>
    match order with
    | none => cases hreads
    | some index =>
      simp only [traceTopN.go] at hreads ⊢
      by_cases hindex : index = p
      · rw [if_pos hindex] at hreads
        cases hreads
      · rw [if_neg hindex] at hreads ⊢
        obtain ⟨hnone, hkey, hmoved⟩ := ih hreads
        refine ⟨by simp [hnone], ?_, hmoved⟩
        simp [hkey, Ne.symm hindex]

theorem carry_topN {orders : Option (List (Option ℕ))} (h : (Op.topN orders).carry p = some q) :
    q = p ∧ ∃ os, orders = some os ∧ none ∉ os ∧ some p ∉ os := by
  obtain ⟨hreads, -, hmoved⟩ := carry_moves h
  match orders with
  | none => cases hreads
  | some os =>
    obtain ⟨hnone, hkey, hmoved'⟩ := traceTopN_go hreads
    exact ⟨Option.some.inj (hmoved.symm.trans hmoved'), os, rfl, hnone, hkey⟩

theorem carry_filter {predicate : Option Expr} {mask : Option (List ℕ)}
    (h : (Op.filter predicate mask).carry p = some q) :
    (∀ e, predicate = some e → readsColumn p e = false) ∧ (Op.filter predicate mask).Copies p q := by
  obtain ⟨hreads, -, hmoved⟩ := carry_moves h
  simp only [traceThrough, traceFilter] at hreads hmoved
  by_cases hpredicate : predicate.any (readsColumn p) = true
  · rw [if_pos hpredicate] at hreads
    cases hreads
  · rw [if_neg hpredicate] at hmoved
    refine ⟨fun e he => ?_, ?_⟩
    · rw [he, Option.any_some] at hpredicate
      exact Bool.eq_false_iff.mpr hpredicate
    · cases mask with
      | none => exact (Option.some.inj hmoved).symm
      | some mask => exact findIdx?_eq_some hmoved

theorem carry_hashJoin {join : HashJoin} (h : (Op.hashJoin join).carry p = some q) :
    join.joinType.carries = true ∧ ∃ fromLhs, join.fromLhs = some fromLhs ∧
      join.comparedIn fromLhs p = [] ∧
      joinOutputPosition fromLhs join.lhsOutputColumns join.rhsOutputColumns p = some q := by
  obtain ⟨hreads, -, hmoved⟩ := carry_moves h
  simp only [traceThrough, traceHashJoin] at hreads hmoved
  by_cases hcarries : join.joinType.carries = true
  · rw [hcarries, Bool.not_true, if_neg Bool.false_ne_true] at hreads hmoved
    cases hside : join.fromLhs with
    | none => rw [hside] at hreads; cases hreads
    | some fromLhs =>
      simp only [hside] at hreads hmoved
      by_cases hcompared : join.comparedIn fromLhs p = []
      · rw [if_neg (not_not.mpr hcompared)] at hmoved
        exact ⟨hcarries, fromLhs, rfl, hcompared, hmoved⟩
      · rw [if_pos hcompared] at hreads
        cases hreads
  · rw [Bool.eq_false_iff.mpr hcarries, Bool.not_false, if_pos rfl] at hreads
    cases hreads

theorem Found.visit_computedWith {f : Found} {out : ℕ} {e : Option Expr}
    (h : (f.visit p out e).computedWith = false) :
    f.computedWith = false ∧
      ∀ e', e = some e' → readsColumn p e' = true → e' = .reference p ∨ e'.restored? = some p := by
  match e with
  | none => exact ⟨h, by simp⟩
  | some (.reference i) =>
    simp only [Found.visit] at h
    by_cases hi : i = p
    · refine ⟨?_, fun e' he' _ => .inl (by rw [← Option.some.inj he', hi])⟩
      rw [if_pos hi] at h
      split_ifs at h with hmoved
      exact h
    · rw [if_neg hi] at h
      refine ⟨h, fun e' he' hreads => ?_⟩
      rw [← Option.some.inj he', readsColumn, beq_iff_eq] at hreads
      exact absurd hreads hi
  | some (.cast kind child) =>
    simp only [Found.visit] at h
    cases hrestored : (Expr.cast kind child).restored? with
    | some i =>
      rw [hrestored] at h
      have hcomputed : f.computedWith = false := by
        simp only at h
        split_ifs at h
        · exact h
        · exact h
      refine ⟨hcomputed, fun e' he' hreads => .inr ?_⟩
      obtain rfl := Option.some.inj he'
      -- a carrier restore is over a bare reference, so it reads the column it restores
      match kind, child, hrestored with
      | .carrierRestore, .reference j, _ =>
        rw [readsColumn, readsColumn, beq_iff_eq] at hreads
        rw [Expr.restored?, hreads]
    | none =>
      rw [hrestored] at h
      simp only at h
      split_ifs at h with hreads
      exact ⟨h, fun e' he' hreads' => absurd (Option.some.inj he' ▸ hreads') hreads⟩
  | some (.node alternative children) =>
    simp only [Found.visit, Expr.restored?] at h
    split_ifs at h with hreads
    exact ⟨h, fun e' he' hreads' => absurd (Option.some.inj he' ▸ hreads') hreads⟩

theorem Found.visit_movedTo {f : Found} {out : ℕ} {e : Option Expr}
    (h : (f.visit p out e).movedTo = some q) :
    f.movedTo = some q ∨
      (q = out ∧ ∃ e', e = some e' ∧ (e' = .reference p ∨ e'.restored? = some p)) := by
  match e with
  | none => exact .inl h
  | some (.reference i) =>
    simp only [Found.visit] at h
    split_ifs at h with hi hmoved
    · exact .inr ⟨(Option.some.inj h).symm, _, rfl, .inl (by rw [hi])⟩
    · exact .inl h
    · exact .inl h
  | some (.cast kind child) =>
    simp only [Found.visit] at h
    cases hrestored : (Expr.cast kind child).restored? with
    | some i =>
      simp only [hrestored] at h
      split_ifs at h with hi
      · exact .inr ⟨(Option.some.inj h).symm, _, rfl, .inr (by rw [hrestored, hi.1])⟩
      · exact .inl h
    | none =>
      simp only [hrestored] at h
      split_ifs at h
      · exact .inl h
      · exact .inl h
  | some (.node alternative children) =>
    simp only [Found.visit, Expr.restored?] at h
    split_ifs at h
    · exact .inl h
    · exact .inl h

/-- The loop over a select list: without `computed_with` every read of the column is a
copy, and `moved_to` is one of them. -/
theorem Found.visitAll_spec (p q : ℕ) (es : List (Option Expr)) (out : ℕ) (f : Found) :
    ((Found.visitAll p out f es).computedWith = false → f.computedWith = false ∧
      ∀ (i : ℕ) e, es[i]? = some (some e) → readsColumn p e = true →
        e = .reference p ∨ e.restored? = some p) ∧
    ((Found.visitAll p out f es).movedTo = some q → f.movedTo = some q ∨
      ∃ (i : ℕ) (e : Expr), q = out + i ∧ es[i]? = some (some e) ∧ (e = .reference p ∨ e.restored? = some p)) := by
  induction es generalizing out f with
  | nil => exact ⟨fun h => ⟨h, by simp⟩, .inl⟩
  | cons e es ih =>
    obtain ⟨hcomputed, hmoved⟩ := ih (out + 1) (f.visit p out e)
    constructor
    · intro h
      obtain ⟨hvisit, hrest⟩ := hcomputed h
      obtain ⟨hf, hhead⟩ := Found.visit_computedWith hvisit
      refine ⟨hf, fun i e' he' hreads => ?_⟩
      cases i with
      | zero => exact hhead e' (Option.some.inj he') hreads
      | succ i => exact hrest i e' he' hreads
    · intro h
      rcases hmoved h with hvisit | ⟨i, e', rfl, he', hcopy⟩
      · rcases Found.visit_movedTo hvisit with hf | ⟨rfl, e', rfl, hcopy⟩
        · exact .inl hf
        · exact .inr ⟨0, e', rfl, rfl, hcopy⟩
      · exact .inr ⟨i + 1, e', by omega, he', hcopy⟩

theorem carry_projection {selectList : List (Option Expr)}
    (h : (Op.projection selectList).carry p = some q) :
    (∀ (i : ℕ) e, selectList[i]? = some (some e) → readsColumn p e = true →
        (Op.projection selectList).Copies p i) ∧ (Op.projection selectList).Copies p q := by
  obtain ⟨hreads, -, hmoved⟩ := carry_moves h
  obtain ⟨hcomputed, hplace⟩ := Found.visitAll_spec p q selectList 0 {}
  simp only [traceThrough, traceProjection] at hreads hmoved
  cases hwith : (Found.visitAll p 0 {} selectList).computedWith with
  | true => rw [hwith] at hreads; cases hreads
  | false =>
    rw [hwith] at hmoved
    obtain ⟨-, hcopies⟩ := hcomputed hwith
    refine ⟨fun i e he hr => ⟨e, he, hcopies i e he hr⟩, ?_⟩
    rcases hplace hmoved with hnone | ⟨i, e, hi, he, hcopy⟩
    · cases hnone
    · rw [Nat.zero_add] at hi
      rw [hi]
      exact ⟨e, he, hcopy⟩

/-- A gather of columns that takes `p` once, to `q`. -/
theorem Interp.project_confined (I : Interp V) (h : AgreeExcept p r r') {cols : List ℕ}
    (honce : ∀ i, cols[i]? = some p → i = q) :
    AgreeExcept q (I.project cols r) (I.project cols r') := by
  refine AgreeExcept.project cols fun i a ha hi => ?_
  rw [h.2 a]
  rintro rfl
  exact hi (honce i ha)

theorem Interp.gathered_confined (h : TablesAgree p t t') (i : Option ℕ) :
    AgreeExcept p (Interp.gathered t i) (Interp.gathered t' i) := by
  cases i with
  | none => exact AgreeExcept.refl p []
  | some i => exact h.getD i

theorem Interp.joinKey_congr (I : Interp V) (h : AgreeExcept p r r') {join : HashJoin}
    {fromLhs : Bool} (hcompared : join.comparedIn fromLhs p = []) :
    I.joinKey join.conditions fromLhs r = I.joinKey join.conditions fromLhs r' := by
  refine List.filterMap_congr fun c hc => ?_
  cases hside : c.side fromLhs with
  | none => rfl
  | some e =>
    have hreads : readsColumn p e = false := by
      obtain ⟨i, hi⟩ := List.mem_iff_getElem?.mp hc
      have hmem : (c, i) ∈ join.conditions.zipIdx := List.mem_zipIdx_iff_getElem?.mpr hi
      have hnone := List.filterMap_eq_nil_iff.mp hcompared (c, i) hmem
      simp only [hside, Option.any_some] at hnone
      split_ifs at hnone with hreads
      exact Bool.eq_false_iff.mpr hreads
    rw [Option.map_some, Option.map_some, I.eval_congr h e hreads]

theorem Interp.emitJoin_confined (I : Interp V) {id : ℕ} {join : HashJoin} {fromLhs : Bool}
    (hside : join.fromLhs = some fromLhs) (hcompared : join.comparedIn fromLhs p = [])
    (hq : (Op.hashJoin join).Copies p q) (honce : (Op.hashJoin join).CopiesOnce p)
    (h : TablesAgree p t t') :
    TablesAgree q (I.emitJoin id join fromLhs t) (I.emitJoin id join fromLhs t') := by
  have hkeys := h.map_eq fun r r' hr => I.joinKey_congr hr hcompared
  cases fromLhs with
  | true =>
    simp only [Interp.emitJoin, if_pos, hkeys]
    refine List.forall₂_map_left_iff.mpr (List.forall₂_map_right_iff.mpr
      (List.forall₂_same.mpr fun m _ => ?_))
    refine AgreeExcept.append_right (I.project_confined (Interp.gathered_confined h m.1) ?_)
    intro i hi
    exact honce i q (by simpa only [Op.Copies, hside, if_pos] using hi) hq
  | false =>
    simp only [Interp.emitJoin, if_neg Bool.false_ne_true, hkeys]
    refine List.forall₂_map_left_iff.mpr (List.forall₂_map_right_iff.mpr
      (List.forall₂_same.mpr fun m _ => ?_))
    have hne : ¬join.fromLhs = some true := by simp [hside]
    simp only [Op.Copies, if_neg hne] at hq
    have hwidth : (I.project join.lhsOutputColumns
        (Interp.gathered (I.otherInput id) m.1)).length = join.lhsOutputColumns.length := by
      simp [Interp.project]
    have hagree : AgreeExcept (q - join.lhsOutputColumns.length)
        (I.project join.rhsOutputColumns (Interp.gathered t m.2))
        (I.project join.rhsOutputColumns (Interp.gathered t' m.2)) := by
      refine I.project_confined (Interp.gathered_confined h m.2) fun i hi => ?_
      have hcopy : (Op.hashJoin join).Copies p (join.lhsOutputColumns.length + i) := by
        simp only [Op.Copies, if_neg hne, Nat.add_sub_cancel_left]
        exact ⟨Nat.le_add_right _ _, hi⟩
      have := honce _ q hcopy (by simpa only [Op.Copies, if_neg hne] using hq)
      omega
    have happend := AgreeExcept.append_left (l := I.project join.lhsOutputColumns
      (Interp.gathered (I.otherInput id) m.1)) hagree
    rwa [hwidth, Nat.add_sub_cancel' hq.1] at happend

/-- What an operator carries is copied where the walk says. -/
theorem copies_of_carry {op : Op} (h : op.carry p = some q) : op.Copies p q := by
  cases op with
  | partition keys => exact (carry_partition h).2
  | concat children => exact (carry_concat h).2
  | hashJoin join =>
    obtain ⟨-, fromLhs, hside, -, hmoved⟩ := carry_hashJoin h
    unfold joinOutputPosition at hmoved
    cases fromLhs with
    | true =>
      simp only [Op.Copies, hside, if_pos] at hmoved ⊢
      exact findIdx?_eq_some hmoved
    | false =>
      rw [if_neg Bool.false_ne_true, Option.map_eq_some_iff] at hmoved
      obtain ⟨i, hi, rfl⟩ := hmoved
      have hne : ¬join.fromLhs = some true := by simp [hside]
      simp only [Op.Copies, if_neg hne, Nat.add_sub_cancel_left]
      exact ⟨Nat.le_add_right _ _, findIdx?_eq_some hi⟩
  | dynamicFilter endpoint => exact (carry_dynamicFilter h).1
  | buildFilter under => exact (carry_buildFilter h).2
  | groupBy shape => rw [carry_groupBy] at h; cases h
  | topN orders => exact (carry_topN h).1
  | filter predicate mask => exact (carry_filter h).2
  | projection selectList => exact (carry_projection h).2
  | otherJoin => cases h
  | other => cases h

/-- A copy is the place the column moves to, if none was found before it. -/
theorem Found.visit_copy (f : Found) (out : ℕ) {e : Expr}
    (hcopy : e = .reference p ∨ e.restored? = some p) :
    (f.visit p out (some e)).movedTo.isNone = false := by
  rcases hcopy with rfl | hrestored
  · cases hmoved : f.movedTo <;> simp [Found.visit, hmoved]
  · match e, hrestored with
    | .cast .carrierRestore (.reference i), hrestored =>
      obtain rfl : i = p := Option.some.inj hrestored
      cases hmoved : f.movedTo <;> simp [Found.visit, Expr.restored?, hmoved]

theorem Found.visit_moved {f : Found} (hf : f.movedTo.isNone = false) (out : ℕ)
    (e : Option Expr) : (f.visit p out e).movedTo = f.movedTo := by
  unfold Found.visit
  split
  · rfl
  · split_ifs <;> simp_all
  · split
    · split_ifs <;> simp_all
    · split_ifs <;> rfl

/-- Once the column moved, a bare reference to it is a read. -/
theorem Found.visitAll_moved {es : List (Option Expr)} {out : ℕ} {f : Found}
    (hf : f.movedTo.isNone = false) (h : (Found.visitAll p out f es).computedWith = false) :
    some (.reference p) ∉ es := by
  induction es generalizing out f with
  | nil => simp
  | cons e es ih =>
    have hmoved := Found.visit_moved (p := p) hf out e
    have hrest := ih (hmoved ▸ hf) h
    obtain ⟨hvisit, -⟩ := (Found.visitAll_spec p 0 es (out + 1) _).1 h
    rintro (_ | ⟨_, hmem⟩)
    · simp [Found.visit, hf] at hvisit
    · exact hrest hmem

/-- No bare reference to the column stands behind a copy of it. -/
theorem Found.visitAll_pairwise {es : List (Option Expr)} {out : ℕ} {f : Found}
    (h : (Found.visitAll p out f es).computedWith = false) :
    es.Pairwise fun e e' => ∀ a ∈ e, a = .reference p ∨ a.restored? = some p →
      e' ≠ some (.reference p) := by
  induction es generalizing out f with
  | nil => exact List.Pairwise.nil
  | cons e es ih =>
    refine List.Pairwise.cons (fun e' he' a ha hcopy heq => ?_) (ih h)
    obtain rfl : e = some a := ha
    exact Found.visitAll_moved (Found.visit_copy f out hcopy) h (heq ▸ he')

/-- An operator that names each column once copies one that it carries to one place. -/
theorem copiesOnce_of_carry {op : Op} (h : op.carry p = some q) (hnames : op.NamesOnce) :
    op.CopiesOnce p := by
  have hnodup : ∀ {cols : List ℕ} {i j : ℕ}, cols.Nodup → cols[i]? = some p →
      cols[j]? = some p → i = j := by
    intro cols i j hcols hi hj
    exact (List.getElem?_inj (List.getElem?_eq_some_iff.mp hi).1 hcols).mp (hi.trans hj.symm)
  intro i j hi hj
  cases op with
  | filter predicate mask =>
    cases mask with
    | none => exact Eq.trans hi (Eq.symm hj)
    | some mask => exact hnodup hnames hi hj
  | hashJoin join =>
    simp only [Op.Copies, Op.NamesOnce] at hi hj hnames
    split_ifs at hi hj hnames
    · exact hnodup hnames hi hj
    · have := hnodup hnames hi.2 hj.2
      omega
  | projection selectList =>
    obtain ⟨hreads, -, -⟩ := carry_moves h
    simp only [traceThrough, traceProjection] at hreads
    cases hwith : (Found.visitAll p 0 {} selectList).computedWith with
    | true => rw [hwith] at hreads; cases hreads
    | false =>
      -- behind a copy stands neither a bare reference nor, as the list names once, a restore
      have hapart : ∀ i j : ℕ, i < j → (Op.projection selectList).Copies p i →
          ¬(Op.projection selectList).Copies p j := by
        rintro i j hij ⟨e, he, hcopy⟩ ⟨e', he', hcopy'⟩
        obtain ⟨hlt, hget⟩ := List.getElem?_eq_some_iff.mp he
        obtain ⟨hlt', hget'⟩ := List.getElem?_eq_some_iff.mp he'
        have hbare := List.pairwise_iff_getElem.mp (Found.visitAll_pairwise hwith) i j hlt hlt' hij
        have hrestore := List.pairwise_iff_getElem.mp hnames i j hlt hlt' hij
        rw [hget, hget'] at hbare hrestore
        rcases hcopy' with rfl | hrestored
        · exact hbare e rfl hcopy rfl
        · exact hrestore e rfl e' rfl p hcopy hrestored
      rcases lt_trichotomy i j with hij | hij | hij
      · exact absurd hj (hapart i j hij hi)
      · exact hij
      · exact absurd hi (hapart j i hij hj)
  | _ => exact Eq.trans hi (Eq.symm hj)

/-- **An operator that carries a column to one place** emits the same rows whatever the
column holds, but for that place. -/
theorem carry_confined (I : Interp V) (id : ℕ) {op : Op} (h : op.carry p = some q)
    (honce : op.CopiesOnce p) (ht : TablesAgree p t t') :
    TablesAgree q (I.emit id op t) (I.emit id op t') := by
  have hcopies := copies_of_carry h
  cases op with
  | partition keys =>
    obtain ⟨hkeys, rfl⟩ := carry_partition h
    refine ht.buckets (fun r r' hr => ?_) _
    rw [Interp.project, Interp.project, hr.values hkeys]
  | concat children =>
    obtain ⟨rfl, rfl⟩ := carry_concat h
    exact ht
  | hashJoin join =>
    obtain ⟨hcarries, fromLhs, hside, hcompared, -⟩ := carry_hashJoin h
    simp only [Interp.emit, hcarries, Bool.not_true, if_neg Bool.false_ne_true, hside]
    exact I.emitJoin_confined hside hcompared hcopies honce ht
  | dynamicFilter endpoint =>
    obtain ⟨rfl, rfl | ⟨channel, rfl, hproducers⟩⟩ := carry_dynamicFilter h
    · exact ht
    · simp only [Interp.emit]
      cases hhas : channel.hasProducers with
      | false => simpa using ht
      | true =>
        obtain ⟨hunscoped, htargets⟩ := hproducers hhas
        simp only [Bool.not_true, hunscoped, if_neg Bool.false_ne_true]
        refine ht.filter fun r r' hr => ?_
        rw [Interp.project, Interp.project, hr.values htargets]
  | buildFilter under =>
    obtain ⟨rfl, rfl⟩ := carry_buildFilter h
    exact ht
  | groupBy shape => rw [carry_groupBy] at h; cases h
  | topN orders =>
    obtain ⟨rfl, os, rfl, hnone, hkey⟩ := carry_topN h
    have hcontains : ¬os.contains none = true := fun hc => hnone (List.contains_iff_mem.mp hc)
    simp only [Interp.emit, if_neg hcontains]
    have hkeys : t.map (I.project (os.filterMap fun o => o)) =
        t'.map (I.project (os.filterMap fun o => o)) := by
      refine ht.map_eq fun r r' hr => hr.values ?_ _
      simpa using hkey
    rw [hkeys]
    exact ht.gather _
  | filter predicate mask =>
    obtain ⟨hpredicate, -⟩ := carry_filter h
    have hkept : TablesAgree p
        (t.filter fun r => (predicate.map fun e => I.truth (I.eval r e)).getD true)
        (t'.filter fun r => (predicate.map fun e => I.truth (I.eval r e)).getD true) := by
      refine ht.filter fun r r' hr => ?_
      cases predicate with
      | none => rfl
      | some e => simp only [Option.map_some, I.eval_congr hr e (hpredicate e rfl)]
    cases mask with
    | none =>
      obtain rfl : q = p := hcopies
      exact hkept
    | some mask =>
      exact hkept.map fun r r' hr => I.project_confined hr fun i hi => honce i q hi hcopies
  | projection selectList =>
    obtain ⟨hreads, -⟩ := carry_projection h
    refine ht.map fun r r' hr => AgreeExcept.project selectList fun i e he hi => ?_
    cases e with
    | none => rfl
    | some e =>
      have hunread : readsColumn p e = false := by
        by_contra hread
        exact hi (honce i q (hreads i e he (Bool.not_eq_false _ ▸ hread)) hcopies)
      simp only [Interp.evalOut, Option.map_some, I.eval_congr hr e hunread]
  | otherJoin => cases h
  | other => cases h

end Carry

/-! ## Whole plans -/

section Plans

variable {chain : List Node} {c : ℕ}

theorem rideAfter_succ {k p : ℕ} {node : Node} (hnode : chain[k]? = some node)
    (h : rideAfter chain c (k + 1) = some p) :
    ∃ p', rideAfter chain c k = some p' ∧ node.op.carry p' = some p := by
  rw [rideAfter, hnode] at h
  exact Option.bind_eq_some_iff.mp h

theorem Interp.emitted_succ (I : Interp V) {k : ℕ} {node : Node} (hnode : chain[k]? = some node)
    (rows : List (List V)) :
    I.emitted chain rows (k + 1) = I.emit (k + 1) node.op (I.emitted chain rows k) := by
  rw [Interp.emitted, hnode]

/-- A ride past operators that copy the column once. -/
theorem Interp.emitted_confined (I : Interp V) {rows rows' : List (List V)}
    (hrows : TablesAgree c rows rows') {id : ℕ} (hid : id ≤ chain.length)
    (honce : ∀ k node p, k < id → chain[k]? = some node → rideAfter chain c k = some p →
      node.op.CopiesOnce p) {p : ℕ} (hride : rideAfter chain c id = some p) :
    TablesAgree p (I.emitted chain rows id) (I.emitted chain rows' id) := by
  induction id generalizing p with
  | zero =>
    obtain rfl := Option.some.inj hride
    exact hrows
  | succ k ih =>
    have hnode : chain[k]? = some chain[k] := List.getElem?_eq_getElem (by omega)
    obtain ⟨p', hride', hcarry⟩ := rideAfter_succ hnode hride
    rw [I.emitted_succ hnode, I.emitted_succ hnode]
    exact carry_confined I _ hcarry (honce k _ p' (by omega) hnode hride')
      (ih (by omega) (fun j node p hj => honce j node p (by omega)) hride')

/-- The interpretation in which every operator passes on the one row it gets. -/
def passing (a : V) : Interp V where
  null := a
  cast _ v := v
  apply _ _ := a
  truth _ := true
  partitions _ := 1
  bucket _ _ := 0
  joinMaps _ _ _ := [(some 0, some 0)]
  otherInput _ := []
  published _ _ := true
  topRows _ _ := [0]
  whole _ t := t

end Plans

/-- **A column's values matter below its first reader at one place only.** For every chain of
operators above a scan that name each column once and every column `c` of the scan: whatever
the operators compute, for any two scan outputs that differ in `c` only every operator
strictly below `first_reader` emits the same rows but for the tracked position. -/
theorem lifetimes_confined (I : Interp V) (scan : Scan) (chain : List Node)
    (hnames : ∀ node ∈ chain, node.op.NamesOnce) (c : ℕ) (hc : c < scan.width) :
    Confined I scan chain c := by
  intro rows rows' _ hagree id hbelow
  obtain ⟨hid, p, hp⟩ := (below_iff_ride hc id).mp hbelow
  refine ⟨p, tracked_eq_ride hc hid hp, I.emitted_confined hagree hid ?_ hp⟩
  intro k node p' hk hnode hride
  cases hnext : rideAfter chain c (k + 1) with
  | none => rw [rideAfter_none_of_le hk hnext] at hp; cases hp
  | some q =>
    obtain ⟨p'', hride', hcarry⟩ := rideAfter_succ hnode hnext
    obtain rfl : p' = p'' := Option.some.inj (hride.symm.trans hride')
    exact copiesOnce_of_carry hcarry (hnames node (List.mem_of_getElem? hnode))

/-- A filter that swaps its columns, a projection that doubles column `1` of them, and a
group-by on it. -/
def renamed : List Node :=
  [⟨.filter none (some [1, 0]), false⟩,
    ⟨.projection [some (.cast .carrierRestore (.reference 0)), some (.reference 1),
      some (.reference 1)], false⟩,
    ⟨.groupBy (some ⟨[0], [], [], []⟩), true⟩]

theorem lifetimes_confined_renamed :
    (analyzeColumnLifetimes ⟨2, false⟩ renamed).map ColumnLifetime.firstReader =
      [some 2, some 3] ∧ Confined (passing 0) ⟨2, false⟩ renamed 1 :=
  ⟨rfl, lifetimes_confined (passing 0) ⟨2, false⟩ renamed
    (by simp [renamed, Op.NamesOnce, Expr.restored?]) 1 (by decide)⟩

section CopiedTwice

/-- An output mask that lists the column twice. -/
def maskedTwice : List Node := [⟨.filter none (some [0, 0]), false⟩]

/-- A join that projects the column of its left side twice. -/
def joinedTwice : List Node := [⟨.hashJoin ⟨.inner, some true, [], [0, 0], []⟩, false⟩]

/-- A column next to its own carrier restore. -/
def restoredTwice : List Node :=
  [⟨.projection [some (.reference 0), some (.cast .carrierRestore (.reference 0))], false⟩]

/-- A column with no reader whose values two output positions follow. -/
theorem not_confined_of_copied {chain : List Node} (hone : chain.length = 1)
    (hreader : ∀ life, (analyzeColumnLifetimes ⟨1, false⟩ chain)[0]? = some life →
      life.firstReader = none)
    (htracked : tracked ⟨1, false⟩ chain 0 1 = some 0)
    (hemitted : ∀ v, (passing 0).emitted chain [[v]] 1 = [[v, v]]) :
    ¬Confined (passing 0) ⟨1, false⟩ chain 0 := by
  intro hconfined
  have hagree : TablesAgree 0 [[0]] [[1]] := by
    refine List.Forall₂.cons ⟨rfl, fun i hi => ?_⟩ List.Forall₂.nil
    rw [List.getElem?_eq_none (by simp; omega), List.getElem?_eq_none (by simp; omega)]
  have hbelow : Below ⟨1, false⟩ chain 0 1 := by
    refine ⟨hone.ge, fun life hlife reader hread => ?_⟩
    rw [hreader life hlife] at hread
    cases hread
  obtain ⟨p, hp, htables⟩ := hconfined [[0]] [[1]] (by simp) hagree 1 hbelow
  obtain rfl : 0 = p := Option.some.inj (htracked.symm.trans hp)
  rw [hemitted 0, hemitted 1] at htables
  have hvalue := (List.forall₂_cons.mp htables).1.2 1 (by decide)
  exact absurd hvalue (by decide)

/-- No operator of the three is reported to read the column, and both outputs follow its
values. -/
theorem copied_twice_not_confined :
    ¬Confined (passing 0) ⟨1, false⟩ maskedTwice 0 ∧
      ¬Confined (passing 0) ⟨1, false⟩ joinedTwice 0 ∧
      ¬Confined (passing 0) ⟨1, false⟩ restoredTwice 0 := by
  refine ⟨not_confined_of_copied rfl ?_ rfl fun v => rfl,
    not_confined_of_copied rfl ?_ rfl fun v => rfl, not_confined_of_copied rfl ?_ rfl fun v => rfl⟩
  all_goals
    intro life hlife
    obtain rfl := Option.some.inj hlife
    rfl

end CopiedTwice

end Sirius.Planner.LateMat
