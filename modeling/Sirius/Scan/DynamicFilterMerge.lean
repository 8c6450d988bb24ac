import Sirius.Common.RetentionMask

/-!
# Dynamic-filter compaction strategies

Model of the three compaction strategies of
`src/op/scan/dynamic_filter_merge.cpp` (lines 622–922) and of
`fold_dynamic_filter_mask` (`src/cuda/dynamic_filter_mask_ops.cu`, lines
126–147). Each of them applies an optional AST mask and then an ordered list of
membership filters to a batch:

* CASCADE compacts the whole batch after every filter,
* DEFERRED_KEYS compacts row IDs and the last key column, and gathers the other
  columns at the end,
* GATHER_ONCE folds the masks into one conjunction and compacts once.

A batch is a list of columns of one length. A null mask value rejects its row, as
a false one does, so masks are lists of Booleans. `cudf::apply_retention_mask` and
`cudf::gather` are parameters.
-/

namespace Sirius.Scan

open Sirius.Common

variable {V : Type} [Inhabited V]

/-! ## The kernels of cuDF -/

/-- `cudf::apply_retention_mask` and `cudf::gather`, on one column of a table: both treat
    the columns of a table alike. -/
structure Kernels where
  applyRetentionMask : {α : Type} → List α → List Bool → List α
  gather : {α : Type} → List α → List ℕ → List α

/-- What cuDF documents of them. A gather whose map leaves the column is not defined, as the
    calls pass `DONT_CHECK`. -/
structure Kernels.Documented (k : Kernels) : Prop where
  applyRetentionMask : ∀ α : Type, IsRetentionMask (k.applyRetentionMask (α := α))
  gather : ∀ (α : Type) (xs : List α) (ids : List ℕ), (∀ i ∈ ids, i < xs.length) →
    (k.gather xs ids).map some = ids.map fun i => xs[i]?

/-! ## Batches -/

/-- `cudf::table_view`: columns of `numRows` values. -/
structure Batch (V : Type) where
  numRows : ℕ
  columns : List (List V)
  deriving DecidableEq, Repr

namespace Batch

/-- Every column has a value for every row. -/
def Aligned (b : Batch V) : Prop := ∀ c ∈ b.columns, c.length = b.numRows

/-- `column(c)`. -/
def column (b : Batch V) (c : ℕ) : List V := b.columns.getD c []

/-- The value of column `c` in row `i`. -/
def cell (b : Batch V) (c i : ℕ) : V := (b.column c).getD i default

/-- `sirius::apply_retention_mask(table, mask)`, which forwards to cuDF. -/
def retain (k : Kernels) (b : Batch V) (mask : List Bool) : Batch V where
  numRows := (k.applyRetentionMask (List.range b.numRows) mask).length
  columns := b.columns.map fun c => k.applyRetentionMask c mask

/-- `cudf::gather(table, ids)`. -/
def gather (k : Kernels) (b : Batch V) (ids : List ℕ) : Batch V where
  numRows := ids.length
  columns := b.columns.map fun c => k.gather c ids

end Batch

/-! ## Programs -/

/-- `sirius_mask_applicable`: a filter whose mask is pointwise in its key. It may
    decline every probe; `compute_mask_if` agrees with `compute_mask` on the rows
    that the prior mask keeps. -/
structure MaskSource (V : Type) where
  keep : V → Bool
  contributes : Bool
  maskIf : List V → List Bool → List Bool
  length_maskIf : ∀ probe prior, (maskIf probe prior).length = probe.length
  maskIf_agrees : ∀ (probe : List V) (prior : List Bool) (i : ℕ) (v : V),
    prior[i]? = some true → probe[i]? = some v → (maskIf probe prior)[i]? = some (keep v)

/-- `compute_mask(probe)`: null when the filter declines. -/
def MaskSource.computeMask (m : MaskSource V) (probe : List V) : Option (List Bool) :=
  if m.contributes then some (probe.map m.keep) else none

/-- `compute_mask_if(probe, prior_keep)`. -/
def MaskSource.computeMaskIf (m : MaskSource V) (probe : List V) (prior : List Bool) :
    Option (List Bool) :=
  if m.contributes then some (m.maskIf probe prior) else none

/-- A filter with the `compute_mask_if` of the base class
    (`sirius_dynamic_filter.hpp`, lines 248–256), which ignores the prior mask. -/
def MaskSource.ofKeep (keep : V → Bool) (contributes : Bool) : MaskSource V where
  keep := keep
  contributes := contributes
  maskIf := fun probe _ => probe.map keep
  length_maskIf := fun _ _ => List.length_map _
  maskIf_agrees := fun probe _ i v _ hv => by rw [List.getElem?_map, hv]; rfl

/-- `applied_entry`: a filter and the output ordinal it is bound to. -/
structure AppliedEntry where
  filter : ℕ
  outputOrdinal : ℕ
  deriving DecidableEq, Repr

/-- `selected_step` with a mask source. -/
structure MembershipStep (V : Type) where
  column : ℕ
  source : MaskSource V
  represented : List AppliedEntry := []

/-- `selected_step` with an AST source: the expression of `to_ast` on its
    column. -/
structure AstStep (V : Type) where
  column : ℕ
  keep : V → Bool
  represented : List AppliedEntry := []

/-- `application_program_state`; `applied` is the receipt, with the capacity that
    `prepare_state` reserved. -/
structure Program (V : Type) where
  ast : List (AstStep V) := []
  membership : List (MembershipStep V)
  wantCounts : Bool := false
  applied : List AppliedEntry := []
  capacity : ℕ := 0

/-- `application_result_state`. -/
structure Result (V : Type) where
  output : Option (Batch V) := none
  counts : List ℕ := []
  contributed : List Bool
  astContributed : Bool

/-- The AST mask: the conjunction of the expressions over the input, or null
    without any (`execute_program`, lines 1109–1121). -/
def Program.astMask (p : Program V) (input : Batch V) : Option (List Bool) :=
  if p.ast.isEmpty then none
  else some ((List.range input.numRows).map fun i =>
    p.ast.all fun step => step.keep (input.cell step.column i))

/-- `any_contributed(result)` (lines 625–628). -/
def anyContributed (astContributed : Bool) (contributed : List Bool) : Bool :=
  astContributed || contributed.any id

variable (k : Kernels)

/-! ## CASCADE -/

/-- The loop of `apply_cascade` (lines 703–715): the output, the counts and the
    flags. -/
def cascadeSteps : Batch V → Option (Batch V) → List (MembershipStep V) →
    Option (Batch V) × List ℕ × List Bool
  | _, output, [] => (output, [], [])
  | current, output, step :: steps =>
    let mask :=
      if current.numRows ≠ 0 then step.source.computeMask (current.column step.column) else none
    let next := (mask.map (current.retain k)).getD current
    let rest := cascadeSteps next ((mask.map (current.retain k)).or output) steps
    (rest.1, next.numRows :: rest.2.1, mask.isSome :: rest.2.2)

/-- `apply_cascade` (lines 692–716). -/
def applyCascade (p : Program V) (input : Batch V) : Result V :=
  let output := (p.astMask input).map (input.retain k)
  let current := output.getD input
  let rest := cascadeSteps k current output p.membership
  { output := rest.1
    counts := current.numRows :: rest.2.1
    contributed := rest.2.2
    astContributed := (p.astMask input).isSome }

/-! ## DEFERRED_KEYS -/

/-- `deferred_selection_state`; the aligned key is the index and the values of the
    key column that was compacted with the row IDs. -/
structure DeferredState (V : Type) where
  rowIds : List ℕ
  alignedKey : Option (ℕ × List V) := none

/-- The probe of a step (lines 760–775): the key column is gathered unless the row
    IDs are still those of the input, or it is the aligned key. -/
def DeferredState.align (s : DeferredState V) (input : Batch V) (column : ℕ) :
    Option (ℕ × List V) :=
  if s.alignedKey = none ∧ s.rowIds.length = input.numRows then none
  else if ∃ k ∈ s.alignedKey, k.1 = column then s.alignedKey
  else some (column, k.gather (input.column column) s.rowIds)

/-- One step (lines 757–796); `next` is the step that follows. -/
def deferredStep (input : Batch V) (s : DeferredState V) (step : MembershipStep V)
    (next : Option (MembershipStep V)) : DeferredState V × Bool :=
  if s.rowIds.length ≠ 0 then
    let aligned := s.align k input step.column
    let probe := (aligned.map Prod.snd).getD (input.column step.column)
    match step.source.computeMask probe with
    | some mask =>
      let keepKey := next.all fun n => n.column = step.column
      ({ rowIds := k.applyRetentionMask s.rowIds mask
         alignedKey := if keepKey then some (step.column, k.applyRetentionMask probe mask)
          else none }, true)
    | none => ({ s with alignedKey := aligned }, false)
  else (s, false)

def deferredSteps (input : Batch V) : DeferredState V → List (MembershipStep V) →
    DeferredState V × List ℕ × List Bool
  | s, [] => (s, [], [])
  | s, step :: steps =>
    let next := deferredStep k input s step steps.head?
    let rest := deferredSteps input next.1 steps
    (rest.1, next.1.rowIds.length :: rest.2.1, next.2 :: rest.2.2)

/-- The output (lines 799–820): the aligned key is reused, and the other columns
    are gathered. -/
def DeferredState.output (s : DeferredState V) (input : Batch V) : Batch V :=
  match s.alignedKey with
  | none => input.gather k s.rowIds
  | some (index, key) =>
    { numRows := s.rowIds.length
      columns := input.columns.mapIdx fun i c =>
        if i = index then key else k.gather c s.rowIds }

/-- `apply_deferred_keys` (lines 731–821). -/
def applyDeferredKeys (p : Program V) (input : Batch V) : Result V :=
  let ids := List.range input.numRows
  let state : DeferredState V :=
    { rowIds := ((p.astMask input).map (k.applyRetentionMask ids)).getD ids }
  let rest := deferredSteps k input state p.membership
  { output := if anyContributed (p.astMask input).isSome rest.2.2 then some (rest.1.output k input)
      else none
    counts := state.rowIds.length :: rest.2.1
    contributed := rest.2.2
    astContributed := (p.astMask input).isSome }

/-! ## GATHER_ONCE -/

/-- `fold_dynamic_filter_mask(running, incoming, count, initialize)`; `fresh` is
    `initialize`. -/
def foldMask (running : List Bool) (incoming : Option (List Bool)) (fresh : Bool) :
    List Bool :=
  match incoming with
  | some mask => running.zipWith (fun r k => (fresh || r) && k) mask
  | none => running.map fun r => fresh || r

/-- The loop of `fold_membership_masks` (lines 868–887): the conjunction, the
    prefix counts and the flags. `prior` is `i != 0 || has_initial_mask`. -/
def foldMembershipMasks (input : Batch V) : Bool → List Bool → List (MembershipStep V) →
    List Bool × List ℕ × List Bool
  | _, running, [] => (running, [], [])
  | prior, running, step :: steps =>
    let probe := input.column step.column
    let mask := if prior then step.source.computeMaskIf probe running
      else step.source.computeMask probe
    let next := foldMask running mask (!prior)
    let rest := foldMembershipMasks input true next steps
    (rest.1, next.count true :: rest.2.1, mask.isSome :: rest.2.2)

/-- `apply_gather_once` (lines 891–922). `raw` is the conjunction column before
    it is initialized. The counts are read back when the program wants them; the
    first one is the input's, or that of the AST mask. -/
def applyGatherOnce (p : Program V) (input : Batch V) (raw : List Bool) : Result V :=
  if p.ast.isEmpty ∧ p.membership.length = 1 then applyCascade k p input
  else
    let mask := p.astMask input
    let start := if mask.isSome then foldMask raw mask true else raw
    let rest := foldMembershipMasks input mask.isSome start p.membership
    { output := if anyContributed mask.isSome rest.2.2 then some (input.retain k rest.1) else none
      counts := if p.wantCounts then
          (if mask.isSome then start.count true else input.numRows) :: rest.2.1
        else []
      contributed := rest.2.2
      astContributed := mask.isSome }

/-! ## Receipts -/

/-- `final_rows` (line 1165): the rows that the consumer sees. -/
def Result.rows (r : Result V) (input : Batch V) : Batch V := r.output.getD input

/-- Append the entries that are new and fit (lines 655–661). -/
def addEntries (capacity : ℕ) (applied : List AppliedEntry) (entries : List AppliedEntry) :
    List AppliedEntry :=
  entries.foldl (fun applied e =>
    if e ∉ applied ∧ applied.length < capacity then applied ++ [e] else applied) applied

/-- `add_receipt_coverage` (lines 650–668): the new receipt. -/
def addReceiptCoverage (p : Program V) (input : Batch V) (r : Result V) : List AppliedEntry :=
  let applied := if r.astContributed then
      p.ast.foldl (fun applied step => addEntries p.capacity applied step.represented) p.applied
    else p.applied
  (List.range p.membership.length).foldl (fun applied i =>
    let ran := if r.counts.isEmpty then decide (0 < (r.rows input).numRows)
      else decide (0 < r.counts.getD i 0)
    if r.contributed.getD i false && ran then
      addEntries p.capacity applied ((p.membership.map MembershipStep.represented).getD i [])
    else applied) applied

end Sirius.Scan
