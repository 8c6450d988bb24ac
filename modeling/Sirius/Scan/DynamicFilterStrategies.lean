import Sirius.Scan.DynamicFilterMerge

/-!
# The compaction strategies agree

Every intermediate state of the three strategies is a selection of row numbers of
the input: CASCADE holds the batch gathered at these rows, DEFERRED_KEYS the rows
and maybe one column gathered at them, and GATHER_ONCE the mask of these rows. A
step that contributes filters the selection, and a step that declines keeps it.

* `survivors`: the rows that satisfy the contributing filters.
* `strategies_agree`: the three strategies return them, with the same counts and
  a receipt that names only filters they satisfy.
-/

namespace Sirius.Scan

open Sirius.Common

variable {V : Type} [Inhabited V] {k : Kernels}

/-! ## The selected rows -/

/-- The rows `ids` of a batch, in that order. -/
def Batch.rowsAt (b : Batch V) (ids : List ℕ) : Batch V where
  numRows := ids.length
  columns := b.columns.map fun c => ids.map fun i => c.getD i default

/-- The step lets row `i` of the input pass: it declines, or keeps the key. -/
def MembershipStep.passes (step : MembershipStep V) (input : Batch V) (i : ℕ) : Bool :=
  !step.source.contributes || step.source.keep (input.cell step.column i)

/-- Every AST step keeps row `i` of the input. -/
def Program.astPasses (p : Program V) (input : Batch V) (i : ℕ) : Bool :=
  p.ast.all fun step => step.keep (input.cell step.column i)

/-- The rows of `ids` that pass every step. -/
def selected (input : Batch V) (ids : List ℕ) (steps : List (MembershipStep V)) : List ℕ :=
  ids.filter fun i => steps.all fun step => step.passes input i

/-- How many rows of `ids` are left after each step. -/
def prefixCounts (input : Batch V) (ids : List ℕ) : List (MembershipStep V) → List ℕ
  | [] => []
  | step :: steps =>
    (ids.filter (step.passes input)).length ::
      prefixCounts input (ids.filter (step.passes input)) steps

/-- The rows of the input that satisfy the AST filters. -/
def Program.entering (p : Program V) (input : Batch V) : List ℕ :=
  (List.range input.numRows).filter (p.astPasses input)

/-- The rows of the input that satisfy the conjunction of the contributing
    filters, in their order. -/
def Program.survivors (p : Program V) (input : Batch V) : List ℕ :=
  selected input (p.entering input) p.membership

/-- The rows that enter the first step, and those left after each step. -/
def Program.counts (p : Program V) (input : Batch V) : List ℕ :=
  (p.entering input).length :: prefixCounts input (p.entering input) p.membership

theorem selected_cons (input : Batch V) (ids : List ℕ) (step : MembershipStep V)
    (steps : List (MembershipStep V)) :
    selected input ids (step :: steps) = selected input (ids.filter (step.passes input)) steps := by
  unfold selected
  rw [List.filter_filter]
  congr 1
  funext i
  rw [List.all_cons, Bool.and_comm]

/-- A step that declines keeps every row. -/
theorem filter_passes_declined {step : MembershipStep V} (h : step.source.contributes = false)
    (input : Batch V) (ids : List ℕ) : ids.filter (step.passes input) = ids := by
  apply List.filter_eq_self.mpr
  intro i _
  simp [MembershipStep.passes, h]

theorem passes_contributing {step : MembershipStep V} (h : step.source.contributes = true)
    (input : Batch V) :
    step.passes input = fun i => step.source.keep (input.cell step.column i) := by
  funext i
  simp [MembershipStep.passes, h]

namespace Batch

variable (b : Batch V)

theorem rowsAt_range (h : b.Aligned) : b.rowsAt (List.range b.numRows) = b := by
  cases b with
  | mk n columns =>
    unfold rowsAt
    simp only [List.length_range, mk.injEq, true_and]
    conv_rhs => rw [← List.map_id columns]
    apply List.map_congr_left
    intro c hc
    apply List.ext_getElem
    · simp [h c hc]
    · intro i hi hi'
      have hi'' : i < c.length := hi'
      simp [hi'']

theorem retain_rowsAt (hk : k.Documented) (ids : List ℕ) (p : ℕ → Bool) :
    (b.rowsAt ids).retain k (ids.map p) = b.rowsAt (ids.filter p) := by
  unfold retain rowsAt
  simp only [mk.injEq, List.map_map]
  constructor
  · have hlen : (List.range ids.length).length = ids.length := List.length_range
    have hkept := retained_map ids id p
    rw [List.map_id, List.map_id] at hkept
    rw [hk.applyRetentionMask ℕ _ _ (by simp), length_retained hlen, hkept]
  · apply List.map_congr_left
    intro c _
    exact (hk.applyRetentionMask V).map ids _ p

theorem column_rowsAt (ids : List ℕ) {c : ℕ} (hc : c < b.columns.length) :
    (b.rowsAt ids).column c = ids.map (b.cell c) := by
  unfold column rowsAt
  rw [List.getD_eq_getElem _ _ (by simpa using hc), List.getElem_map]
  apply List.map_congr_left
  intro i _
  rw [cell, column, List.getD_eq_getElem _ _ hc]

theorem cell_rowsAt (ids : List ℕ) (c : ℕ) {j : ℕ} (hj : j < ids.length) :
    (b.rowsAt ids).cell c j = b.cell c ids[j] := by
  by_cases hc : c < b.columns.length
  · rw [cell, column_rowsAt b ids hc, List.getD_eq_getElem _ _ (by simpa using hj),
      List.getElem_map]
  · have hnone : ∀ b' : Batch V, b'.columns.length = b.columns.length → b'.column c = [] := by
      intro b' hlen
      exact List.getD_eq_default _ _ (by omega)
    rw [cell, cell, hnone _ (by simp [rowsAt]), hnone b rfl]
    rfl

end Batch

/-! ## CASCADE -/

section Strategies

variable {input : Batch V}

variable {step : MembershipStep V}

/-- One step of the cascade keeps the batch, or compacts it to the rows that
    pass. -/
theorem cascade_mask (hk : k.Documented) (hc : step.column < input.columns.length) (ids : List ℕ) :
    let mask := if (input.rowsAt ids).numRows ≠ 0 then
      step.source.computeMask ((input.rowsAt ids).column step.column) else none
    (mask = none ∧ ids.filter (step.passes input) = ids) ∨
      ∃ m, mask = some m ∧ step.source.contributes = true ∧
        (input.rowsAt ids).retain k m = input.rowsAt (ids.filter (step.passes input)) := by
  dsimp only
  split_ifs with hrows
  · rw [input.column_rowsAt ids hc, MaskSource.computeMask]
    cases hcon : step.source.contributes with
    | false => exact Or.inl ⟨rfl, filter_passes_declined hcon input ids⟩
    | true =>
      refine Or.inr ⟨_, rfl, rfl, ?_⟩
      rw [List.map_map, input.retain_rowsAt hk, passes_contributing hcon]
      rfl
  · have hempty : ids = [] := by simpa [Batch.rowsAt] using hrows
    rw [hempty]
    exact Or.inl ⟨rfl, rfl⟩

variable {steps : List (MembershipStep V)}

theorem cascadeSteps_spec (hk : k.Documented)
    (hcol : ∀ step ∈ steps, step.column < input.columns.length) (ids : List ℕ)
    (output : Option (Batch V)) (hout : ∀ o ∈ output, o = input.rowsAt ids) :
    let r := cascadeSteps k (input.rowsAt ids) output steps
    r.1.getD (input.rowsAt ids) = input.rowsAt (selected input ids steps) ∧
      (output.isSome → r.1.isSome) ∧ r.2.1 = prefixCounts input ids steps ∧
      List.Forall₂ (fun c step => c = true → step.source.contributes = true) r.2.2 steps := by
  induction steps generalizing ids output with
  | nil =>
    have hsel : selected input ids [] = ids := by simp [selected]
    rw [hsel]
    refine ⟨?_, id, rfl, .nil⟩
    cases output with
    | none => rfl
    | some o => exact hout o rfl
  | cons step steps ih =>
    simp only [List.mem_cons, forall_eq_or_imp] at hcol
    obtain ⟨hc, hcol⟩ := hcol
    rw [selected_cons]
    dsimp only [cascadeSteps]
    rcases cascade_mask hk hc ids with ⟨hmask, hsame⟩ | ⟨m, hmask, hcon, hnext⟩
    · rw [hmask]
      simp only [Option.map_none, Option.getD_none, Option.none_or, Option.isSome_none]
      obtain ⟨h1, h2, h3, h4⟩ := ih hcol ids output hout
      rw [prefixCounts, hsame]
      exact ⟨h1, h2, congrArg _ h3, .cons (by simp) h4⟩
    · rw [hmask]
      simp only [Option.map_some, Option.getD_some, Option.some_or, Option.isSome_some, hnext]
      obtain ⟨h1, h2, h3, h4⟩ := ih hcol (ids.filter (step.passes input))
        (some (input.rowsAt (ids.filter (step.passes input)))) (by simp)
      refine ⟨?_, fun _ => h2 rfl, congrArg _ h3, .cons (fun _ => hcon) h4⟩
      obtain ⟨o, ho⟩ := Option.isSome_iff_exists.mp (h2 rfl)
      rw [ho] at h1 ⊢
      exact h1

/-- What every strategy returns. The counts are left out when the program does not
    want them. -/
structure Agrees (p : Program V) (input : Batch V) (r : Result V) : Prop where
  rows : r.rows input = input.rowsAt (p.survivors input)
  counts : r.counts = [] ∨ r.counts = p.counts input
  contributed : List.Forall₂ (fun c step => c = true → step.source.contributes = true)
    r.contributed p.membership
  astContributed : r.astContributed = (p.astMask input).isSome

variable {p : Program V}

theorem astMask_cases (p : Program V) (input : Batch V) :
    (p.astMask input = none ∧ p.entering input = List.range input.numRows) ∨
      p.astMask input = some ((List.range input.numRows).map (p.astPasses input)) := by
  unfold Program.astMask Program.entering Program.astPasses
  by_cases hast : p.ast = []
  · exact Or.inl ⟨by simp [hast], by simp [hast]⟩
  · refine Or.inr ?_
    rw [if_neg (by simpa using hast)]

theorem applyCascade_agrees (hk : k.Documented) (hal : input.Aligned)
    (hcol : ∀ step ∈ p.membership, step.column < input.columns.length) :
    Agrees p input (applyCascade k p input) ∧ (applyCascade k p input).counts = p.counts input := by
  have hrange := input.rowsAt_range hal
  rcases astMask_cases p input with ⟨hmask, hids⟩ | hmask
  · obtain ⟨h1, -, h3, h4⟩ := cascadeSteps_spec hk hcol (List.range input.numRows) none (by simp)
    rw [hrange] at h1 h3 h4
    have hcounts : (applyCascade k p input).counts = p.counts input := by
      simp only [applyCascade, hmask, Option.map_none, Option.getD_none, Program.counts, hids, h3,
        List.length_range]
    refine ⟨⟨?_, Or.inr hcounts, ?_, rfl⟩, hcounts⟩
    · simpa only [Result.rows, applyCascade, hmask, Option.map_none, Option.getD_none,
        Program.survivors, hids] using h1
    · simpa only [applyCascade, hmask, Option.map_none, Option.getD_none] using h4
  · have hstart : input.retain k ((List.range input.numRows).map (p.astPasses input)) =
        input.rowsAt (p.entering input) := by
      have h := input.retain_rowsAt hk (List.range input.numRows) (p.astPasses input)
      rw [hrange] at h
      exact h
    obtain ⟨h1, h2, h3, h4⟩ := cascadeSteps_spec hk hcol (p.entering input)
      (some (input.rowsAt (p.entering input))) (by simp)
    have hcounts : (applyCascade k p input).counts = p.counts input := by
      simp only [applyCascade, hmask, Option.map_some, Option.getD_some, hstart, h3,
        Program.counts]
      rfl
    refine ⟨⟨?_, Or.inr hcounts, ?_, rfl⟩, hcounts⟩
    · obtain ⟨o, ho⟩ := Option.isSome_iff_exists.mp (h2 rfl)
      rw [ho] at h1
      simp only [Result.rows, applyCascade, hmask, Option.map_some, Option.getD_some, hstart, ho]
      exact h1
    · simpa only [applyCascade, hmask, Option.map_some, Option.getD_some, hstart] using h4

/-! ## DEFERRED_KEYS -/

/-- The row IDs are the selection, and the aligned key is its column gathered at
    them. -/
structure DeferredState.Represents (s : DeferredState V) (input : Batch V) (ids : List ℕ) :
    Prop where
  rowIds : s.rowIds = ids
  sublist : ids.Sublist (List.range input.numRows)
  alignedKey : ∀ key ∈ s.alignedKey, key.1 < input.columns.length ∧
    key.2 = ids.map (input.cell key.1)

theorem column_eq (hal : input.Aligned) {c : ℕ} (hc : c < input.columns.length) :
    input.column c = (List.range input.numRows).map (input.cell c) := by
  have h := input.column_rowsAt (List.range input.numRows) hc
  rw [input.rowsAt_range hal] at h
  exact h

variable {s : DeferredState V} {ids : List ℕ}

/-- A gather of a key column at selected rows. -/
theorem gather_column (hk : k.Documented) (hal : input.Aligned)
    (hids : ids.Sublist (List.range input.numRows)) {c : ℕ} (hc : c < input.columns.length) :
    k.gather (input.column c) ids = ids.map (input.cell c) := by
  have hlen : (input.column c).length = input.numRows := by
    rw [Batch.column, List.getD_eq_getElem _ _ hc]
    exact hal _ (List.getElem_mem hc)
  have hin : ∀ i ∈ ids, i < (input.column c).length := by
    intro i hi
    rw [hlen]
    exact List.mem_range.mp (hids.subset hi)
  refine List.map_injective_iff.mpr (Option.some_injective V) ?_
  rw [hk.gather V _ _ hin, List.map_map]
  refine List.map_congr_left fun i hi => ?_
  rw [Function.comp_apply, Batch.cell, List.getD_eq_getElem _ _ (hin i hi),
    List.getElem?_eq_getElem (hin i hi)]

/-- The probe of a step is its key column at the selected rows. -/
theorem align_spec (hk : k.Documented) (hal : input.Aligned) (h : s.Represents input ids) {c : ℕ}
    (hc : c < input.columns.length) :
    ((s.align k input c).map Prod.snd).getD (input.column c) = ids.map (input.cell c) ∧
      ∀ key ∈ s.align k input c,
        key.1 < input.columns.length ∧ key.2 = ids.map (input.cell key.1) := by
  unfold DeferredState.align
  split_ifs with hid hkey
  · -- all rows are still selected
    have hall : ids = List.range input.numRows := by
      apply h.sublist.eq_of_length
      rw [← h.rowIds, hid.2, List.length_range]
    rw [hall]
    exact ⟨column_eq hal hc, by simp⟩
  · obtain ⟨key, hmem, rfl⟩ := hkey
    refine ⟨?_, h.alignedKey⟩
    rw [Option.mem_def.mp hmem]
    exact (h.alignedKey key hmem).2
  · rw [h.rowIds, gather_column hk hal h.sublist hc]
    exact ⟨rfl, by simpa using hc⟩

theorem deferredStep_spec (hk : k.Documented) (hal : input.Aligned) (h : s.Represents input ids)
    (hc : step.column < input.columns.length) (next : Option (MembershipStep V)) :
    (deferredStep k input s step next).1.Represents input (ids.filter (step.passes input)) ∧
      ((deferredStep k input s step next).2 = true → step.source.contributes = true) ∧
      ((deferredStep k input s step next).2 = false → ids.filter (step.passes input) = ids) := by
  obtain ⟨hprobe, hkey⟩ := align_spec hk hal h hc
  unfold deferredStep
  split_ifs with hrows
  · dsimp only
    rw [hprobe, MaskSource.computeMask]
    cases hcon : step.source.contributes with
    | false =>
      have hsame := filter_passes_declined hcon input ids
      simp only [Bool.false_eq_true, if_false]
      rw [hsame]
      exact ⟨⟨h.rowIds, h.sublist, hkey⟩, by simp, by simp⟩
    | true =>
      simp only [if_true, List.map_map]
      rw [passes_contributing hcon]
      have hids := (hk.applyRetentionMask ℕ).filter ids (step.source.keep ∘ input.cell step.column)
      refine ⟨⟨?_, List.filter_sublist.trans h.sublist, ?_⟩, by simp, by simp⟩
      · rw [h.rowIds]
        exact hids
      · intro key hmem
        dsimp only at hmem
        split_ifs at hmem
        · cases hmem
          exact ⟨hc, (hk.applyRetentionMask V).map ids _ _⟩
        · cases hmem
  · have hempty : ids = [] := by
      rw [← h.rowIds]
      simpa using hrows
    rw [hempty] at h ⊢
    exact ⟨h, by simp, by simp⟩

theorem deferredSteps_spec (hk : k.Documented) (hal : input.Aligned)
    (hcol : ∀ step ∈ steps, step.column < input.columns.length) (h : s.Represents input ids) :
    let r := deferredSteps k input s steps
    r.1.Represents input (selected input ids steps) ∧ r.2.1 = prefixCounts input ids steps ∧
      List.Forall₂ (fun c step => c = true → step.source.contributes = true) r.2.2 steps ∧
      (r.2.2.any id = false → selected input ids steps = ids) := by
  induction steps generalizing s ids with
  | nil =>
    have hsel : selected input ids [] = ids := by simp [selected]
    rw [hsel]
    exact ⟨h, rfl, .nil, by simp⟩
  | cons step steps ih =>
    simp only [List.mem_cons, forall_eq_or_imp] at hcol
    obtain ⟨hrep, hcon, hsame⟩ := deferredStep_spec hk hal h hcol.1 steps.head?
    obtain ⟨h1, h2, h3, h4⟩ := ih hcol.2 hrep
    rw [selected_cons]
    dsimp only [deferredSteps]
    refine ⟨h1, ?_, .cons hcon h3, ?_⟩
    · rw [h2, hrep.rowIds]
      rfl
    · intro hany
      simp only [List.any_cons, id, Bool.or_eq_false_iff] at hany
      rw [h4 hany.2, hsame hany.1]

variable {raw : List Bool}

/-- The output is the input gathered at the selected rows, with or without an
    aligned key. -/
theorem deferred_output (hk : k.Documented) (hal : input.Aligned) (h : s.Represents input ids) :
    s.output k input = input.rowsAt ids := by
  have hcolumn : ∀ (i : ℕ) (hi : i < input.columns.length), k.gather input.columns[i] ids =
      ids.map fun j => input.columns[i].getD j default := by
    intro i hi
    have hcol := gather_column hk hal h.sublist hi
    unfold Batch.cell at hcol
    rwa [Batch.column, List.getD_eq_getElem _ _ hi] at hcol
  unfold DeferredState.output
  split
  · rw [h.rowIds]
    simp only [Batch.gather, Batch.rowsAt, Batch.mk.injEq, true_and]
    apply List.ext_getElem
    · simp
    · intro i hi hi'
      rw [List.getElem_map, List.getElem_map, hcolumn i (by simpa using hi)]
  · rename_i index key hkey
    obtain ⟨hc, hval⟩ := h.alignedKey _ hkey
    simp only [Batch.rowsAt, h.rowIds, Batch.mk.injEq, true_and]
    apply List.ext_getElem
    · simp
    · intro i hi hi'
      simp only [List.getElem_mapIdx, List.getElem_map]
      split_ifs with hidx
      · subst hidx
        unfold Batch.cell at hval
        rwa [Batch.column, List.getD_eq_getElem _ _ hc] at hval
      · exact hcolumn i (by simpa using hi)

theorem applyDeferredKeys_agrees (hk : k.Documented) (hal : input.Aligned)
    (hcol : ∀ step ∈ p.membership, step.column < input.columns.length) :
    Agrees p input (applyDeferredKeys k p input) ∧
      (applyDeferredKeys k p input).counts = p.counts input := by
  have hstart : ((p.astMask input).map (k.applyRetentionMask (List.range input.numRows))).getD
      (List.range input.numRows) = p.entering input := by
    rcases astMask_cases p input with ⟨hmask, hids⟩ | hmask
    · rw [hmask, hids]
      rfl
    · rw [hmask]
      exact (hk.applyRetentionMask ℕ).filter _ (p.astPasses input)
  have hrep : ({ rowIds := p.entering input } : DeferredState V).Represents input
      (p.entering input) := ⟨rfl, List.filter_sublist, by simp⟩
  obtain ⟨h1, h2, h3, h4⟩ := deferredSteps_spec hk hal hcol hrep
  have hcounts : (applyDeferredKeys k p input).counts = p.counts input := by
    simp only [applyDeferredKeys, hstart, h2, Program.counts]
  refine ⟨⟨?_, Or.inr hcounts, ?_, rfl⟩, hcounts⟩
  · simp only [Result.rows, applyDeferredKeys, hstart]
    split_ifs with hany
    · exact deferred_output hk hal h1
    · -- nothing contributed, so every row is selected
      simp only [anyContributed, Bool.or_eq_true, not_or, Bool.not_eq_true] at hany
      obtain ⟨hast, hflags⟩ := hany
      rcases astMask_cases p input with ⟨hmask, hids⟩ | hmask
      · rw [Program.survivors, h4 hflags, hids]
        exact (input.rowsAt_range hal).symm
      · rw [hmask] at hast
        cases hast
  · simpa only [applyDeferredKeys, hstart] using h3

/-! ## GATHER_ONCE -/

theorem foldMask_fresh {n : ℕ} (hraw : raw.length = n) (sel : ℕ → Bool) :
    foldMask raw (some ((List.range n).map sel)) true = (List.range n).map sel := by
  unfold foldMask
  apply List.ext_getElem
  · simp [hraw]
  · intro i hi hi'
    simp

theorem foldMask_fresh_none {n : ℕ} (hraw : raw.length = n) :
    foldMask raw none true = (List.range n).map fun _ => true := by
  unfold foldMask
  apply List.ext_getElem
  · simp [hraw]
  · intro i hi hi'
    simp

/-- Folding a step into the mask of the selection. -/
theorem foldMask_if (hal : input.Aligned) (hc : step.column < input.columns.length)
    (sel : ℕ → Bool) :
    foldMask ((List.range input.numRows).map sel)
      (step.source.computeMaskIf (input.column step.column) ((List.range input.numRows).map sel))
      false = (List.range input.numRows).map fun i => step.passes input i && sel i := by
  unfold MaskSource.computeMaskIf
  cases hcon : step.source.contributes with
  | false =>
    simp only [Bool.false_eq_true, if_false, foldMask, List.map_map]
    apply List.map_congr_left
    intro i _
    simp [MembershipStep.passes, hcon]
  | true =>
    have hprobe := column_eq hal hc
    simp only [if_true, foldMask, passes_contributing hcon]
    apply List.ext_getElem
    · simp [step.source.length_maskIf, hprobe]
    · intro i hi hi'
      have hn : i < input.numRows := by simpa using hi'
      simp only [List.getElem_zipWith, List.getElem_map, List.getElem_range, Bool.false_or]
      -- the mask is only promised where the row is still selected
      cases hsel : sel i with
      | false => simp
      | true =>
        have hprior : ((List.range input.numRows).map sel)[i]? = some true := by
          rw [List.getElem?_map, List.getElem?_range hn]
          simp [hsel]
        have hval : (input.column step.column)[i]? = some (input.cell step.column i) := by
          rw [hprobe, List.getElem?_map, List.getElem?_range hn]
          rfl
        have hagree := step.source.maskIf_agrees _ _ i _ hprior hval
        rw [List.getElem?_eq_some_iff] at hagree
        obtain ⟨_, hagree⟩ := hagree
        simp [hagree]

/-- The first step without an AST mask. -/
theorem foldMask_first (hal : input.Aligned) (hc : step.column < input.columns.length)
    (hraw : raw.length = input.numRows) :
    foldMask raw (step.source.computeMask (input.column step.column)) true =
      (List.range input.numRows).map (step.passes input) := by
  unfold MaskSource.computeMask
  cases hcon : step.source.contributes with
  | false =>
    simp only [Bool.false_eq_true, if_false, foldMask_fresh_none hraw]
    apply List.map_congr_left
    intro i _
    simp [MembershipStep.passes, hcon]
  | true =>
    simp only [if_true, column_eq hal hc, List.map_map, passes_contributing hcon]
    exact foldMask_fresh hraw _

theorem count_map_range (n : ℕ) (sel : ℕ → Bool) :
    ((List.range n).map sel).count true = ((List.range n).filter sel).length := by
  rw [List.count, List.countP_map, List.countP_eq_length_filter]
  congr 2
  funext i
  simp

/-- With a prior mask. -/
theorem foldMembershipMasks_spec (hal : input.Aligned)
    (hcol : ∀ step ∈ steps, step.column < input.columns.length) (sel : ℕ → Bool) :
    let r := foldMembershipMasks input true ((List.range input.numRows).map sel) steps
    r.1 = (List.range input.numRows).map (fun i =>
        (steps.all fun step => step.passes input i) && sel i) ∧
      r.2.1 = prefixCounts input ((List.range input.numRows).filter sel) steps ∧
      r.2.2 = steps.map fun step => step.source.contributes := by
  induction steps generalizing sel with
  | nil => simp [foldMembershipMasks, prefixCounts]
  | cons step steps ih =>
    simp only [List.mem_cons, forall_eq_or_imp] at hcol
    obtain ⟨h1, h2, h3⟩ := ih hcol.2 fun i => step.passes input i && sel i
    have hflag : ∀ probe prior, (step.source.computeMaskIf probe prior).isSome =
        step.source.contributes := by
      intro probe prior
      unfold MaskSource.computeMaskIf
      cases step.source.contributes <;> rfl
    dsimp only [foldMembershipMasks]
    simp only [if_true, Bool.not_true, foldMask_if hal hcol.1, h1, h2, h3, hflag, List.map_cons,
      and_true]
    constructor
    · apply List.map_congr_left
      intro i _
      rw [List.all_cons, ← Bool.and_assoc, Bool.and_comm (steps.all _)]
    · rw [prefixCounts, count_map_range, List.filter_filter]

/-- Without a prior mask the first step ignores what the conjunction holds. -/
theorem foldMembershipMasks_first (hal : input.Aligned)
    (hcol : ∀ step ∈ steps, step.column < input.columns.length) (hne : steps ≠ [])
    (hraw : raw.length = input.numRows) : let r := foldMembershipMasks input false raw steps
    r.1 = (List.range input.numRows).map (fun i => steps.all fun step => step.passes input i) ∧
      r.2.1 = prefixCounts input (List.range input.numRows) steps ∧
      r.2.2 = steps.map fun step => step.source.contributes := by
  cases steps with
  | nil => exact absurd rfl hne
  | cons step steps =>
    simp only [List.mem_cons, forall_eq_or_imp] at hcol
    obtain ⟨h1, h2, h3⟩ := foldMembershipMasks_spec hal hcol.2 (step.passes input)
    have hflag : ∀ probe, (step.source.computeMask probe).isSome = step.source.contributes := by
      intro probe
      unfold MaskSource.computeMask
      cases step.source.contributes <;> rfl
    dsimp only [foldMembershipMasks]
    simp only [Bool.false_eq_true, if_false, Bool.not_false, foldMask_first hal hcol.1 hraw, h1, h2,
      h3, hflag, List.map_cons, and_true]
    constructor
    · apply List.map_congr_left
      intro i _
      rw [List.all_cons, Bool.and_comm]
    · rw [prefixCounts, count_map_range]

omit [Inhabited V] in
theorem forall₂_contributes (steps : List (MembershipStep V)) :
    List.Forall₂ (fun c step => c = true → step.source.contributes = true)
      (steps.map fun step => step.source.contributes) steps := by
  induction steps with
  | nil => exact .nil
  | cons step steps ih => exact .cons id ih

/-- The mask of the survivors selects them. -/
theorem retain_mask (hk : k.Documented) (hal : input.Aligned) (sel : ℕ → Bool) :
    input.retain k ((List.range input.numRows).map sel) =
      input.rowsAt ((List.range input.numRows).filter sel) := by
  have h := input.retain_rowsAt hk (List.range input.numRows) sel
  rw [input.rowsAt_range hal] at h
  exact h

variable {e : AppliedEntry}

/-- No step contributes: every row is selected. -/
theorem selected_none (ids : List ℕ)
    (h : (steps.map fun step => step.source.contributes).any id = false) :
    selected input ids steps = ids := by
  apply List.filter_eq_self.mpr
  intro i _
  rw [List.all_eq_true]
  intro step hstep
  rw [List.any_map, List.any_eq_false] at h
  have := h step hstep
  simp only [Function.comp_apply, id, Bool.not_eq_true] at this
  simp [MembershipStep.passes, this]

theorem applyGatherOnce_agrees (hk : k.Documented) (hal : input.Aligned)
    (hcol : ∀ step ∈ p.membership, step.column < input.columns.length)
    (hraw : raw.length = input.numRows) :
    Agrees p input (applyGatherOnce k p input raw) ∧
      (p.wantCounts = true → (applyGatherOnce k p input raw).counts = p.counts input) := by
  by_cases hsingle : p.ast.isEmpty ∧ p.membership.length = 1
  · obtain ⟨h1, h2⟩ := applyCascade_agrees hk hal hcol
    rw [applyGatherOnce, if_pos hsingle]
    exact ⟨h1, fun _ => h2⟩
  have hwant : ∀ counts : List ℕ, counts = p.counts input →
      ((if p.wantCounts then counts else []) = [] ∨
        (if p.wantCounts then counts else []) = p.counts input) ∧
      (p.wantCounts = true → (if p.wantCounts then counts else []) = p.counts input) := by
    intro counts hcounts
    cases p.wantCounts <;> simp [hcounts]
  rw [applyGatherOnce, if_neg hsingle]
  rcases astMask_cases p input with ⟨hmask, hids⟩ | hmask
  · simp only [hmask, Option.isSome_none, Bool.false_eq_true, if_false, anyContributed,
      Bool.false_or]
    by_cases hne : p.membership = []
    · simp only [hne, foldMembershipMasks, List.any_nil, Bool.false_eq_true, if_false]
      have hcounts := hwant [input.numRows] (by
        simp [Program.counts, hids, hne, prefixCounts])
      refine ⟨⟨?_, hcounts.1, by rw [hne]; exact .nil, by rw [hmask]; rfl⟩, hcounts.2⟩
      simp only [Result.rows, Option.getD_none, Program.survivors, selected, hids, hne,
        List.all_nil, List.filter_true]
      exact (input.rowsAt_range hal).symm
    · obtain ⟨h1, h2, h3⟩ := foldMembershipMasks_first hal hcol hne hraw
      simp only [h1, h2, h3, retain_mask hk hal]
      have hcounts := hwant (input.numRows :: prefixCounts input (List.range input.numRows)
        p.membership) (by simp [Program.counts, hids])
      refine ⟨⟨?_, hcounts.1, forall₂_contributes _, by rw [hmask]; rfl⟩, hcounts.2⟩
      simp only [Result.rows, Program.survivors, hids]
      split_ifs with hany
      · rfl
      · rw [selected_none _ (by simpa using hany)]
        exact (input.rowsAt_range hal).symm
  · have hstart : foldMask raw (some ((List.range input.numRows).map (p.astPasses input))) true =
        (List.range input.numRows).map (p.astPasses input) := foldMask_fresh hraw _
    obtain ⟨h1, h2, h3⟩ := foldMembershipMasks_spec hal hcol (p.astPasses input)
    simp only [hmask, Option.isSome_some, if_true, hstart, anyContributed, Bool.true_or, h1, h2, h3,
      retain_mask hk hal, count_map_range]
    have hcounts := hwant (p.counts input) rfl
    refine ⟨⟨?_, hcounts.1, forall₂_contributes _, by rw [hmask]; rfl⟩, hcounts.2⟩
    simp only [Result.rows, Option.getD_some, Program.survivors, selected, Program.entering,
      List.filter_filter]

/-! ## Receipts -/

theorem mem_addEntries {capacity : ℕ} {applied entries : List AppliedEntry}
    (h : e ∈ addEntries capacity applied entries) : e ∈ applied ∨ e ∈ entries := by
  unfold addEntries at h
  induction entries generalizing applied with
  | nil => exact Or.inl h
  | cons e' entries ih =>
    rcases ih h with h1 | h1
    · dsimp only at h1
      split_ifs at h1
      · rcases List.mem_append.mp h1 with h2 | h2
        · exact Or.inl h2
        · rw [List.mem_singleton.mp h2]
          exact Or.inr List.mem_cons_self
      · exact Or.inl h1
    · exact Or.inr (List.mem_cons_of_mem _ h1)

theorem mem_foldl_addEntries {ι : Type} {capacity : ℕ} {applied : List AppliedEntry} {xs : List ι}
    {ok : ι → Bool} {entries : ι → List AppliedEntry}
    (h : e ∈ xs.foldl (fun applied x =>
      if ok x then addEntries capacity applied (entries x) else applied) applied) :
    e ∈ applied ∨ ∃ x ∈ xs, ok x = true ∧ e ∈ entries x := by
  induction xs generalizing applied with
  | nil => exact Or.inl h
  | cons x xs ih =>
    rcases ih h with h1 | ⟨y, hy, hok, hmem⟩
    · dsimp only at h1
      split_ifs at h1 with hx
      · rcases mem_addEntries h1 with h2 | h2
        · exact Or.inl h2
        · exact Or.inr ⟨x, List.mem_cons_self, hx, h2⟩
      · exact Or.inl h1
    · exact Or.inr ⟨y, List.mem_cons_of_mem _ hy, hok, hmem⟩

omit [Inhabited V] in
/-- A new entry of the receipt represents an AST step, or a membership step that
    contributed. -/
theorem addReceiptCoverage_mem {r : Result V} (h : e ∈ addReceiptCoverage p input r)
    (hnew : e ∉ p.applied) :
    (r.astContributed = true ∧ ∃ step ∈ p.ast, e ∈ step.represented) ∨
      ∃ (i : ℕ) (step : MembershipStep V), p.membership[i]? = some step ∧
        r.contributed[i]? = some true ∧ e ∈ step.represented := by
  unfold addReceiptCoverage at h
  rcases mem_foldl_addEntries h with h1 | ⟨i, hi, hok, hmem⟩
  · left
    split_ifs at h1 with hast
    · have h2 : e ∈ p.ast.foldl (fun applied step =>
          if (fun _ => true) step then addEntries p.capacity applied step.represented
          else applied) p.applied := by simpa using h1
      rcases mem_foldl_addEntries h2 with h3 | ⟨step, hstep, -, hmem⟩
      · exact absurd h3 hnew
      · exact ⟨hast, step, hstep, hmem⟩
    · exact absurd h1 hnew
  · right
    have hlt : i < p.membership.length := List.mem_range.mp hi
    refine ⟨i, p.membership[i], List.getElem?_eq_getElem hlt, ?_, ?_⟩
    · rw [Bool.and_eq_true] at hok
      have := hok.1
      rw [List.getD_eq_getElem?_getD] at this
      cases hget : r.contributed[i]? with
      | none =>
        rw [hget] at this
        cases this
      | some c =>
        rw [hget] at this
        exact congrArg some this
    · simpa [List.getD_eq_getElem?_getD, hlt] using hmem

/-- The receipt names only filters that every returned row satisfies. -/
def ReceiptHolds (p : Program V) (input : Batch V) (r : Result V) : Prop :=
  ∀ e ∈ addReceiptCoverage p input r, e ∉ p.applied →
    (∃ step ∈ p.ast, e ∈ step.represented ∧ ∀ j < (r.rows input).numRows,
      step.keep ((r.rows input).cell step.column j) = true) ∨
    ∃ step ∈ p.membership, e ∈ step.represented ∧ ∀ j < (r.rows input).numRows,
      step.source.keep ((r.rows input).cell step.column j) = true

theorem Agrees.receiptHolds {r : Result V} (h : Agrees p input r) : ReceiptHolds p input r := by
  intro e he hnew
  have hcell : ∀ c j, j < (p.survivors input).length → ∃ i ∈ p.survivors input,
      (r.rows input).cell c j = input.cell c i := by
    intro c j hj
    rw [h.rows, input.cell_rowsAt _ c hj]
    exact ⟨_, List.getElem_mem hj, rfl⟩
  have hlen : (r.rows input).numRows = (p.survivors input).length := by
    rw [h.rows]
    rfl
  have hsat : ∀ i ∈ p.survivors input, p.astPasses input i = true ∧
      ∀ step ∈ p.membership, step.passes input i = true := by
    intro i hi
    simp only [Program.survivors, selected, Program.entering, List.mem_filter,
      List.all_eq_true] at hi
    exact ⟨hi.1.2, hi.2⟩
  rcases addReceiptCoverage_mem he hnew with ⟨-, step, hstep, hrep⟩ | ⟨i, step, hget, hcon, hrep⟩
  · refine Or.inl ⟨step, hstep, hrep, fun j hj => ?_⟩
    obtain ⟨i, hi, heq⟩ := hcell step.column j (hlen ▸ hj)
    rw [heq]
    exact List.all_eq_true.mp (hsat i hi).1 step hstep
  · have hstep : step ∈ p.membership := List.mem_of_getElem? hget
    have hcontributes : step.source.contributes = true := by
      obtain ⟨hi, hval⟩ := List.getElem?_eq_some_iff.mp hget
      obtain ⟨hi', hval'⟩ := List.getElem?_eq_some_iff.mp hcon
      have hrel := h.contributed.get hi' hi
      rw [List.get_eq_getElem, List.get_eq_getElem] at hrel
      simp only [hval, hval'] at hrel
      exact hrel trivial
    refine Or.inr ⟨step, hstep, hrep, fun j hj => ?_⟩
    obtain ⟨i, hi, heq⟩ := hcell step.column j (hlen ▸ hj)
    rw [heq]
    have hpass := (hsat i hi).2 step hstep
    simpa [MembershipStep.passes, hcontributes] using hpass

/-- **The strategies agree.** With kernels that do what cuDF documents, on every aligned
    batch and for every program of pointwise filters on its columns: the three
    strategies return the rows that satisfy the conjunction of the contributing
    filters, in their original order; they report the same counts before the first and after each filter (gather
    once reports none when the program wants none); and the receipt of each names
    only filters that every returned row satisfies. -/
theorem strategies_agree (hk : k.Documented) (p : Program V) (input : Batch V)
    (hal : input.Aligned) (hcol : ∀ step ∈ p.membership, step.column < input.columns.length)
    (raw : List Bool) (hraw : raw.length = input.numRows) :
    ((applyCascade k p input).rows input = input.rowsAt (p.survivors input) ∧
      (applyDeferredKeys k p input).rows input = input.rowsAt (p.survivors input) ∧
      (applyGatherOnce k p input raw).rows input = input.rowsAt (p.survivors input)) ∧
    ((applyCascade k p input).counts = p.counts input ∧
      (applyDeferredKeys k p input).counts = p.counts input ∧
      ((applyGatherOnce k p input raw).counts = [] ∨
        (applyGatherOnce k p input raw).counts = p.counts input) ∧
      (p.wantCounts = true → (applyGatherOnce k p input raw).counts = p.counts input)) ∧
    ReceiptHolds p input (applyCascade k p input) ∧
      ReceiptHolds p input (applyDeferredKeys k p input) ∧
      ReceiptHolds p input (applyGatherOnce k p input raw) := by
  obtain ⟨h1, c1⟩ := applyCascade_agrees hk hal hcol
  obtain ⟨h2, c2⟩ := applyDeferredKeys_agrees hk hal hcol
  obtain ⟨h3, c3⟩ := applyGatherOnce_agrees hk hal hcol hraw
  exact ⟨⟨h1.rows, h2.rows, h3.rows⟩, ⟨c1, c2, h3.counts, c3⟩, h1.receiptHolds, h2.receiptHolds,
    h3.receiptHolds⟩

/-- The kernels on lists. -/
def Kernels.onLists : Kernels where
  applyRetentionMask := retained
  gather := fun xs ids => ids.filterMap fun i => xs[i]?

theorem Kernels.onLists_documented : Kernels.onLists.Documented := by
  refine ⟨fun α xs mask _ => rfl, fun α xs ids hids => ?_⟩
  induction ids with
  | nil => rfl
  | cons i ids ih =>
    have hi := List.getElem?_eq_getElem (hids i List.mem_cons_self)
    simpa [Kernels.onLists, hi] using ih fun j hj => hids j (List.mem_cons_of_mem _ hj)

/-- Three filters on two key columns, of which the second declines. -/
def threeFilters : Program ℕ where
  membership := [
    { column := 0, source := .ofKeep (fun v => v % 2 = 0) true },
    { column := 1, source := .ofKeep (fun _ => false) false },
    { column := 1, source := .ofKeep (fun v => 20 < v) true }]

def twoKeys : Batch ℕ := { numRows := 4, columns := [[2, 3, 4, 6], [10, 30, 40, 50]] }

theorem strategies_agree_three_filters :
    (applyCascade .onLists threeFilters twoKeys).rows twoKeys =
      { numRows := 2, columns := [[4, 6], [40, 50]] } ∧
    (applyDeferredKeys .onLists threeFilters twoKeys).counts = [4, 3, 3, 2] := by
  obtain ⟨⟨h1, -, -⟩, ⟨-, c2, -⟩, -⟩ := strategies_agree Kernels.onLists_documented threeFilters
    twoKeys (by unfold Batch.Aligned; decide) (by decide) [false, true, false, true] rfl
  rw [h1, c2]
  decide

end Strategies

end Sirius.Scan
