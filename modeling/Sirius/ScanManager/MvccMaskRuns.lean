import Sirius.ScanManager.MvccMaskJob

/-!
# The masks after the fill tasks

The fill tasks of `prepare_mvcc_mask_tasks` run on a pool, in any interleaving of their
writes, and `finalize_mvcc_masks` keeps the masks that dropped a row.

* `capturePlans_spec`: every planned request has the plan of its own capture.
* `Placed`: the works of a workset are the dirty chunks of its plans, in disjoint buffers.
* `fillTasks_apart`: no two tasks touch the same word.
* `masks_correct`: after any interleaving, the masks are the visibility of the rows.
-/

namespace Sirius.ScanManager

open Sirius.Common Sirius.Scan

/-! ## The planned requests -/

theorem capturePlans_spec {requests : List MaskRequest} {planned : List PlannedRequest}
    (hok : capturePlans requests = .ok planned) :
    planned.map PlannedRequest.request = requests.filter (fun r => !r.masksReady) ∧
    ∀ pr ∈ planned, captureVisibilityPlan pr.request.input = .ok pr.plan := by
  induction requests generalizing planned with
  | nil =>
    cases hok
    simp
  | cons request rest ih =>
    unfold capturePlans at hok
    by_cases hready : request.masksReady = true
    · rw [if_pos hready] at hok
      rw [List.filter_cons_of_neg (by simp [hready])]
      exact ih hok
    · rw [if_neg hready, ite_error_eq_ok] at hok
      rw [List.filter_cons_of_pos (by simp [hready])]
      obtain ⟨-, hok⟩ := hok
      cases hcapture : captureVisibilityPlan request.input with
      | error e => simp [hcapture] at hok
      | ok plan =>
        simp only [hcapture, ite_error_eq_ok, bind_eq_ok, pure_eq_ok] at hok
        obtain ⟨-, tail, htail, rfl⟩ := hok
        obtain ⟨hrequests, hplans⟩ := ih htail
        refine ⟨by rw [List.map_cons, hrequests], List.forall_mem_cons.mpr ⟨hcapture, hplans⟩⟩

/-! ## The dirty chunks -/

/-- Chunk `c` of the plan needs a mask. -/
def PlannedRequest.Dirty (pr : PlannedRequest) (c : ℕ) : Prop :=
  c < pr.plan.rowGroups.length ∧ pr.plan.chunkHasVersionState.getD c false = true ∧
    pr.plan.rowGroups.getD c [] ≠ []

theorem mem_dirtyChunks {p : ℕ} {pr : PlannedRequest} {d : DirtyChunk} :
    d ∈ dirtyChunks p pr → d.plan = p ∧ pr.Dirty d.chunk ∧
      d.slices = pr.plan.rowGroups.getD d.chunk [] := by
  unfold dirtyChunks
  intro hd
  obtain ⟨c, hc, hd⟩ := List.mem_filterMap.mp hd
  split_ifs at hd with hclean
  push Not at hclean
  cases hd
  refine ⟨rfl, ⟨List.mem_range.mp hc, ?_, ?_⟩, rfl⟩
  · simpa using hclean.1
  · simpa using hclean.2

theorem exists_mem_dirtyChunks {p c : ℕ} {pr : PlannedRequest} (h : pr.Dirty c) :
    ∃ d ∈ dirtyChunks p pr, d.chunk = c := by
  obtain ⟨hc, hversion, hslices⟩ := h
  refine ⟨⟨p, c, pr.plan.rowGroups.getD c [], pr.request.chunkSpaces.getD c none,
    pr.request.entryName⟩, List.mem_filterMap.mpr ⟨c, List.mem_range.mpr hc, if_neg ?_⟩, rfl⟩
  push Not
  exact ⟨by rw [hversion]; decide, by simpa using hslices⟩

/-- All dirty chunks, in the order of the loop of stage 2. -/
def allDirty (planned : List PlannedRequest) : List DirtyChunk :=
  planned.zipIdx.flatMap fun e => dirtyChunks e.2 e.1

theorem mem_allDirty {planned : List PlannedRequest} {d : DirtyChunk} (h : d ∈ allDirty planned) :
    ∃ pr, planned[d.plan]? = some pr ∧ pr.Dirty d.chunk ∧
      d.slices = pr.plan.rowGroups.getD d.chunk [] := by
  obtain ⟨⟨pr, p⟩, he, hd⟩ := List.mem_flatMap.mp h
  obtain ⟨rfl, hdirty, hslices⟩ := mem_dirtyChunks hd
  exact ⟨pr, List.mem_zipIdx_iff_getElem?.mp he, hdirty, hslices⟩

theorem exists_mem_allDirty {planned : List PlannedRequest} {p c : ℕ} {pr : PlannedRequest}
    (hp : planned[p]? = some pr) (h : pr.Dirty c) :
    ∃ d ∈ allDirty planned, d.plan = p ∧ d.chunk = c := by
  obtain ⟨d, hd, hc⟩ := exists_mem_dirtyChunks (p := p) h
  refine ⟨d, List.mem_flatMap.mpr ⟨(pr, p), List.mem_zipIdx_iff_getElem?.mpr hp, hd⟩, ?_, hc⟩
  exact (mem_dirtyChunks hd).1

/-- No chunk is visited twice. -/
theorem nodup_allDirty (planned : List PlannedRequest) :
    ((allDirty planned).map fun d => (d.plan, d.chunk)).Nodup := by
  unfold allDirty List.Nodup
  rw [List.pairwise_map, List.pairwise_flatMap]
  constructor
  · rintro ⟨pr, p⟩ -
    unfold dirtyChunks
    rw [List.pairwise_filterMap]
    refine List.nodup_range.imp fun {c c'} hne d hd d' hd' heq => hne ?_
    split_ifs at hd hd'
    cases hd
    cases hd'
    exact (Prod.mk.inj heq).2
  · have hindices : (planned.zipIdx.map Prod.snd).Pairwise (· ≠ ·) := by
      rw [List.zipIdx_map_snd]
      exact List.nodup_range'
    refine (List.pairwise_map.mp hindices).imp fun {e e'} hne d hd d' hd' heq => hne ?_
    rw [← (mem_dirtyChunks hd).1, ← (mem_dirtyChunks hd').1]
    exact (Prod.mk.inj heq).1

/-! ## The workset -/

/-- What `prepare_mvcc_mask_tasks` leaves: one work for every dirty chunk, each with a
    buffer of its own. -/
structure MaskWorkset.Placed (blockSize : ℕ) (workset : MaskWorkset) : Prop where
  plans : ∀ pr ∈ workset.planned, captureVisibilityPlan pr.request.input = .ok pr.plan
  source : ∀ w ∈ workset.works, ∃ pr, workset.planned[w.plan]? = some pr ∧ pr.Dirty w.chunk ∧
    w.slices = pr.plan.rowGroups.getD w.chunk []
  dirty : ∀ p pr c, workset.planned[p]? = some pr → pr.Dirty c →
    ∃ w ∈ workset.works, w.plan = p ∧ w.chunk = c
  rows : ∀ w ∈ workset.works, w.rows = (w.slices.map MvccRowGroupSlice.rowCount).sum
  inside : ∀ w ∈ workset.works, w.Inside blockSize workset.layouts
  aligned : ∀ w ∈ workset.works, w.offset % 64 = 0
  apart : workset.works.Pairwise MaskWork.Disjoint

/-- The chunks of plans without version state are clean. -/
theorem PlannedRequest.Dirty.anyVersionState {pr : PlannedRequest} {c : ℕ} (h : pr.Dirty c) :
    pr.plan.anyVersionState = true := by
  obtain ⟨-, hversion, -⟩ := h
  unfold VisibilityPlan.anyVersionState
  rw [List.getD_eq_getElem?_getD] at hversion
  cases hflag : pr.plan.chunkHasVersionState[c]? with
  | none => simp [hflag] at hversion
  | some flag =>
    rw [hflag, Option.getD_some] at hversion
    exact List.any_eq_true.mpr ⟨flag, List.mem_of_getElem? hflag, hversion⟩

theorem Carved.mem_chunks {blockSize : ℕ} {layouts layouts' : ℕ → NodeLayout}
    {chunks : List DirtyChunk} {works : List MaskWork}
    (h : Carved blockSize layouts layouts' chunks works) {w : MaskWork} (hw : w ∈ works) :
    ∃ d ∈ chunks, d.plan = w.plan ∧ d.chunk = w.chunk ∧ d.slices = w.slices := by
  have hmem := List.mem_map_of_mem (f := fun w : MaskWork => (w.plan, w.chunk, w.slices)) hw
  rw [h.chunks] at hmem
  obtain ⟨d, hd, heq⟩ := List.mem_map.mp hmem
  simp only [Prod.mk.injEq] at heq
  exact ⟨d, hd, heq⟩

theorem Carved.mem_works {blockSize : ℕ} {layouts layouts' : ℕ → NodeLayout}
    {chunks : List DirtyChunk} {works : List MaskWork}
    (h : Carved blockSize layouts layouts' chunks works) {d : DirtyChunk} (hd : d ∈ chunks) :
    ∃ w ∈ works, w.plan = d.plan ∧ w.chunk = d.chunk := by
  have hmem := List.mem_map_of_mem (f := fun d : DirtyChunk => (d.plan, d.chunk, d.slices)) hd
  rw [← h.chunks] at hmem
  obtain ⟨w, hw, heq⟩ := List.mem_map.mp hmem
  simp only [Prod.mk.injEq] at heq
  exact ⟨w, hw, heq.1, heq.2.1⟩

/-- The works of stage 2, in the order of `workset.works`. -/
theorem Carved.placed {blockSize : ℕ} {layouts' : ℕ → NodeLayout} {planned : List PlannedRequest}
    {works : List MaskWork}
    (h : Carved blockSize (fun _ => {}) layouts' (allDirty planned) works)
    (hplans : ∀ pr ∈ planned, captureVisibilityPlan pr.request.input = .ok pr.plan) :
    MaskWorkset.Placed blockSize
      { planned := planned, works := orderWorks works, layouts := layouts' } := by
  have hmem : ∀ {w}, w ∈ orderWorks works ↔ w ∈ works := (orderWorks_perm works).mem_iff
  have hkeys : (works.map fun w => (w.plan, w.chunk)).Nodup := by
    have hsame := congrArg (List.map fun k : ℕ × ℕ × List MvccRowGroupSlice => (k.1, k.2.1)) h.chunks
    rw [List.map_map, List.map_map] at hsame
    have hnodup := nodup_allDirty planned
    exact hsame ▸ hnodup
  refine ⟨hplans, fun w hw => ?_, fun p pr c hp hc => ?_, fun w hw => h.rows w (hmem.mp hw),
    fun w hw => h.inside w (hmem.mp hw), fun w hw => h.aligned w (hmem.mp hw), ?_⟩
  · obtain ⟨d, hd, hplan, hchunk, hslices⟩ := h.mem_chunks (hmem.mp hw)
    rw [← hplan, ← hchunk, ← hslices]
    exact mem_allDirty hd
  · obtain ⟨d, hd, rfl, rfl⟩ := exists_mem_allDirty hp hc
    obtain ⟨w, hw, hkey⟩ := h.mem_works hd
    exact ⟨w, hmem.mpr hw, hkey⟩
  · exact ((orderWorks_perm works).pairwise_iff fun hw => hw.symm).mpr (h.apart hkeys)

theorem prepareMaskTasks_placed {numaNodeOf : ℤ → ℤ} {reserve : ℕ → ℕ → Bool} {blockSize : ℕ}
    {requests : List MaskRequest} {workset : MaskWorkset}
    (hok : prepareMaskTasks numaNodeOf reserve blockSize requests = .ok workset) :
    workset.Placed blockSize ∧
      workset.planned.map PlannedRequest.request = requests.filter fun r => !r.masksReady := by
  unfold prepareMaskTasks at hok
  obtain ⟨planned, hplanned, hok⟩ := bind_eq_ok.mp hok
  obtain ⟨hrequests, hplans⟩ := capturePlans_spec hplanned
  by_cases hclean : (planned.any fun p => p.plan.anyVersionState) = false
  · rw [if_pos hclean] at hok
    cases hok
    refine ⟨⟨hplans, by simp, fun p pr c hp hc => ?_, by simp, by simp, by simp,
      List.Pairwise.nil⟩, hrequests⟩
    have hany := List.any_eq_false.mp hclean pr (List.mem_of_getElem? hp)
    exact absurd hc.anyVersionState hany
  · rw [if_neg hclean] at hok
    obtain ⟨⟨works, layouts⟩, hcarve, hok⟩ := bind_eq_ok.mp hok
    dsimp only at hok
    split at hok
    · cases hok
    · cases hok
      exact ⟨(carveMasks_carved hcarve).placed hplans, hrequests⟩

/-! ## What the works mean -/

/-- A pinned layout: the chunks are cuDF tables, whose rows `cudf::size_type` counts, and
    the row groups are DuckDB's. -/
structure PinnedLayout (input : CaptureInput) : Prop where
  counts : ∀ n ∈ input.counts, n < 2 ^ 31
  reports : ∀ rg ∈ input.rowGroups, rg.Reports

/-- The visibility of row `r` of chunk `c`. -/
def chunkVisible (input : CaptureInput) (c r : ℕ) : Bool :=
  rowVisible input.rowGroups ((input.counts.take c).sum + r)

section Workset

variable {setBit : ℤ → WordWrite} {blockSize : ℕ} {workset : MaskWorkset} {pr : PlannedRequest}
  {work : MaskWork} (h : workset.Placed blockSize)
  (hpinned : ∀ pr ∈ workset.planned, PinnedLayout pr.request.input)

include h hpinned

/-- The slices of a chunk tile it, and come from row groups that DuckDB reports. -/
theorem MaskWorkset.Placed.tiled {p c : ℕ} (hp : workset.planned[p]? = some pr)
    (hc : c < pr.request.input.counts.length) :
    Tiled (rowVisible pr.request.input.rowGroups) (pr.request.input.counts.take c).sum 0
      (pr.plan.rowGroups.getD c []) pr.request.input.counts[c] ∧
    ∀ s ∈ pr.plan.rowGroups.getD c [], s.rowGroup.Reports := by
  have hmem := List.mem_of_getElem? hp
  obtain ⟨hlength, -, htiled⟩ := capture_tiles (h.plans pr hmem)
  refine ⟨htiled c hc, ?_⟩
  refine capture_reports (h.plans pr hmem) (hpinned pr hmem).reports _ ?_
  rw [List.getD_eq_getElem _ _ (hlength ▸ hc)]
  exact List.getElem_mem _

/-- Every work has the slices and the rows of its chunk. -/
theorem MaskWorkset.Placed.ok (hw : work ∈ workset.works)
    (hp : workset.planned[work.plan]? = some pr) :
    work.Ok (rowVisible pr.request.input.rowGroups)
        (pr.request.input.counts.take work.chunk).sum ∧
      pr.request.input.counts[work.chunk]? = some work.rows := by
  have hmem := List.mem_of_getElem? hp
  obtain ⟨pr', hp', ⟨hchunk, -, hslices⟩, hwork⟩ := h.source work hw
  obtain rfl : pr = pr' := Option.some.inj (hp.symm.trans hp')
  rw [(capture_tiles (h.plans pr hmem)).1] at hchunk
  obtain ⟨htiled, hreports⟩ := h.tiled hpinned hp hchunk
  rw [← hwork] at htiled hreports hslices
  have hrows : work.rows = pr.request.input.counts[work.chunk] := by
    rw [h.rows work hw, ← htiled.sum_rowCount, Nat.zero_add]
  have hbits := (hpinned pr hmem).counts _ (List.getElem_mem hchunk)
  rw [← hrows] at htiled hbits
  refine ⟨⟨htiled, hbits, hreports, hslices, h.aligned work hw⟩, ?_⟩
  rw [hrows, List.getElem?_eq_getElem hchunk]

theorem MaskWorkset.Placed.exists_ok (hw : work ∈ workset.works) :
    ∃ vis base, work.Ok vis base := by
  obtain ⟨pr, hp, -⟩ := h.source work hw
  exact ⟨_, _, (h.ok hpinned hw hp).1⟩

/-- **No two tasks touch the same word.** -/
theorem MaskWorkset.Placed.fillTasks_apart :
    workset.fillTasks.Pairwise fun t t' => ∀ a, ¬(t.Touches a ∧ t'.Touches a) := by
  unfold MaskWorkset.fillTasks
  rw [List.pairwise_flatMap]
  constructor
  · intro work hw
    obtain ⟨vis, base, hok⟩ := h.exists_ok hpinned hw
    exact hok.tasks_apart
  · refine h.apart.imp_of_mem fun {w w'} hw hw' hdisjoint t ht t' ht' => ?_
    obtain ⟨vis, base, hok⟩ := h.exists_ok hpinned hw
    obtain ⟨vis', base', hok'⟩ := h.exists_ok hpinned hw'
    exact hdisjoint.tasks_apart hok hok' ht ht'

theorem MaskWorkset.Placed.touches_of_mem (hset : SetsBit setBit) {task : FillTask}
    (ht : task ∈ workset.fillTasks) {x : MaskWrite} (hx : x ∈ task.writes setBit) : task.Touches x.address := by
  obtain ⟨work, hw, ht⟩ := List.mem_flatMap.mp ht
  obtain ⟨vis, base, hok⟩ := h.exists_ok hpinned hw
  exact hok.touches_of_mem hset ht hx

/-- A word of a task is written by that task alone. -/
theorem MaskWorkset.Placed.other_tasks (hset : SetsBit setBit) {t : ℕ} {task : FillTask}
    (ht : workset.fillTasks[t]? = some task) {a : MaskAddress} (ha : task.Touches a) :
    ∀ t' ≠ t, ∀ x ∈ (workset.fillTasks.map (FillTask.writes setBit)).getD t' [],
      x.address ≠ a := by
  intro t' hne x hx heq
  rw [List.getD_eq_getElem?_getD, List.getElem?_map] at hx
  cases htask' : workset.fillTasks[t']? with
  | none => simp [htask'] at hx
  | some task' =>
    rw [htask', Option.map_some, Option.getD_some] at hx
    have ha' := h.touches_of_mem hpinned hset (List.mem_of_getElem? htask') hx
    rw [heq] at ha'
    obtain ⟨hlt, rfl⟩ := List.getElem?_eq_some_iff.mp ht
    obtain ⟨hlt', rfl⟩ := List.getElem?_eq_some_iff.mp htask'
    have hapart := List.pairwise_iff_getElem.mp (h.fillTasks_apart hpinned)
    rcases Nat.lt_or_gt_of_ne hne with hord | hord
    · exact hapart t' t hlt' hlt hord a ⟨ha', ha⟩
    · exact hapart t t' hlt hlt' hord a ⟨ha, ha'⟩

end Workset

/-! ## Runs of the tasks -/

/-- Run writes on the mask storage. -/
def execMasks (ws : List MaskWrite) (m : MaskAddress → Word) : MaskAddress → Word :=
  exec MaskWrite.address MaskWrite.act ws m

/-- The storage after preparation and a schedule of the fill tasks. -/
def MaskWorkset.run (workset : MaskWorkset) (schedule : List (ℕ × MaskWrite))
    (m : MaskAddress → Word) : MaskAddress → Word :=
  execMasks (zeroMasks workset.works ++ schedule.map Prod.snd) m

theorem address_injective (work : MaskWork) : Function.Injective work.address := by
  intro j j' heq
  unfold MaskWork.address at heq
  simpa using heq

/-- Preparation zeroes the words of every mask. -/
theorem execMasks_zeroMasks {works : List MaskWork} {work : MaskWork} (hw : work ∈ works) {j : ℕ}
    (hj : j < work.words) (m : MaskAddress → Word) :
    execMasks (zeroMasks works) m (work.address j) = 0 := by
  unfold execMasks
  apply exec_of_forall_eq
  · rintro x hx - old
    obtain ⟨work', -, hx⟩ := List.mem_flatMap.mp hx
    obtain ⟨j', -, rfl⟩ := List.mem_map.mp hx
    rfl
  · exact ⟨⟨work.address j, .store 0⟩, List.mem_flatMap.mpr ⟨work, hw, List.mem_map.mpr
      ⟨j, List.mem_range.mpr hj, rfl⟩⟩, rfl⟩

/-- A task alone, on the words of its mask. -/
theorem execMasks_writes (setBit : ℤ → WordWrite) (task : FillTask) (m : MaskAddress → Word)
    (j : ℕ) :
    execMasks (task.writes setBit) m (task.work.address j) =
      execWords (task.slices.flatMap fun s => (s.fill setBit).1)
        (fun j => m (task.work.address j)) j := by
  unfold execMasks execWords FillTask.writes
  apply exec_map (address_injective task.work)
  · intro w
    rfl
  · intro w
    rfl

section Runs

variable {setBit : ℤ → WordWrite} {blockSize : ℕ} {workset : MaskWorkset} {pr : PlannedRequest}
  {work : MaskWork} (h : workset.Placed blockSize)
  (hpinned : ∀ pr ∈ workset.planned, PinnedLayout pr.request.input)

include h hpinned

/-- The bits of a mask after any schedule. -/
theorem MaskWorkset.Placed.bit_run (hset : SetsBit setBit) (hw : work ∈ workset.works)
    (hp : workset.planned[work.plan]? = some pr) {schedule : List (ℕ × MaskWrite)}
    (hschedule : Interleaves (workset.fillTasks.map (FillTask.writes setBit)) schedule)
    (m : MaskAddress → Word) {r : ℕ} (hr : r < 32 * work.words) :
    work.bit (workset.run schedule m) r =
      (decide (r < work.rows) && chunkVisible pr.request.input work.chunk r) := by
  obtain ⟨hok, -⟩ := h.ok hpinned hw hp
  have hpos : 0 < work.rows := by
    by_contra hzero
    unfold MaskWork.words at hr
    omega
  -- A row of the same word: the padding shares its word with the last row.
  obtain ⟨r', hrow, hword⟩ : ∃ r', r' < work.rows ∧ r' / 32 = r / 32 ∧ (r < work.rows → r' = r) := by
    by_cases hlt : r < work.rows
    · exact ⟨r, hlt, rfl, fun _ => rfl⟩
    · refine ⟨work.rows - 1, by omega, ?_, fun hlt' => absurd hlt' hlt⟩
      unfold MaskWork.words at hr
      omega
  obtain ⟨s, hs, hlow, hhigh⟩ := hok.tiled.exists_mem (Nat.zero_le r') hrow
  rw [← hok.flatten_tasks] at hs
  obtain ⟨slices, hslices, hs⟩ := List.mem_flatten.mp hs
  obtain ⟨task, htask, rfl⟩ := List.mem_map.mp hslices
  have hwork := work_of_mem_tasks htask
  have hmem : task ∈ workset.fillTasks := List.mem_flatMap.mpr ⟨work, hw, htask⟩
  obtain ⟨t, ht⟩ := List.mem_iff_getElem?.mp hmem
  have htouch : task.Touches (work.address (r / 32)) := by
    refine ⟨s, hs, r / 32, by rw [hwork], ?_, ?_⟩
    · rw [← hword.1]
      exact Nat.div_le_div_right hlow
    · rw [← hword.1]
      exact Nat.div_le_div_right (by omega)
  obtain ⟨off, stop, htiled, hstop⟩ := hok.tiled_task htask
  have hbounds := htiled.mem_bounds hs
  have hlist : (workset.fillTasks.map (FillTask.writes setBit)).getD t [] = task.writes setBit := by
    rw [List.getD_eq_getElem?_getD, List.getElem?_map, ht, Option.map_some, Option.getD_some]
  have hvalue : workset.run schedule m (work.address (r / 32)) =
      execWords (task.slices.flatMap fun s => (s.fill setBit).1)
        (fun j => execMasks (zeroMasks workset.works) m (work.address j)) (r / 32) := by
    have hmap := execMasks_writes setBit task (execMasks (zeroMasks workset.works) m) (r / 32)
    rw [hwork] at hmap
    unfold MaskWorkset.run execMasks at *
    rw [exec_append, hschedule.exec_eq (h.other_tasks hpinned hset ht htouch), hlist, hmap]
  have hbit : work.bit (workset.run schedule m) r =
      bitAt (execWords (task.slices.flatMap fun s => (s.fill setBit).1)
        (fun j => execMasks (zeroMasks workset.works) m (work.address j))) r := by
    unfold MaskWork.bit bitAt
    dsimp only
    rw [hvalue]
  have hbits : stop < 2 ^ 31 := lt_of_le_of_lt hstop hok.bits
  rw [hbit, htiled.bitAt_fill hset hbits fun s hs => hok.reports s (hok.slices_subset htask hs)]
  by_cases hlt : r < work.rows
  · have hsame := hword.2 hlt
    rw [if_pos (by omega), decide_eq_true hlt, Bool.true_and]
    rfl
  · have hzero := execMasks_zeroMasks hw (j := r / 32) (by omega) m
    rw [if_neg (by omega), decide_eq_false hlt, Bool.false_and, bitAt, hzero]
    simp

/-- A chunk whose tasks drop no row is visible. -/
theorem MaskWorkset.Placed.visible_of_kept (hw : work ∈ workset.works)
    (hp : workset.planned[work.plan]? = some pr) (hkept : work.anyDeleted setBit = false)
    {r : ℕ} (hr : r < work.rows) : chunkVisible pr.request.input work.chunk r = true := by
  obtain ⟨hok, -⟩ := h.ok hpinned hw hp
  refine (hok.tiled.fill_dropped setBit hok.bits hok.reports).mp ?_ r (Nat.zero_le r) hr
  rw [← hok.flatten_tasks, List.any_flatten, List.any_map]
  exact hkept

/-- A chunk that needs no mask is visible. -/
theorem MaskWorkset.Placed.visible_of_clean {p c n : ℕ} (hp : workset.planned[p]? = some pr)
    (hc : pr.request.input.counts[c]? = some n) (hclean : ¬pr.Dirty c) {r : ℕ} (hr : r < n) :
    chunkVisible pr.request.input c r = true := by
  obtain ⟨hlt, rfl⟩ := List.getElem?_eq_some_iff.mp hc
  have hmem := List.mem_of_getElem? hp
  obtain ⟨htiled, hreports⟩ := h.tiled hpinned hp hlt
  obtain ⟨hlength, hflags, -⟩ := capture_tiles (h.plans pr hmem)
  have hbits := (hpinned pr hmem).counts _ (List.getElem_mem hlt)
  have hnonempty : pr.plan.rowGroups.getD c [] ≠ [] := by
    intro hempty
    rw [hempty] at htiled
    have heq : 0 = pr.request.input.counts[c] := htiled
    omega
  refine htiled.clean hbits hreports ?_ r (Nat.zero_le r) hr
  unfold PlannedRequest.Dirty at hclean
  have hflag : pr.plan.chunkHasVersionState.getD c false =
      (pr.plan.rowGroups.getD c []).any fun s => s.hasVersionState := by
    rw [hflags, List.getD_eq_getElem?_getD, List.getD_eq_getElem?_getD, List.getElem?_map,
      List.getElem?_eq_getElem (hlength ▸ hlt)]
    rfl
  rw [← hflag]
  by_contra hdirty
  exact hclean ⟨hlength ▸ hlt, by simpa using hdirty, hnonempty⟩

end Runs

/-- **The keep-masks**, after preparation, any interleaving of the fill tasks and
    finalization, with a `set_bit_unsafe` that sets the bit it names. For every chunk of a planned request, the default mask is left only
    if its rows are visible; another mask has the rows of its chunk, the visibility of
    row `r` in bit `r`, and zeros behind the last row. No two tasks write the same word,
    and every mask has a buffer of its own, inside one block or in a vector. -/
theorem masks_correct {setBit : ℤ → WordWrite} (hset : SetsBit setBit) {numaNodeOf : ℤ → ℤ}
    {reserve : ℕ → ℕ → Bool} {blockSize : ℕ} {requests : List MaskRequest}
    {workset : MaskWorkset} {schedule : List (ℕ × MaskWrite)}
    (hpinned : ∀ r ∈ requests, PinnedLayout r.input)
    (hok : prepareMaskTasks numaNodeOf reserve blockSize requests = .ok workset)
    (hschedule : Interleaves (workset.fillTasks.map (FillTask.writes setBit)) schedule)
    (m : MaskAddress → Word) :
    workset.planned.map PlannedRequest.request = requests.filter (fun r => !r.masksReady) ∧
    (∀ p pr c n, workset.planned[p]? = some pr → pr.request.input.counts[c]? = some n →
      (workset.finalMask setBit p c = none → ∀ r < n, chunkVisible pr.request.input c r = true) ∧
      ∀ work, workset.finalMask setBit p c = some work →
        work.rows = n ∧ ∀ r < 32 * work.words, work.bit (workset.run schedule m) r =
          (decide (r < n) && chunkVisible pr.request.input c r)) ∧
    (workset.fillTasks.Pairwise fun t t' =>
      ∀ x ∈ t.writes setBit, ∀ x' ∈ t'.writes setBit, x.address ≠ x'.address) ∧
    workset.works.Pairwise MaskWork.Disjoint ∧
    ∀ work ∈ workset.works, work.Inside blockSize workset.layouts := by
  obtain ⟨h, hrequests⟩ := prepareMaskTasks_placed hok
  have hlayouts : ∀ pr ∈ workset.planned, PinnedLayout pr.request.input := by
    intro pr hpr
    have hmem := List.mem_map_of_mem (f := PlannedRequest.request) hpr
    rw [hrequests] at hmem
    exact hpinned _ (List.mem_filter.mp hmem).1
  refine ⟨hrequests, fun p pr c n hp hc => ⟨fun hnone r hr => ?_, fun work hwork => ?_⟩, ?_,
    h.apart, h.inside⟩
  · by_cases hdirty : pr.Dirty c
    · obtain ⟨w, hw, hplan, hchunk⟩ := h.dirty p pr c hp hdirty
      unfold MaskWorkset.finalMask at hnone
      cases hfind : workset.works.find? fun work => work.plan = p ∧ work.chunk = c with
      | none =>
        have := List.find?_eq_none.mp hfind w hw
        simp [hplan, hchunk] at this
      | some work =>
        have hmem := List.mem_of_find?_eq_some hfind
        have hkey := List.find?_some hfind
        simp only [decide_eq_true_eq] at hkey
        obtain ⟨rfl, rfl⟩ := hkey
        rw [hfind, Option.filter_eq_none_iff] at hnone
        have hkept := hnone work rfl
        rw [Bool.not_eq_true] at hkept
        have hrows := (h.ok hlayouts hmem hp).2
        rw [hc] at hrows
        exact h.visible_of_kept hlayouts hmem hp hkept (Option.some.inj hrows ▸ hr)
    · exact h.visible_of_clean hlayouts hp hc hdirty hr
  · unfold MaskWorkset.finalMask at hwork
    have hfind := (Option.filter_eq_some_iff.mp hwork).1
    have hmem := List.mem_of_find?_eq_some hfind
    have hkey := List.find?_some hfind
    simp only [decide_eq_true_eq] at hkey
    obtain ⟨rfl, rfl⟩ := hkey
    have hrows := (h.ok hlayouts hmem hp).2
    rw [hc] at hrows
    obtain rfl := Option.some.inj hrows
    exact ⟨rfl, fun r hr => h.bit_run hlayouts hset hmem hp hschedule m hr⟩
  · refine (h.fillTasks_apart hlayouts).imp_of_mem fun {t t'} ht ht' hapart x hx x' hx' heq => ?_
    have hx := h.touches_of_mem hlayouts hset ht hx
    have hx' := h.touches_of_mem hlayouts hset ht' hx'
    exact hapart x.address ⟨hx, heq ▸ hx'⟩

/-! ## A row deleted from the last chunk -/

/-- A row group with the given visibility, as DuckDB reports it. -/
def RowGroup.ofVisible (rowStart count : ℕ) (visible : ℕ → Bool) : RowGroup where
  rowStart := rowStart
  count := count
  exactCount := if (List.range count).all visible then some count else none
  selVector v n :=
    let sel := (List.range n).filter fun i => visible (v * standardVectorSize + i)
    (sel.length, fun j => sel.getD j 0)
  visible := visible

theorem RowGroup.reports_ofVisible (rowStart count : ℕ) (visible : ℕ → Bool) :
    (RowGroup.ofVisible rowStart count visible).Reports := by
  refine ⟨fun v n _ _ => ?_, fun v n _ _ _ i => ?_, fun hexact r hr => ?_⟩
  · have hall := List.length_filter_eq_length_iff
      (p := fun i => visible (v * standardVectorSize + i)) (l := List.range n)
    rw [List.length_range] at hall
    simpa [RowGroup.ofVisible] using hall
  · have hmem : ∀ l : List ℕ, (∃ j < l.length, l.getD j 0 = i) ↔ i ∈ l := by
      intro l
      rw [List.mem_iff_getElem]
      refine exists_congr fun j => ⟨?_, ?_⟩
      · rintro ⟨hj, hi⟩
        exact ⟨hj, by rwa [List.getD_eq_getElem _ _ hj] at hi⟩
      · rintro ⟨hj, hi⟩
        exact ⟨hj, by rwa [List.getD_eq_getElem _ _ hj]⟩
    refine (hmem _).trans ?_
    simp [RowGroup.ofVisible, List.mem_filter]
  · unfold RowGroup.ofVisible at hexact hr ⊢
    dsimp only at hexact hr ⊢
    split_ifs at hexact with hall
    exact List.all_eq_true.mp hall r (List.mem_range.mpr hr)

/-- Chunks of two, no and three rows; the second row of the last one is deleted, and
    its row group has grown by two rows since the pin. -/
def deletedRequest : MaskRequest where
  input :=
    { counts := [2, 0, 3]
      vBase := 5
      startTime := 7
      rowGroups := [RowGroup.ofVisible 0 2 fun _ => true, RowGroup.ofVisible 2 5 fun r => r != 1] }
  chunkSpaces := [some ⟨true, 0⟩, none, some ⟨true, 0⟩]
  maskSlots := 3
  entryName := "t"

def deletedWorkset : MaskWorkset :=
  (prepareMaskTasks id (fun _ _ => true) 4096 [deletedRequest]).toOption.getD {}

theorem prepareMaskTasks_deletedRequest :
    prepareMaskTasks id (fun _ _ => true) 4096 [deletedRequest] = .ok deletedWorkset := by
  have hisOk : (prepareMaskTasks id (fun _ _ => true) 4096 [deletedRequest]).isOk = true := by
    decide +kernel
  unfold deletedWorkset
  cases hresult : prepareMaskTasks id (fun _ _ => true) 4096 [deletedRequest] with
  | error e =>
    rw [hresult] at hisOk
    cases hisOk
  | ok workset => rfl

theorem pinnedLayout_deletedRequest : PinnedLayout deletedRequest.input := by
  constructor
  · decide
  · intro rg hrg
    simp only [deletedRequest, List.mem_cons, List.not_mem_nil, or_false] at hrg
    rcases hrg with rfl | rfl
    · exact RowGroup.reports_ofVisible _ _ _
    · exact RowGroup.reports_ofVisible _ _ _

/-- `cudf::set_bit_unsafe` on 32-bit words. -/
def setBitWord (bit : ℤ) : WordWrite := ⟨(bit / 32).toNat, .set (1#32 <<< (bit % 32).toNat)⟩

theorem setsBit_setBitWord : SetsBit setBitWord := by
  refine ⟨fun bit => ?_, fun bit old i => ?_⟩
  · simp only [setBitWord]
    omega
  · have hmod : ((bit : ℤ) % 32).toNat = bit % 32 := by omega
    have hlt : bit % 32 < 32 := Nat.mod_lt _ (by decide)
    simp only [setBitWord, hmod, WordWrite.act, BitVec.getLsbD_or]
    rw [← BitVec.twoPow_eq, BitVec.getLsbD_twoPow, Bool.or_comm]
    simp [hlt, eq_comm]

/-- The first two chunks keep the default mask, and the mask of the last one drops its
    second row. -/
theorem masks_correct_deleted_row :
    deletedWorkset.finalMask setBitWord 0 0 = none ∧ chunkVisible deletedRequest.input 0 1 = true ∧
    ∃ work schedule, deletedWorkset.finalMask setBitWord 0 2 = some work ∧
      Interleaves (deletedWorkset.fillTasks.map (FillTask.writes setBitWord)) schedule ∧
      (List.range 5).map (work.bit (deletedWorkset.run schedule fun _ => 0xffffffff)) =
        [true, false, true, false, false] := by
  have hseq := interleaves_sequential (deletedWorkset.fillTasks.map (FillTask.writes setBitWord))
  obtain ⟨hrequests, hmasks, -⟩ := masks_correct setsBit_setBitWord
    (List.forall_mem_singleton.mpr pinnedLayout_deletedRequest) prepareMaskTasks_deletedRequest
    hseq fun _ => 0xffffffff
  have hfilter : [deletedRequest].filter (fun r => !r.masksReady) = [deletedRequest] := rfl
  rw [hfilter] at hrequests
  obtain ⟨pr, hplanned, hpr⟩ := List.map_eq_singleton_iff.mp hrequests
  have hp : deletedWorkset.planned[0]? = some pr := by
    rw [hplanned]
    rfl
  have hnone : deletedWorkset.finalMask setBitWord 0 0 = none := by
    rw [← Option.isNone_iff_eq_none]
    decide +kernel
  have hsome : (deletedWorkset.finalMask setBitWord 0 2).isSome = true := by
    decide +kernel
  obtain ⟨work, hwork⟩ := Option.isSome_iff_exists.mp hsome
  refine ⟨hnone, ?_, work, _, hwork, hseq, ?_⟩
  · have hvisible := (hmasks 0 pr 0 2 hp (by rw [hpr]; rfl)).1 hnone 1 (by decide)
    rwa [hpr] at hvisible
  · obtain ⟨hrows, hbits⟩ := (hmasks 0 pr 2 3 hp (by rw [hpr]; rfl)).2 work hwork
    have hwords : work.words = 1 := by
      unfold MaskWork.words
      rw [hrows]
    have hlist : (List.range 5).map (work.bit (deletedWorkset.run
        ((deletedWorkset.fillTasks.map (FillTask.writes setBitWord)).zipIdx.flatMap fun e =>
          e.1.map fun w => (e.2, w)) fun _ => 0xffffffff)) =
        (List.range 5).map fun r => decide (r < 3) && chunkVisible deletedRequest.input 2 r := by
      refine List.map_congr_left fun r hr => ?_
      rw [hbits r (by have := List.mem_range.mp hr; omega), hpr]
    rw [hlist]
    decide +kernel

end Sirius.ScanManager
