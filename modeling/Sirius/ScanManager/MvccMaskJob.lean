import Sirius.Scan.MvccVisibility

/-!
# The keep-mask job

Model of `src/scan_manager/mvcc_mask_job.cpp`: `prepare_mvcc_mask_tasks` (lines
133–347) and `finalize_mvcc_masks` (349–363). The staging blocks of a NUMA node are
numbered from zero; `reserve node bytes` says whether the node's reservation
succeeds with blocks of the expected size.

A fill task writes 32-bit words, each at an address: a word of a block, or of a
pageable vector. The tasks run in any interleaving of their writes.

* `carveMasks_carved`: every mask has its buffer inside a block, and no two overlap.
* `MaskWork.Ok.tasks_apart`: no two tasks of a mask touch the same word.
-/

namespace Sirius.ScanManager

open Sirius.Common Sirius.Scan

/-! ## Requests -/

/-- What `numa_node_for` reads of a `memory_space`. -/
structure MemorySpace where
  host : Bool
  deviceId : ℤ
  deriving DecidableEq, Repr

/-- `numa_node_for(space, topology)`. -/
def numaNodeFor (numaNodeOf : ℤ → ℤ) (space : MemorySpace) : ℕ :=
  let numa := if space.host then space.deviceId else numaNodeOf space.deviceId
  if numa < 0 then 0 else numa.toNat

/-- `mvcc_mask_job_request`. `maskSlots` is the size of its mask set, whose slots are
    default; `malformed` is a null storage or context. -/
structure MaskRequest where
  input : CaptureInput
  chunkSpaces : List (Option MemorySpace)
  maskSlots : ℕ
  entryName : String
  malformed : Bool := false
  masksReady : Bool := false

/-- A plan with the request that it is for. -/
structure PlannedRequest where
  request : MaskRequest
  plan : VisibilityPlan

/-- Stage 1: the captures (lines 147–180). -/
def capturePlans : List MaskRequest → Except String (List PlannedRequest)
  | [] => .ok []
  | request :: rest =>
    if request.masksReady then capturePlans rest
    else if request.malformed then
      .error ("[prepare_mvcc_mask_tasks] malformed mask request for pinned entry '" ++
        request.entryName ++ "'")
    else
      match captureVisibilityPlan request.input with
      | .error e =>
        .error ("[prepare_mvcc_mask_tasks] pinned entry '" ++ request.entryName ++ "': " ++ e)
      | .ok plan =>
        if plan.rowGroups.length ≠ request.maskSlots ∨
            plan.rowGroups.length ≠ request.chunkSpaces.length then
          .error ("[prepare_mvcc_mask_tasks] pinned entry '" ++ request.entryName ++
            "': chunk count mismatch between the visibility plan (" ++
            toString plan.rowGroups.length ++ "), the mask set (" ++ toString request.maskSlots ++
            ") and chunk_spaces (" ++ toString request.chunkSpaces.length ++ ")")
        else do
          let planned ← capturePlans rest
          return { request := request, plan := plan } :: planned

/-! ## Mask storage -/

/-- Where the words of a mask are: in a block of a node, or in a vector of its own. -/
inductive Storage where
  | block (node index : ℕ)
  | pageable (plan chunk : ℕ)
  deriving DecidableEq, Repr

/-- `mvcc_mask_work`, with the storage of its mask: `offset` is in bytes. -/
structure MaskWork where
  plan : ℕ
  chunk : ℕ
  slices : List MvccRowGroupSlice
  rows : ℕ
  storage : Storage
  offset : ℕ

/-- The words of the mask. -/
def MaskWork.words (work : MaskWork) : ℕ := (work.rows + 31) / 32

/-- A dirty chunk: what the loop of stage 2 visits. -/
structure DirtyChunk where
  plan : ℕ
  chunk : ℕ
  slices : List MvccRowGroupSlice
  space : Option MemorySpace
  entryName : String

/-- The chunks of a plan that have version state (lines 238–240). -/
def dirtyChunks (p : ℕ) (planned : PlannedRequest) : List DirtyChunk :=
  (List.range planned.plan.rowGroups.length).filterMap fun c =>
    if planned.plan.chunkHasVersionState.getD c false = false ∨
        (planned.plan.rowGroups.getD c []).isEmpty then none
    else
      some
        { plan := p
          chunk := c
          slices := planned.plan.rowGroups.getD c []
          space := planned.request.chunkSpaces.getD c none
          entryName := planned.request.entryName }

/-- `node_layout`, less its slots. -/
structure NodeLayout where
  blocksUsed : ℕ := 0
  curOffset : ℕ := 0
  deriving DecidableEq, Repr

/-- The next carve of a node (lines 276–282): the layout after it. The carve is in
    the last block, and ends at `curOffset`. -/
def NodeLayout.carve (layout : NodeLayout) (blockSize bytes : ℕ) : NodeLayout :=
  let aligned := (layout.curOffset + 64 - 1) / 64 * 64
  if layout.blocksUsed = 0 ∨ aligned + bytes > blockSize then
    { blocksUsed := layout.blocksUsed + 1, curOffset := bytes }
  else { layout with curOffset := aligned + bytes }

/-- Stage 2: a mask for every dirty chunk (lines 236–285), in the order of the loop,
    and the layouts of the nodes. -/
def carveMasks (numaNodeOf : ℤ → ℤ) (blockSize : ℕ) :
    (ℕ → NodeLayout) → List DirtyChunk → Except String (List MaskWork × (ℕ → NodeLayout))
  | layouts, [] => .ok ([], layouts)
  | layouts, d :: rest =>
    let rows := (d.slices.map MvccRowGroupSlice.rowCount).sum
    let bytes := (rows + 31) / 32 * 4
    if bytes > blockSize then do
      let (works, layouts') ← carveMasks numaNodeOf blockSize layouts rest
      return ({ plan := d.plan, chunk := d.chunk, slices := d.slices, rows := rows,
                storage := .pageable d.plan d.chunk, offset := 0 } :: works, layouts')
    else
      match d.space with
      | none =>
        .error ("[prepare_mvcc_mask_tasks] pinned entry '" ++ d.entryName ++ "': chunk " ++
          toString d.chunk ++ " has no memory space")
      | some space =>
        let node := numaNodeFor numaNodeOf space
        let layout := (layouts node).carve blockSize bytes
        do
          let (works, layouts') ← carveMasks numaNodeOf blockSize
            (Function.update layouts node layout) rest
          return ({ plan := d.plan, chunk := d.chunk, slices := d.slices, rows := rows,
                    storage := .block node (layout.blocksUsed - 1),
                    offset := layout.curOffset - bytes } :: works, layouts')

/-- The node of a mask in a block. -/
def MaskWork.node (work : MaskWork) : ℕ :=
  match work.storage with
  | .block node _ => node
  | .pageable _ _ => 0

def MaskWork.inBlock (work : MaskWork) : Bool :=
  match work.storage with
  | .block _ _ => true
  | .pageable _ _ => false

/-- The order of `workset.works`: the pageable masks, then the nodes in order. -/
def orderWorks (works : List MaskWork) : List MaskWork :=
  works.filter (fun w => !w.inBlock) ++
    (works.filter fun w => w.inBlock).mergeSort fun w w' => w.node ≤ w'.node

/-! ## Fill tasks -/

/-- `metadata_parse_chunk()`. -/
def metadataParseChunk : ℕ := 8

/-- Consecutive groups of `step` elements. -/
def groupsOf {α : Type*} (step : ℕ) : ℕ → List α → List (List α)
  | 0, _ => []
  | _ + 1, [] => []
  | n + 1, a :: l => (a :: l).take step :: groupsOf step n ((a :: l).drop step)

/-- A fill task: some of the slices of one work. -/
structure FillTask where
  work : MaskWork
  slices : List MvccRowGroupSlice

/-- Stage 3: the tasks of one work (lines 319–345). -/
def MaskWork.tasks (work : MaskWork) : List FillTask :=
  let aligned := work.slices.all fun s => s.chunkOffset % 32 == 0
  let step := if aligned then metadataParseChunk else work.slices.length
  (groupsOf step work.slices.length work.slices).map fun slices => ⟨work, slices⟩

/-- A word of the mask storage. -/
abbrev MaskAddress := Storage × ℕ

/-- A write of a task, at its address. -/
structure MaskWrite where
  address : MaskAddress
  op : WordOp

def MaskWrite.act (w : MaskWrite) (old : Word) : Word := WordWrite.act ⟨0, w.op⟩ old

/-- The address of word `j` of the mask. -/
def MaskWork.address (work : MaskWork) (j : ℕ) : MaskAddress := (work.storage, work.offset / 4 + j)

section Fill

variable (setBit : ℤ → WordWrite)

/-- `fill_keep_mask_for_row_groups` on the mask of the work. -/
def FillTask.writes (task : FillTask) : List MaskWrite :=
  (task.slices.flatMap fun s => (s.fill setBit).1).map fun w => ⟨task.work.address w.word, w.op⟩

/-- What `fill_keep_mask_for_row_groups` returns. -/
def FillTask.anyDropped (task : FillTask) : Bool := task.slices.any fun s => (s.fill setBit).2

/-- `any_deleted` of a work, after its tasks have run. -/
def MaskWork.anyDeleted (work : MaskWork) : Bool := work.tasks.any (FillTask.anyDropped setBit)

end Fill

/-- The carved masks are zeroed (lines 300–302, and the pageable vector). -/
def zeroMasks (works : List MaskWork) : List MaskWrite :=
  works.flatMap fun work => (List.range work.words).map fun j => ⟨work.address j, .store 0⟩

/-- `mvcc_mask_workset`, with the blocks of the nodes. -/
structure MaskWorkset where
  planned : List PlannedRequest := []
  works : List MaskWork := []
  layouts : ℕ → NodeLayout := fun _ => {}

def MaskWorkset.fillTasks (workset : MaskWorkset) : List FillTask :=
  workset.works.flatMap MaskWork.tasks

/-- `prepare_mvcc_mask_tasks`. -/
def prepareMaskTasks (numaNodeOf : ℤ → ℤ) (reserve : ℕ → ℕ → Bool) (blockSize : ℕ)
    (requests : List MaskRequest) : Except String MaskWorkset := do
  let planned ← capturePlans requests
  if (planned.any fun p => p.plan.anyVersionState) = false then
    .ok { planned := planned }
  else do
    let (works, layouts) ← carveMasks numaNodeOf blockSize (fun _ => {})
      (planned.zipIdx.flatMap fun e => dirtyChunks e.2 e.1)
    let nodes := ((works.filter MaskWork.inBlock).map MaskWork.node).mergeSort
    match nodes.find? fun node => !reserve node ((layouts node).blocksUsed * blockSize) with
    | some node =>
      .error ("[prepare_mvcc_mask_tasks] failed to reserve " ++
        toString ((layouts node).blocksUsed * blockSize) ++
        " bytes of pinned host memory for MVCC keep-masks (NUMA node " ++ toString node ++ ")")
    | none => .ok { planned := planned, works := orderWorks works, layouts := layouts }

/-- `finalize_mvcc_masks`: the mask of chunk `c` of plan `p`, or `none` for the default
    mask, which keeps every row. -/
def MaskWorkset.finalMask (setBit : ℤ → WordWrite) (workset : MaskWorkset) (p c : ℕ) :
    Option MaskWork :=
  (workset.works.find? fun work => work.plan = p ∧ work.chunk = c).filter
    (MaskWork.anyDeleted setBit)

/-- Bit `r` of a mask. -/
def MaskWork.bit (work : MaskWork) (m : MaskAddress → Word) (r : ℕ) : Bool :=
  bitAt (fun j => m (work.address j)) r

/-! ## Placement -/

/-- The bytes of the mask. -/
def MaskWork.bytes (work : MaskWork) : ℕ := work.words * 4

/-- A place that no carve of the layout reaches. -/
def NodeLayout.Beyond (layout : NodeLayout) (block offset : ℕ) : Prop :=
  layout.blocksUsed ≤ block ∨ (block + 1 = layout.blocksUsed ∧ layout.curOffset ≤ offset)

theorem NodeLayout.carve_spec (layout : NodeLayout) {blockSize bytes : ℕ} (h : bytes ≤ blockSize) :
    0 < (layout.carve blockSize bytes).blocksUsed ∧
    layout.blocksUsed ≤ (layout.carve blockSize bytes).blocksUsed ∧
    bytes ≤ (layout.carve blockSize bytes).curOffset ∧
    (layout.carve blockSize bytes).curOffset ≤ blockSize ∧
    ((layout.carve blockSize bytes).curOffset - bytes) % 64 = 0 ∧
    layout.Beyond ((layout.carve blockSize bytes).blocksUsed - 1)
      ((layout.carve blockSize bytes).curOffset - bytes) := by
  unfold carve Beyond
  dsimp only
  split_ifs with hnew
  · refine ⟨by simp, by simp, by simp, h, by simp, .inl (by simp)⟩
  · push Not at hnew
    obtain ⟨hused, hfits⟩ := hnew
    dsimp only
    refine ⟨Nat.pos_of_ne_zero hused, le_rfl, by omega, by omega, by omega, .inr ?_⟩
    omega

theorem NodeLayout.Beyond.mono {layout : NodeLayout} {blockSize bytes block offset : ℕ}
    (h : (layout.carve blockSize bytes).Beyond block offset) : layout.Beyond block offset := by
  unfold carve Beyond at *
  dsimp only at h
  split_ifs at h with hnew <;> dsimp only at h <;> omega

/-- The mask has its buffer inside one allocated block, or in a vector of its own. -/
def MaskWork.Inside (blockSize : ℕ) (layouts : ℕ → NodeLayout) (work : MaskWork) : Prop :=
  match work.storage with
  | .block node index =>
    index < (layouts node).blocksUsed ∧ work.offset + work.bytes ≤ blockSize
  | .pageable plan chunk => plan = work.plan ∧ chunk = work.chunk ∧ work.offset = 0

/-- The buffers of two masks do not overlap. -/
def MaskWork.Disjoint (work work' : MaskWork) : Prop :=
  work.storage ≠ work'.storage ∨ work.offset + work.bytes ≤ work'.offset ∨
    work'.offset + work'.bytes ≤ work.offset

theorem MaskWork.Disjoint.symm {work work' : MaskWork} (h : work.Disjoint work') :
    work'.Disjoint work := by
  rcases h with h | h | h
  · exact .inl (Ne.symm h)
  · exact .inr (.inr h)
  · exact .inr (.inl h)

/-- What stage 2 does with the chunks: one work for each, in their order, beyond the
    carves made before. -/
structure Carved (blockSize : ℕ) (layouts layouts' : ℕ → NodeLayout) (chunks : List DirtyChunk)
    (works : List MaskWork) : Prop where
  chunks : works.map (fun w => (w.plan, w.chunk, w.slices)) =
    chunks.map fun d => (d.plan, d.chunk, d.slices)
  rows : ∀ w ∈ works, w.rows = (w.slices.map MvccRowGroupSlice.rowCount).sum
  grows : ∀ node, (layouts node).blocksUsed ≤ (layouts' node).blocksUsed
  inside : ∀ w ∈ works, w.Inside blockSize layouts'
  aligned : ∀ w ∈ works, w.offset % 64 = 0
  beyond : ∀ w ∈ works, ∀ node index, w.storage = .block node index →
    (layouts node).Beyond index w.offset
  apart : (works.map fun w => (w.plan, w.chunk)).Nodup → works.Pairwise MaskWork.Disjoint

variable {numaNodeOf : ℤ → ℤ} {blockSize : ℕ} {layouts layouts' : ℕ → NodeLayout}
  {chunks : List DirtyChunk} {works : List MaskWork} {d : DirtyChunk} {w : MaskWork}

/-- The next mask is a vector of its own. -/
theorem Carved.pageable (h : Carved blockSize layouts layouts' chunks works)
    (hkey : (w.plan, w.chunk, w.slices) = (d.plan, d.chunk, d.slices))
    (hrows : w.rows = (w.slices.map MvccRowGroupSlice.rowCount).sum)
    (hstorage : w.storage = .pageable w.plan w.chunk) (hoffset : w.offset = 0) :
    Carved blockSize layouts layouts' (d :: chunks) (w :: works) := by
  refine ⟨by rw [List.map_cons, List.map_cons, hkey, h.chunks], List.forall_mem_cons.mpr
    ⟨hrows, h.rows⟩, h.grows, List.forall_mem_cons.mpr ⟨?_, h.inside⟩, List.forall_mem_cons.mpr
    ⟨by rw [hoffset], h.aligned⟩, List.forall_mem_cons.mpr ⟨?_, h.beyond⟩, fun hnodup => ?_⟩
  · unfold MaskWork.Inside
    rw [hstorage]
    exact ⟨rfl, rfl, hoffset⟩
  · intro node index hblock
    rw [hstorage] at hblock
    cases hblock
  · rw [List.map_cons, List.nodup_cons] at hnodup
    refine List.pairwise_cons.mpr ⟨fun w' hw' => .inl ?_, h.apart hnodup.2⟩
    intro hsame
    have hinside := h.inside w' hw'
    unfold MaskWork.Inside at hinside
    rw [← hsame, hstorage] at hinside
    exact hnodup.1 (List.mem_map.mpr ⟨w', hw', by rw [hinside.1, hinside.2.1]⟩)

/-- The next mask is carved from a block. -/
theorem Carved.block {node bytes : ℕ} {layout : NodeLayout}
    (hlayout : layout = (layouts node).carve blockSize bytes) (hfits : bytes ≤ blockSize)
    (h : Carved blockSize (Function.update layouts node layout) layouts' chunks works)
    (hkey : (w.plan, w.chunk, w.slices) = (d.plan, d.chunk, d.slices))
    (hrows : w.rows = (w.slices.map MvccRowGroupSlice.rowCount).sum) (hbytes : w.bytes = bytes)
    (hstorage : w.storage = .block node (layout.blocksUsed - 1))
    (hoffset : w.offset = layout.curOffset - bytes) :
    Carved blockSize layouts layouts' (d :: chunks) (w :: works) := by
  obtain ⟨hused, hgrows, hlow, hhigh, haligned, hbeyond⟩ := (layouts node).carve_spec hfits
  rw [← hlayout] at hused hgrows hlow hhigh haligned hbeyond
  have hlast := h.grows node
  rw [Function.update_self] at hlast
  refine ⟨by rw [List.map_cons, List.map_cons, hkey, h.chunks], List.forall_mem_cons.mpr
    ⟨hrows, h.rows⟩, fun n => ?_, List.forall_mem_cons.mpr ⟨?_, h.inside⟩,
    List.forall_mem_cons.mpr ⟨by rw [hoffset, haligned], h.aligned⟩,
    List.forall_mem_cons.mpr ⟨?_, fun w' hw' n index hblock => ?_⟩, fun hnodup => ?_⟩
  · by_cases hn : n = node
    · subst hn
      exact hgrows.trans hlast
    · have := h.grows n
      rwa [Function.update_of_ne hn] at this
  · unfold MaskWork.Inside
    rw [hstorage, hbytes, hoffset]
    exact ⟨by omega, by omega⟩
  · intro n index hblock
    rw [hstorage] at hblock
    cases hblock
    rw [hoffset]
    exact hbeyond
  · have hb := h.beyond w' hw' n index hblock
    by_cases hn : n = node
    · subst hn
      rw [Function.update_self, hlayout] at hb
      exact hb.mono
    · rwa [Function.update_of_ne hn] at hb
  · rw [List.map_cons, List.nodup_cons] at hnodup
    refine List.pairwise_cons.mpr ⟨fun w' hw' => ?_, h.apart hnodup.2⟩
    by_cases hsame : w.storage = w'.storage
    · have hb := h.beyond w' hw' node (layout.blocksUsed - 1) (by rw [← hsame, hstorage])
      rw [Function.update_self] at hb
      refine .inr (.inl ?_)
      rw [hoffset, hbytes]
      rcases hb with hb | ⟨-, hb⟩
      · omega
      · omega
    · exact .inl hsame

theorem carveMasks_carved
    (hok : carveMasks numaNodeOf blockSize layouts chunks = .ok (works, layouts')) :
    Carved blockSize layouts layouts' chunks works := by
  induction chunks generalizing layouts works with
  | nil =>
    cases hok
    exact ⟨rfl, by simp, fun _ => le_rfl, by simp, by simp, by simp, fun _ => List.Pairwise.nil⟩
  | cons d rest ih =>
    unfold carveMasks at hok
    dsimp only at hok
    split_ifs at hok with hlarge
    · obtain ⟨⟨works', layouts''⟩, hrest, heq⟩ := bind_eq_ok.mp hok
      cases heq
      exact (ih hrest).pageable rfl rfl rfl rfl
    · cases hspace : d.space with
      | none => simp [hspace] at hok
      | some space =>
        simp only [hspace] at hok
        obtain ⟨⟨works', layouts''⟩, hrest, heq⟩ := bind_eq_ok.mp hok
        cases heq
        exact Carved.block rfl (not_lt.mp hlarge) (ih hrest) rfl rfl rfl rfl rfl

theorem orderWorks_perm (works : List MaskWork) : (orderWorks works).Perm works := by
  unfold orderWorks
  refine ((List.mergeSort_perm _ _).append_left _).trans (List.perm_append_comm.trans ?_)
  exact List.filter_append_perm _ _

/-! ## Tasks -/

theorem groupsOf_flatten {α : Type*} {step : ℕ} (hstep : 0 < step) {n : ℕ} {l : List α}
    (hn : l.length ≤ n) : (groupsOf step n l).flatten = l := by
  induction n generalizing l with
  | zero =>
    rw [List.length_eq_zero_iff.mp (Nat.le_zero.mp hn)]
    rfl
  | succ n ih =>
    cases l with
    | nil => rfl
    | cons a l =>
      rw [groupsOf, List.flatten_cons, ih, List.take_append_drop]
      rw [List.length_drop]
      rw [List.length_cons] at hn ⊢
      omega

/-- A step of the whole length makes one group. -/
theorem groupsOf_length {α : Type*} (l : List α) (hl : l ≠ []) :
    groupsOf l.length l.length l = [l] := by
  cases l with
  | nil => exact absurd rfl hl
  | cons a l =>
    rw [List.length_cons, groupsOf, ← List.length_cons, List.take_length, List.drop_length]
    cases l.length <;> rfl

/-- A work whose slices tile its rows. -/
structure MaskWork.Ok (vis : ℕ → Bool) (base : ℕ) (work : MaskWork) : Prop where
  tiled : Tiled vis base 0 work.slices work.rows
  bits : work.rows < 2 ^ 31
  reports : ∀ s ∈ work.slices, s.rowGroup.Reports
  nonempty : work.slices ≠ []
  aligned : work.offset % 64 = 0

variable {vis : ℕ → Bool} {base : ℕ} {work : MaskWork} {task : FillTask}

/-- The tasks of a work split its slices. -/
theorem MaskWork.Ok.flatten_tasks (h : work.Ok vis base) :
    (work.tasks.map FillTask.slices).flatten = work.slices := by
  unfold MaskWork.tasks
  dsimp only
  rw [List.map_map]
  have hid : (FillTask.slices ∘ fun slices => (⟨work, slices⟩ : FillTask)) = id := rfl
  rw [hid, List.map_id]
  apply groupsOf_flatten _ le_rfl
  split_ifs
  · decide
  · exact List.length_pos_of_ne_nil h.nonempty

theorem work_of_mem_tasks (h : task ∈ work.tasks) : task.work = work := by
  unfold MaskWork.tasks at h
  obtain ⟨slices, -, rfl⟩ := List.mem_map.mp h
  rfl

/-- The slices of a task are consecutive slices of its work. -/
theorem MaskWork.Ok.tiled_task (h : work.Ok vis base) (htask : task ∈ work.tasks) :
    ∃ off stop, Tiled vis base off task.slices stop ∧ stop ≤ work.rows := by
  obtain ⟨before, after, hsplit⟩ := List.append_of_mem (List.mem_map_of_mem (f := FillTask.slices)
    htask)
  have htiled := h.tiled
  rw [← h.flatten_tasks, hsplit, List.flatten_append, List.flatten_cons] at htiled
  obtain ⟨off, -, htail⟩ := htiled.split
  obtain ⟨stop, hslices, hrest⟩ := htail.split
  exact ⟨off, stop, hslices, hrest.off_le⟩

theorem MaskWork.Ok.slices_subset (h : work.Ok vis base) (htask : task ∈ work.tasks)
    {s : MvccRowGroupSlice} (hs : s ∈ task.slices) : s ∈ work.slices := by
  rw [← h.flatten_tasks]
  exact List.mem_flatten.mpr ⟨task.slices, List.mem_map_of_mem htask, hs⟩

/-- The task has a slice with a bit in the word at this address. -/
def FillTask.Touches (task : FillTask) (a : MaskAddress) : Prop :=
  ∃ s ∈ task.slices, ∃ j, a = task.work.address j ∧ s.chunkOffset / 32 ≤ j ∧
    j ≤ (s.chunkOffset + s.rowCount - 1) / 32

/-- A task writes words that it touches. -/
theorem MaskWork.Ok.touches_of_mem {setBit : ℤ → WordWrite} (hset : SetsBit setBit)
    (h : work.Ok vis base) (htask : task ∈ work.tasks) {x : MaskWrite}
    (hx : x ∈ task.writes setBit) : task.Touches x.address := by
  unfold FillTask.writes at hx
  obtain ⟨y, hy, rfl⟩ := List.mem_map.mp hx
  obtain ⟨s, hs, hy⟩ := List.mem_flatMap.mp hy
  have hok := h.tiled.ok h.bits h.reports (h.slices_subset htask hs)
  exact ⟨s, hs, y.word, rfl, MvccRowGroupSlice.word_of_mem_fill hset hok hy⟩

/-- What a task touches is in the buffer of its mask. -/
theorem MaskWork.Ok.touches_buffer (h : work.Ok vis base) (htask : task ∈ work.tasks)
    {a : MaskAddress} (ha : task.Touches a) :
    a.1 = work.storage ∧ work.offset / 4 ≤ a.2 ∧ a.2 < work.offset / 4 + work.words := by
  obtain ⟨s, hs, j, rfl, -, hj⟩ := ha
  have hbounds := h.tiled.mem_bounds (h.slices_subset htask hs)
  rw [work_of_mem_tasks htask]
  refine ⟨rfl, Nat.le_add_right _ _, ?_⟩
  unfold MaskWork.address MaskWork.words
  dsimp only
  omega

/-- Two tasks of one work touch different words: the slices of a work with several
    tasks start on word boundaries. -/
theorem MaskWork.Ok.tasks_apart (h : work.Ok vis base) :
    work.tasks.Pairwise fun t t' => ∀ a, ¬(t.Touches a ∧ t'.Touches a) := by
  by_cases haligned : (work.slices.all fun s => s.chunkOffset % 32 == 0) = true
  · have hslices : work.slices.Pairwise fun s s' =>
        (s.chunkOffset + s.rowCount - 1) / 32 < s'.chunkOffset / 32 := by
      refine h.tiled.pairwise.imp_of_mem fun {s s'} hs hs' hlt => ?_
      have hword := List.all_eq_true.mp haligned s' hs'
      rw [beq_iff_eq] at hword
      have := h.tiled.mem_bounds hs
      omega
    rw [← h.flatten_tasks, List.pairwise_flatten] at hslices
    have hgroups := List.pairwise_map.mp hslices.2
    refine hgroups.imp_of_mem fun {t t'} ht ht' hapart a ha => ?_
    obtain ⟨⟨s, hs, j, rfl, -, hj⟩, s', hs', j', heq, hj', -⟩ := ha
    rw [work_of_mem_tasks ht, work_of_mem_tasks ht'] at heq
    have hsame : j = j' := by
      unfold MaskWork.address at heq
      simpa using heq
    have := hapart s hs s' hs'
    omega
  · have hone : work.tasks = [⟨work, work.slices⟩] := by
      unfold MaskWork.tasks
      dsimp only
      rw [if_neg haligned, groupsOf_length _ h.nonempty]
      rfl
    rw [hone]
    exact List.pairwise_singleton _ _

/-- Tasks of works with disjoint buffers touch different words. -/
theorem MaskWork.Disjoint.tasks_apart {vis' : ℕ → Bool} {base' : ℕ} {work' : MaskWork}
    {task' : FillTask} (hdisjoint : work.Disjoint work') (h : work.Ok vis base)
    (h' : work'.Ok vis' base') (ht : task ∈ work.tasks) (ht' : task' ∈ work'.tasks)
    (a : MaskAddress) : ¬(task.Touches a ∧ task'.Touches a) := by
  rintro ⟨ha, ha'⟩
  obtain ⟨hstorage, hlow, hhigh⟩ := h.touches_buffer ht ha
  obtain ⟨hstorage', hlow', hhigh'⟩ := h'.touches_buffer ht' ha'
  have := h.aligned
  have := h'.aligned
  unfold MaskWork.Disjoint MaskWork.bytes at hdisjoint
  rcases hdisjoint with hne | hle | hle
  · exact hne (hstorage.symm.trans hstorage')
  · omega
  · omega

end Sirius.ScanManager
