import Sirius.Io.PreparedSlice

/-!
# The physical plan of the io_uring reactor

Model of `plan_slice` (src/io/uring/uring_reactor.cpp:284-452) with `dynamic_io_target` and
`is_odirect_compatible` (src/io/uring/types.hpp:65-94). A slice is read in one of three ways:
through staging blocks, into a contiguous buffer, or into the buffers of cached chunks. The
object, coordinator, completion and device copy that `attach_common` hands on are left out.

`IOV_MAX` is a parameter, as is the pair of descriptors of the file.

* `planSlice`: the function.
* `fragmentOps_groups`: the operations of a fragmented slice are those of groups of its chunks.
* `plan_slice_operations`: what the operations are, over every slice inside its file.
-/

namespace Sirius.Io.Uring

open Sirius.Common.Tiling
open Sirius.IoCache
open Sirius.Io

/-! ## The functions -/

/-- `min_dynamic_io_size` and `max_dynamic_io_size`. -/
def minDynamicIoSize : ℕ := 256 * 2 ^ 10

def maxDynamicIoSize : ℕ := 16 * 2 ^ 20

/-- `MAX_PLAIN_READ_SIZE`. -/
def maxPlainReadSize : ℕ := 2 ^ 30

/-- The size and the descriptors of a `local_io_object`, and `config::use_odirect`. -/
structure LocalFile where
  size : ℕ
  bufferedHandle : ℤ
  odirectHandle : ℤ
  useOdirect : Bool
  deriving DecidableEq, Repr

/-- `uring_io_op` (types.hpp, lines 42–52), and what it holds of `io_op_request`. -/
structure UringIoOp where
  ioRng : Span
  fd : ℤ
  fileSize : ℕ
  useOdirect : Bool
  stagingBlocks : ℕ := 0
  iovecs : List Iovec := []
  completionChunks : List CachedChunk := []
  deriving DecidableEq, Repr

/-- `odirect_available` (types.hpp, lines 56–59). -/
def odirectAvailable (file : LocalFile) : Bool := file.useOdirect && decide (file.odirectHandle ≥ 0)

/-- `std::clamp`. -/
def clamp (x lo hi : ℕ) : ℕ := if x < lo then lo else if hi < x then hi else x

/-- `dynamic_io_target` (types.hpp, lines 67–79). -/
def dynamicIoTarget (backlogBytes freeSlots blockSize : ℕ) : ℕ :=
  if blockSize = 0 ∨ freeSlots = 0 then 0
  else
    let desired := clamp backlogBytes minDynamicIoSize maxDynamicIoSize
    let desiredBlocks := max 1 (desired / blockSize + if desired % blockSize ≠ 0 then 1 else 0)
    let maxBlocks := max 1 (maxDynamicIoSize / blockSize)
    let blocks := min (min desiredBlocks freeSlots) maxBlocks
    min (blocks * blockSize) maxDynamicIoSize

/-- The target of lines 363–364 and 406–408. -/
def ioTarget (backlogBytes freeSlots blockSize : ℕ) : ℕ :=
  let target := dynamicIoTarget backlogBytes freeSlots blockSize
  if target = 0 then min blockSize maxDynamicIoSize else target

/-- `is_odirect_compatible` (types.hpp, lines 81–94). -/
def isOdirectCompatible (ioRange : Span) (iovecs : List Iovec) : Bool :=
  decide (ioRange.offset % ioBlockSize = 0) && decide (ioRange.size % ioBlockSize = 0) &&
    !iovecs.isEmpty &&
    iovecs.all (fun iov => decide (iov.base ≠ 0) && decide (iov.len ≠ 0) &&
      decide (iov.len % ioBlockSize = 0) && decide (iov.base % ioBlockSize = 0)) &&
    decide ((iovecs.map Iovec.len).sum = ioRange.size)

/-- `staged_physical_range` (lines 284–294). -/
def stagedPhysicalRange (logical : Span) (fileSize : ℕ) (useOdirect : Bool) : Span :=
  if !useOdirect then logical
  else
    let start := alignDown logical.offset ioBlockSize
    let last := min (alignUp (rangeEnd logical) ioBlockSize) (alignUp fileSize ioBlockSize)
    if last > start then ⟨start, last - start⟩ else ⟨start, 0⟩

/-- `make_op` (lines 312–327). -/
def makeOp (file : LocalFile) (physical : Span) (useOdirect : Bool) : UringIoOp :=
  { ioRng := physical
    fd := if useOdirect then file.odirectHandle else file.bufferedHandle
    fileSize := file.size
    useOdirect := useOdirect }

/-- The loop of lines 366–374. -/
def stagedOps (file : LocalFile) (physical : Span) (direct : Bool) (blockSize target : ℕ) :
    List UringIoOp :=
  (pieces target physical.size physical.size 0).map fun piece =>
    { makeOp file ⟨physical.offset + piece.offset, piece.size⟩ direct with
      stagingBlocks := piece.size / blockSize + if piece.size % blockSize ≠ 0 then 1 else 0 }

/-- The loop of lines 384–398. -/
def contiguousOps (file : LocalFile) (rng : Span) (base : ℕ) : List UringIoOp :=
  (pieces maxPlainReadSize rng.size rng.size 0).map fun piece =>
    let physical : Span := ⟨rng.offset + piece.offset, piece.size⟩
    let buffer : Iovec := ⟨base + piece.offset, piece.size⟩
    let direct := odirectAvailable file && isOdirectCompatible physical [buffer]
    { makeOp file physical direct with iovecs := [buffer] }

/-- `flush` (lines 414–422). -/
def flush (file : LocalFile) (current : UringIoOp) : UringIoOp :=
  let direct := odirectAvailable file && isOdirectCompatible current.ioRng current.iovecs
  { current with
    useOdirect := direct
    fd := if direct then file.odirectHandle else file.bufferedHandle }

/-- What a chunk adds to an operation (lines 444–447). -/
def UringIoOp.push (op : UringIoOp) (blockSize : ℕ) (chunk : CachedChunk) : UringIoOp :=
  let fill := chunk.fillRange blockSize
  { op with
    iovecs := op.iovecs ++ [⟨chunk.data + (fill.offset - chunk.offset), fill.size⟩]
    completionChunks := op.completionChunks ++ [chunk]
    ioRng := ⟨op.ioRng.offset, op.ioRng.size + fill.size⟩ }

/-- The loop over the chunks (lines 424–449), with what is left of them, the operations so far,
    and the current one with its end. -/
def fragmentOps (file : LocalFile) (blockSize target maxIovecs : ℕ) :
    List CachedChunk → List UringIoOp → Option (UringIoOp × ℕ) → Except String (List UringIoOp)
  | [], result, none => .ok result
  | [], result, some (current, _) => .ok (result ++ [flush file current])
  | chunk :: chunks, result, current =>
    if chunk.data = 0 then .error "uring_reactor: cache fragment is not allocated"
    else
      let span := fillSpan chunk.fill chunk.offset blockSize
      if span.2 ≤ span.1 then .error "uring_reactor: cache fragment has an empty fill span"
      else
        let bytes := span.2 - span.1
        let fresh := makeOp file ⟨span.1, 0⟩ false
        match current with
        | none =>
          fragmentOps file blockSize target maxIovecs chunks result
            (some (fresh.push blockSize chunk, span.1 + bytes))
        | some (op, currentEnd) =>
          if currentEnd = span.1 ∧ bytes ≤ target - min target op.ioRng.size ∧
              op.iovecs.length < maxIovecs then
            fragmentOps file blockSize target maxIovecs chunks result
              (some (op.push blockSize chunk, currentEnd + bytes))
          else
            fragmentOps file blockSize target maxIovecs chunks (result ++ [flush file op])
              (some (fresh.push blockSize chunk, span.1 + bytes))

/-- `plan_slice` (lines 329–452), on a `local_io_object`. -/
def planSlice (file : LocalFile) (slice : PreparedIoSlice)
    (blockSize backlogBytes freeSlots iovMax : ℕ) : Except String (List UringIoOp) :=
  if slice.rng.size = 0 then .error "uring_reactor: zero-sized prepared slice"
  else
    match slice.hBuffer with
    | .staging =>
      if !slice.hasDeviceRequest then
        .error "uring_reactor: staging requires a device destination"
      else if blockSize = 0 then .error "uring_reactor: staging block size is zero"
      else
        let direct := odirectAvailable file && decide (blockSize % ioBlockSize = 0)
        let physical := stagedPhysicalRange slice.rng file.size direct
        if physical.size = 0 then .error "uring_reactor: staged range is outside the object"
        else
          .ok (stagedOps file physical direct blockSize
            (ioTarget backlogBytes freeSlots blockSize))
    | .contiguous base =>
      if base = 0 then .error "uring_reactor: contiguous buffer is null"
      else .ok (contiguousOps file slice.rng base)
    | .fragments chunks =>
      if chunks.isEmpty then .error "uring_reactor: fragmented buffer has no chunks"
      else if blockSize = 0 then .error "uring_reactor: cache block size is zero"
      else
        fragmentOps file blockSize (ioTarget backlogBytes (max 1 freeSlots) blockSize) iovMax
          chunks [] none

/-! ## The target -/

section Target

variable (backlogBytes freeSlots : ℕ) {blockSize : ℕ}

theorem ioTarget_pos (h : 0 < blockSize) : 0 < ioTarget backlogBytes freeSlots blockSize := by
  have hmax : 0 < maxDynamicIoSize := by decide
  rw [ioTarget]
  split_ifs <;> omega

/-- With whole blocks, the target is whole blocks. -/
theorem dvd_ioTarget (h : ioBlockSize ∣ blockSize) :
    ioBlockSize ∣ ioTarget backlogBytes freeSlots blockSize := by
  have hmax : ioBlockSize ∣ maxDynamicIoSize := by decide
  have hmin {m n : ℕ} (hm : ioBlockSize ∣ m) (hn : ioBlockSize ∣ n) : ioBlockSize ∣ min m n := by
    rcases min_choice m n with heq | heq <;> rwa [heq]
  have hdynamic : ioBlockSize ∣ dynamicIoTarget backlogBytes freeSlots blockSize := by
    rw [dynamicIoTarget]
    split_ifs with hzero
    · exact dvd_zero _
    · exact hmin (h.mul_left _) hmax
  rw [ioTarget]
  split_ifs
  · exact hmin h hmax
  · exact hdynamic

end Target

/-! ## Pieces of a span -/

/-- The pieces of a span, each at its place, tile it. -/
theorem bytes_shift_pieces {target : ℕ} (htarget : 0 < target) (physical : Span) :
    ((pieces target physical.size physical.size 0).flatMap fun piece =>
      (⟨physical.offset + piece.offset, piece.size⟩ : Span).bytes) = physical.bytes := by
  have htile := bytes_pieces htarget (show physical.size ≤ 0 + physical.size by omega)
    (Nat.zero_le physical.size)
  calc
    ((pieces target physical.size physical.size 0).flatMap fun piece =>
        (⟨physical.offset + piece.offset, piece.size⟩ : Span).bytes)
      = ((pieces target physical.size physical.size 0).flatMap Span.bytes).map
          (physical.offset + ·) := by
        rw [List.map_flatMap]
        exact List.flatMap_congr fun piece _ => piece.bytes_shift physical.offset
    _ = (⟨physical.offset + 0, physical.size⟩ : Span).bytes := by
        rw [htile, ← Span.bytes_shift]
        rfl
    _ = physical.bytes := rfl

/-! ## Staged slices -/

/-- The physical range of a staged slice holds the slice, and is whole pages if it is read with
    `O_DIRECT`. -/
theorem stagedPhysicalRange_contains {logical : Span} {fileSize : ℕ} (hpos : 0 < logical.size)
    (hinside : logical.stop ≤ fileSize) (hsize : fileSize ≤ sizeMax) (direct : Bool) :
    (stagedPhysicalRange logical fileSize direct).offset ≤ logical.offset ∧
      logical.stop ≤ (stagedPhysicalRange logical fileSize direct).stop ∧
      (direct = true → ioBlockSize ∣ (stagedPhysicalRange logical fileSize direct).offset ∧
        ioBlockSize ∣ (stagedPhysicalRange logical fileSize direct).size) := by
  cases direct with
  | false => exact ⟨le_rfl, le_rfl, fun h => nomatch h⟩
  | true =>
    have hend := rangeEnd_eq (hinside.trans hsize)
    rw [Span.stop] at hinside hend
    have hdown : alignDown logical.offset ioBlockSize ≤ logical.offset := Nat.sub_le _ _
    have hup (x : ℕ) : x ≤ alignUp x ioBlockSize := by
      rw [alignUp, alignDown, ioBlockSize]
      omega
    have hdvd (x : ℕ) : ioBlockSize ∣ alignDown x ioBlockSize := Nat.dvd_sub_mod x
    have hfirst := hup (logical.offset + logical.size)
    have hsecond := hup fileSize
    rw [stagedPhysicalRange, hend]
    simp only [Bool.not_true, Bool.false_eq_true, if_false, Span.stop]
    rw [if_pos (by omega)]
    refine ⟨hdown, ?_, fun _ => ⟨hdvd _, ?_⟩⟩
    · simp only
      omega
    · refine Nat.dvd_sub ?_ (hdvd _)
      rcases min_choice (alignUp (logical.offset + logical.size) ioBlockSize)
        (alignUp fileSize ioBlockSize) with heq | heq <;> rw [heq] <;> exact hdvd _

/-- What the operations of a staged slice are. -/
theorem stagedOps_spec (file : LocalFile) {physical : Span} {direct : Bool} {blockSize target : ℕ}
    (htarget : 0 < target) (hblock : 0 < blockSize)
    (hdirect : direct = true →
      ioBlockSize ∣ physical.offset ∧ ioBlockSize ∣ physical.size ∧ ioBlockSize ∣ target) :
    ((stagedOps file physical direct blockSize target).flatMap fun op => op.ioRng.bytes) =
        physical.bytes ∧
      ∀ op ∈ stagedOps file physical direct blockSize target,
        0 < op.ioRng.size ∧ op.ioRng.size ≤ op.stagingBlocks * blockSize ∧
        (op.useOdirect = true → ioBlockSize ∣ op.ioRng.offset ∧ ioBlockSize ∣ op.ioRng.size) := by
  constructor
  · rw [stagedOps, List.flatMap_map]
    exact bytes_shift_pieces htarget physical
  · intro op hop
    obtain ⟨piece, hpiece, rfl⟩ := List.mem_map.mp hop
    obtain ⟨-, -, hpos, -, hlast, hdvd⟩ := mem_pieces htarget hpiece
    refine ⟨hpos, ?_, fun hd => ?_⟩
    · have hdiv := Nat.div_add_mod piece.size blockSize
      have hmod := Nat.mod_lt piece.size hblock
      simp only [makeOp]
      rw [Nat.add_mul, Nat.mul_comm (piece.size / blockSize)]
      split_ifs <;> omega
    · obtain ⟨hoff, hsize, htgt⟩ := hdirect hd
      have hpieceOff := hdvd _ htgt (dvd_zero _)
      refine ⟨Dvd.dvd.add hoff hpieceOff, ?_⟩
      rcases hlast with heq | heq
      · simp only [makeOp, heq]
        exact htgt
      · have hsub : piece.size = physical.size - piece.offset := by
          rw [Span.stop] at heq
          omega
        simp only [makeOp, hsub]
        exact Nat.dvd_sub hsize hpieceOff

/-! ## Contiguous slices -/

theorem dvd_of_isOdirectCompatible {ioRange : Span} {iovecs : List Iovec}
    (h : isOdirectCompatible ioRange iovecs = true) :
    ioBlockSize ∣ ioRange.offset ∧ ioBlockSize ∣ ioRange.size := by
  simp only [isOdirectCompatible, Bool.and_eq_true, decide_eq_true_eq] at h
  exact ⟨Nat.dvd_of_mod_eq_zero h.1.1.1.1, Nat.dvd_of_mod_eq_zero h.1.1.1.2⟩

theorem contiguousOps_spec (file : LocalFile) (rng : Span) (base : ℕ) :
    ((contiguousOps file rng base).flatMap fun op => op.ioRng.bytes) = rng.bytes ∧
      ∀ op ∈ contiguousOps file rng base,
        0 < op.ioRng.size ∧
        op.iovecs = [⟨base + (op.ioRng.offset - rng.offset), op.ioRng.size⟩] ∧
        (op.useOdirect = true → ioBlockSize ∣ op.ioRng.offset ∧ ioBlockSize ∣ op.ioRng.size) := by
  have htarget : 0 < maxPlainReadSize := by decide
  constructor
  · rw [contiguousOps, List.flatMap_map]
    exact bytes_shift_pieces htarget rng
  · intro op hop
    obtain ⟨piece, hpiece, rfl⟩ := List.mem_map.mp hop
    obtain ⟨-, -, hpos, -⟩ := mem_pieces htarget hpiece
    refine ⟨hpos, ?_, fun hdirect => ?_⟩
    · simp [makeOp]
    · simp only [makeOp, Bool.and_eq_true] at hdirect
      exact dvd_of_isOdirectCompatible hdirect.2

/-! ## Fragmented slices -/

section Fragmented

variable (file : LocalFile) (blockSize : ℕ)

/-- The operation that reads a group of chunks. -/
def groupOp (g : List CachedChunk) : UringIoOp :=
  { makeOp file (groupRange blockSize g) false with
    iovecs := g.map (CachedChunk.fillIovec blockSize)
    completionChunks := g }

theorem push_fresh (chunk : CachedChunk) :
    (makeOp file ⟨(chunk.fillRange blockSize).offset, 0⟩ false).push blockSize chunk =
      groupOp file blockSize [chunk] := by
  rw [groupOp, Group.groupRange_singleton, UringIoOp.push]
  simp [makeOp, CachedChunk.fillIovec]

theorem push_groupOp {g : List CachedChunk} (hne : g ≠ []) (chunk : CachedChunk) :
    (groupOp file blockSize g).push blockSize chunk = groupOp file blockSize (g ++ [chunk]) := by
  rw [groupOp, groupOp, Group.groupRange_concat hne, UringIoOp.push]
  simp [makeOp, CachedChunk.fillIovec]

variable {file blockSize}

/-- A fill is not empty. -/
theorem fillRange_pos (hblock : 0 < blockSize) (chunk : CachedChunk) :
    0 < (chunk.fillRange blockSize).size := by
  rw [CachedChunk.fillRange, fillSpan]
  by_cases hwhole : (chunk.fill.full || chunk.fill.isUnset) = true
  · rw [if_pos hwhole]
    simpa using hblock
  · have hpages : chunk.fill.pages ≠ 0 := by
      intro hzero
      simp [ChunkFill.isUnset, hzero] at hwhole
    have hbytes : 0 < fillBytes chunk.fill blockSize := by
      rw [fillBytes, ioBlockSize]
      omega
    have hle : fillBytes chunk.fill blockSize ≤ blockSize := min_le_right _ _
    rw [if_neg hwhole]
    split_ifs <;> simp only <;> omega

variable {target iovMax : ℕ}

/-- A group that is one chunk, or within the limits. -/
def Limited (blockSize target iovMax : ℕ) (g : List CachedChunk) : Prop :=
  Group blockSize g ∧
    (1 < g.length → (groupRange blockSize g).size ≤ target ∧ g.length ≤ iovMax)

theorem Limited.singleton (hblock : 0 < blockSize) (chunk : CachedChunk) :
    Limited blockSize target iovMax [chunk] :=
  ⟨.singleton (fillRange_pos hblock chunk), fun h => absurd h (by simp)⟩

/-- The operation in hand, with its end. -/
def IsCurrent (file : LocalFile) (blockSize target iovMax : ℕ) (g : List CachedChunk) :
    Option (UringIoOp × ℕ) → Prop
  | none => g = []
  | some (op, currentEnd) => Limited blockSize target iovMax g ∧
    op = groupOp file blockSize g ∧ currentEnd = (groupRange blockSize g).stop

/-- **The loop makes groups of the chunks.** -/
theorem fragmentOps_groups {chunks : List CachedChunk} (hblock : 0 < blockSize)
    (h : Fragments blockSize chunks) (gs : List (List CachedChunk)) {g : List CachedChunk}
    {current : Option (UringIoOp × ℕ)} (hgs : ∀ g' ∈ gs, Limited blockSize target iovMax g')
    (hg : IsCurrent file blockSize target iovMax g current) :
    ∃ gs' : List (List CachedChunk),
      fragmentOps file blockSize target iovMax chunks
          (gs.map fun g => flush file (groupOp file blockSize g)) current =
        .ok (gs'.map fun g => flush file (groupOp file blockSize g)) ∧
      gs'.flatten = gs.flatten ++ (g ++ chunks) ∧
      ∀ g' ∈ gs', Limited blockSize target iovMax g' := by
  -- a group is done
  have hdone {g : List CachedChunk} (hg : Limited blockSize target iovMax g)
      {gs : List (List CachedChunk)} (hgs : ∀ g' ∈ gs, Limited blockSize target iovMax g') :
      ∀ g' ∈ gs ++ [g], Limited blockSize target iovMax g' := by
    intro g' hg'
    rcases List.mem_append.mp hg' with hg' | hg'
    · exact hgs g' hg'
    · rw [List.mem_singleton.mp hg']
      exact hg
  induction chunks generalizing gs g current with
  | nil =>
    cases current with
    | none =>
      obtain rfl : g = [] := hg
      exact ⟨gs, rfl, by simp, hgs⟩
    | some current =>
      obtain ⟨hlimited, hop, -⟩ := hg
      refine ⟨gs ++ [g], ?_, by simp, hdone hlimited hgs⟩
      rw [fragmentOps, hop, List.map_append]
      rfl
  | cons chunk chunks ih =>
    have hpos := fillRange_pos hblock chunk
    have hspan : ¬(fillSpan chunk.fill chunk.offset blockSize).2 ≤
        (fillSpan chunk.fill chunk.offset blockSize).1 := by
      simp only [CachedChunk.fillRange] at hpos
      omega
    have hsingle : IsCurrent file blockSize target iovMax [chunk]
        (some (groupOp file blockSize [chunk], (chunk.fillRange blockSize).stop)) :=
      ⟨.singleton hblock chunk, rfl, by rw [Group.groupRange_singleton]⟩
    rw [fragmentOps.eq_def]
    simp only [if_neg (h.allocated chunk List.mem_cons_self), if_neg hspan]
    cases current with
    | none =>
      obtain rfl : g = [] := hg
      have hfresh := push_fresh file blockSize chunk
      obtain ⟨gs', hok, hflatten, hall⟩ := ih h.cons gs hgs hsingle
      refine ⟨gs', ?_, by rw [hflatten]; simp, hall⟩
      rw [← hok, ← hfresh]
      rfl
    | some current =>
      obtain ⟨op, currentEnd⟩ := current
      obtain ⟨hlimited, rfl, rfl⟩ := hg
      simp only
      split_ifs with hjoin
      · -- the chunk joins the operation
        obtain ⟨hend, hbytes, hiovecs⟩ := hjoin
        have hconcat : groupRange blockSize (g ++ [chunk]) =
            ⟨(groupRange blockSize g).offset,
              (groupRange blockSize g).size + (chunk.fillRange blockSize).size⟩ :=
          Group.groupRange_concat hlimited.1.ne_nil
        have hlength : (groupOp file blockSize g).iovecs.length = g.length := by
          simp [groupOp]
        have hnext : IsCurrent file blockSize target iovMax (g ++ [chunk])
            (some (groupOp file blockSize (g ++ [chunk]),
              (groupRange blockSize (g ++ [chunk])).stop)) := by
          refine ⟨⟨hlimited.1.concat hpos hend, fun _ => ⟨?_, ?_⟩⟩, rfl, rfl⟩
          · rw [hconcat]
            have hfits : (chunk.fillRange blockSize).size ≤
                target - min target (groupRange blockSize g).size := hbytes
            simp only
            omega
          · rw [List.length_append, List.length_singleton]
            omega
        obtain ⟨gs', hok, hflatten, hall⟩ := ih h.cons gs hgs hnext
        refine ⟨gs', ?_, by rw [hflatten]; simp, hall⟩
        rw [← hok, push_groupOp file blockSize hlimited.1.ne_nil, hconcat]
        simp only [Span.stop, Nat.add_assoc]
        rfl
      · -- the operation is done
        have hfresh := push_fresh file blockSize chunk
        obtain ⟨gs', hok, hflatten, hall⟩ := ih h.cons (gs ++ [g]) (hdone hlimited hgs) hsingle
        refine ⟨gs', ?_, by rw [hflatten]; simp, hall⟩
        rw [← hok, ← hfresh, List.map_append]
        rfl

end Fragmented

/-! ## The plan -/

/-- An operation that is read with `O_DIRECT` is whole pages. -/
def WholePages (op : UringIoOp) : Prop :=
  op.useOdirect = true → ioBlockSize ∣ op.ioRng.offset ∧ ioBlockSize ∣ op.ioRng.size

/-- What the operations of a staged slice have to be. -/
structure StagedPlan (slice : PreparedIoSlice) (blockSize : ℕ) (ops : List UringIoOp) :
    Prop where
  tiles : ∃ physical : Span, physical.offset ≤ slice.rng.offset ∧
    slice.rng.stop ≤ physical.stop ∧ (ops.flatMap fun op => op.ioRng.bytes) = physical.bytes
  blocks : ∀ op ∈ ops, 0 < op.ioRng.size ∧ op.ioRng.size ≤ op.stagingBlocks * blockSize
  direct : ∀ op ∈ ops, WholePages op

/-- What the operations of a contiguous slice have to be. -/
structure ContiguousPlan (slice : PreparedIoSlice) (base : ℕ) (ops : List UringIoOp) : Prop where
  tiles : (ops.flatMap fun op => op.ioRng.bytes) = slice.rng.bytes
  iovecs : ∀ op ∈ ops, 0 < op.ioRng.size ∧
    op.iovecs = [⟨base + (op.ioRng.offset - slice.rng.offset), op.ioRng.size⟩]
  direct : ∀ op ∈ ops, WholePages op

/-- What the operations of a fragmented slice have to be. -/
structure FragmentedPlan (blockSize target iovMax : ℕ) (chunks : List CachedChunk)
    (ops : List UringIoOp) : Prop where
  chunks : ops.flatMap UringIoOp.completionChunks = chunks
  increasing : (ops.map UringIoOp.ioRng).Pairwise Span.Before
  bytes : ∀ op ∈ ops, 0 < op.ioRng.size ∧
    op.ioRng.bytes = op.completionChunks.flatMap fun c => (c.fillRange blockSize).bytes
  iovecs : ∀ op ∈ ops, op.iovecs = op.completionChunks.map (CachedChunk.fillIovec blockSize)
  limits : ∀ op ∈ ops, 1 < op.completionChunks.length →
    op.ioRng.size ≤ target ∧ op.iovecs.length ≤ iovMax
  direct : ∀ op ∈ ops, WholePages op

theorem fragmentedPlan_of_groups (file : LocalFile) {blockSize target iovMax : ℕ}
    {chunks : List CachedChunk} (h : Fragments blockSize chunks) {gs : List (List CachedChunk)}
    (hflatten : gs.flatten = chunks) (hgs : ∀ g ∈ gs, Limited blockSize target iovMax g) :
    FragmentedPlan blockSize target iovMax chunks
      (gs.map fun g => flush file (groupOp file blockSize g)) := by
  refine ⟨?_, ?_, ?_, ?_, ?_, ?_⟩
  · rw [List.flatMap_map, ← hflatten, List.flatten_eq_flatMap]
    rfl
  · have hfills := h.fills
    rw [← hflatten, List.map_flatten] at hfills
    have hjoined : ∀ g' ∈ gs.map (List.map (CachedChunk.fillRange blockSize)),
        g' ≠ [] ∧ Joined g' := by
      intro g' hg'
      obtain ⟨g, hg, rfl⟩ := List.mem_map.mp hg'
      exact ⟨by simpa using (hgs g hg).1.ne_nil, (hgs g hg).1.joined⟩
    have hpairwise := pairwise_hull hjoined hfills
    rw [List.map_map] at hpairwise ⊢
    exact hpairwise
  · intro op hop
    obtain ⟨g, hg, rfl⟩ := List.mem_map.mp hop
    exact ⟨(hgs g hg).1.size_pos, (hgs g hg).1.bytes_groupRange⟩
  · intro op hop
    obtain ⟨g, hg, rfl⟩ := List.mem_map.mp hop
    rfl
  · intro op hop hlength
    obtain ⟨g, hg, rfl⟩ := List.mem_map.mp hop
    obtain ⟨hsize, hiovecs⟩ := (hgs g hg).2 hlength
    exact ⟨hsize, by simpa [flush, groupOp] using hiovecs⟩
  · intro op hop hdirect
    obtain ⟨g, hg, rfl⟩ := List.mem_map.mp hop
    simp only [flush, Bool.and_eq_true] at hdirect
    exact dvd_of_isOdirectCompatible hdirect.2

/-- **The operations of `plan_slice`**, for every slice inside its file, every file size that an
    `off_t` can say, and every block size, backlog and number of free slots: a staged slice is tiled by operations with enough
    staging blocks, a contiguous one by operations that read to its buffer, and a fragmented one is
    read group by group; and what is read with `O_DIRECT` is whole pages. -/
theorem plan_slice_operations (file : LocalFile) (slice : PreparedIoSlice)
    (blockSize backlogBytes freeSlots iovMax : ℕ) (hpos : 0 < slice.rng.size)
    (hinside : slice.rng.stop ≤ file.size) (hsize : file.size < 2 ^ 63) :
    (slice.hBuffer = .staging → slice.hasDeviceRequest = true → 0 < blockSize →
      ∃ ops, planSlice file slice blockSize backlogBytes freeSlots iovMax = .ok ops ∧
        StagedPlan slice blockSize ops) ∧
    (∀ base, slice.hBuffer = .contiguous base → base ≠ 0 →
      ∃ ops, planSlice file slice blockSize backlogBytes freeSlots iovMax = .ok ops ∧
        ContiguousPlan slice base ops) ∧
    ∀ chunks, slice.hBuffer = .fragments chunks → chunks ≠ [] → 0 < blockSize →
      Fragments blockSize chunks →
      ∃ ops, planSlice file slice blockSize backlogBytes freeSlots iovMax = .ok ops ∧
        FragmentedPlan blockSize (ioTarget backlogBytes (max 1 freeSlots) blockSize) iovMax chunks
          ops := by
  rw [planSlice, if_neg hpos.ne']
  refine ⟨?_, ?_, ?_⟩
  · intro hbuffer hdevice hblock
    have hmax : file.size ≤ sizeMax := by
      rw [sizeMax]
      omega
    obtain ⟨hlo, hhi, hpages⟩ := stagedPhysicalRange_contains hpos hinside hmax
      (odirectAvailable file && decide (blockSize % ioBlockSize = 0))
    have hphysical : (stagedPhysicalRange slice.rng file.size
        (odirectAvailable file && decide (blockSize % ioBlockSize = 0))).size ≠ 0 := by
      simp only [Span.stop] at hhi
      omega
    have htarget := ioTarget_pos backlogBytes freeSlots hblock
    obtain ⟨htiles, hops⟩ := stagedOps_spec file htarget hblock fun hdirect =>
      ⟨(hpages hdirect).1, (hpages hdirect).2, dvd_ioTarget backlogBytes freeSlots (by
        simp only [Bool.and_eq_true, decide_eq_true_eq] at hdirect
        exact Nat.dvd_of_mod_eq_zero hdirect.2)⟩
    refine ⟨_, ?_, ⟨_, hlo, hhi, htiles⟩, fun op hop => ⟨(hops op hop).1, (hops op hop).2.1⟩,
      fun op hop => (hops op hop).2.2⟩
    rw [hbuffer, hdevice]
    simp only [Bool.not_true, Bool.false_eq_true, if_false, hblock.ne', if_neg hphysical]
  · intro base hbuffer hbase
    obtain ⟨htiles, hops⟩ := contiguousOps_spec file slice.rng base
    refine ⟨_, ?_, htiles, fun op hop => ⟨(hops op hop).1, (hops op hop).2.1⟩,
      fun op hop => (hops op hop).2.2⟩
    rw [hbuffer]
    simp only [if_neg hbase]
  · intro chunks hbuffer hne hblock hfragments
    have hcurrent : IsCurrent file blockSize
        (ioTarget backlogBytes (max 1 freeSlots) blockSize) iovMax [] none := rfl
    obtain ⟨gs, hok, hflatten, hgs⟩ :=
      fragmentOps_groups hblock hfragments [] (by simp) hcurrent
    refine ⟨_, ?_, fragmentedPlan_of_groups file hfragments (by simpa using hflatten) hgs⟩
    rw [hbuffer]
    simp only [List.isEmpty_iff, hne, if_false, hblock.ne']
    exact hok

/-- A slice of two chunks, of which the second is read up to its second page. -/
def twoChunks : List CachedChunk :=
  [⟨0, 8192, .whole⟩, ⟨8192, 40960, .prefixOf 1⟩]

theorem plan_slice_two_chunks :
    ∃ ops, planSlice ⟨20000, 3, 4, true⟩ ⟨⟨100, 9000⟩, .fragments twoChunks, false⟩ 8192 0 4 1024 =
        .ok ops ∧
      FragmentedPlan 8192 (ioTarget 0 (max 1 4) 8192) 1024 twoChunks ops :=
  (plan_slice_operations ⟨20000, 3, 4, true⟩ ⟨⟨100, 9000⟩, .fragments twoChunks, false⟩ 8192 0 4
    1024 (by decide) (by decide) (by decide)).2.2 twoChunks rfl (by decide) (by decide)
    ⟨by decide, by decide, by decide⟩

end Sirius.Io.Uring
