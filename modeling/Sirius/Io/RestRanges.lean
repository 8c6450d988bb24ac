import Sirius.Io.PreparedSlice

/-!
# The physical plan of the REST reactor

Model of `physical_ranges`, `operation_iovecs` and `operation_chunks`
(src/io/rest/rest_reactor.cpp:413-534): a prepared slice is read by requests for ranges of the
object, and each request is scattered into the buffers of the slice.

* `physicalRanges`, `operationIovecs`, `operationChunks`: the functions.
* `fragmentLoop_groups`: the ranges of a fragmented slice are the spans of groups of its chunks.
* `rest_ranges_place_slice`: the ranges, and where their bytes go.
-/

namespace Sirius.Io.Rest

open Sirius.Common.Tiling
open Sirius.Io

/-! ## The functions -/

/-- `rest_min_segment_bytes` and `rest_max_segment_bytes` (lines 413–414). -/
def restMinSegmentBytes : ℕ := 4 * 2 ^ 20

def restMaxSegmentBytes : ℕ := 16 * 2 ^ 20

/-- The loop over the fragments (lines 462–492), with what is left of them, the ranges so far and
    the current one. -/
def fragmentLoop (target maxSegmentBytes cacheBlockSize : ℕ) :
    List CachedChunk → List Span → Span → Except String (List Span)
  | [], result, current =>
    let result := if current.size ≠ 0 then result ++ [current] else result
    if result.isEmpty then .error "rest_reactor: fragmented read has no physical fill ranges"
    else .ok result
  | chunk :: chunks, result, current =>
    if chunk.data = 0 then .error "rest_reactor: fragmented read has no cache buffer"
    else
      let fill := chunk.fillRange cacheBlockSize
      if fill.size = 0 then fragmentLoop target maxSegmentBytes cacheBlockSize chunks result current
      else if fill.size > maxSegmentBytes then
        .error "rest_reactor: one cache fill exceeds the REST segment maximum"
      else
        let contiguous := current.size ≠ 0 ∧ rangeEnd current = fill.offset
        let fits := current.size ≤ maxSegmentBytes - min fill.size maxSegmentBytes
        if current.size = 0 then
          fragmentLoop target maxSegmentBytes cacheBlockSize chunks result fill
        else if contiguous ∧ current.size < target ∧ fits ∧
            current.size + fill.size ≤ maxSegmentBytes then
          fragmentLoop target maxSegmentBytes cacheBlockSize chunks result
            ⟨current.offset, current.size + fill.size⟩
        else fragmentLoop target maxSegmentBytes cacheBlockSize chunks (result ++ [current]) fill

/-- `std::clamp`. -/
def clamp (x lo hi : ℕ) : ℕ := if x < lo then lo else if hi < x then hi else x

/-- Lines 435–450. -/
def evenRanges (rng : Span) (target : ℕ) : List Span :=
  let preferredCount := max 1 (rng.size / target)
  let maxBoundCount := 1 + (rng.size - 1) / restMaxSegmentBytes
  let count := max preferredCount maxBoundCount
  evenPieces (rng.size / count) (rng.size % count) count 0 rng.offset

/-- `physical_ranges` (lines 428–493). -/
def physicalRanges (slice : PreparedIoSlice) (target cacheBlockSize : ℕ) :
    Except String (List Span) :=
  if slice.rng.size = 0 then .ok []
  else
    let target := clamp target restMinSegmentBytes restMaxSegmentBytes
    match slice.hBuffer with
    | .fragments chunks =>
      if cacheBlockSize = 0 then
        .error "rest_reactor: fragmented read requires a cache block size"
      else
        fragmentLoop target (max restMaxSegmentBytes cacheBlockSize) cacheBlockSize chunks [] ⟨0, 0⟩
    | _ => .ok (evenRanges slice.rng target)

/-- The buffers of the fragments that a range overlaps (lines 507–515), and how many bytes they
    take of it. -/
def fragmentIovecs (ioRng : Span) (cacheBlockSize : ℕ) (chunks : List CachedChunk) :
    List Iovec × ℕ :=
  chunks.foldl (fun (result, covered) chunk =>
    let overlap := intersect ioRng (chunk.fillRange cacheBlockSize)
    if overlap.size = 0 then (result, covered)
    else (result ++ [⟨chunk.data + (overlap.offset - chunk.offset), overlap.size⟩],
      covered + overlap.size)) ([], 0)

/-- `operation_iovecs` (lines 495–520). -/
def operationIovecs (slice : PreparedIoSlice) (ioRng : Span) (cacheBlockSize : ℕ) :
    Except String (List Iovec) :=
  match slice.hBuffer with
  | .contiguous base => .ok [⟨base + (ioRng.offset - slice.rng.offset), ioRng.size⟩]
  | .staging => .ok []
  | .fragments chunks =>
    let (result, covered) := fragmentIovecs ioRng cacheBlockSize chunks
    if covered ≠ ioRng.size then
      .error "rest_reactor: cache fragments do not cover the physical range"
    else .ok result

/-- `operation_chunks` (lines 522–534). -/
def operationChunks (slice : PreparedIoSlice) (ioRng : Span) (cacheBlockSize : ℕ) :
    List CachedChunk :=
  match slice.hBuffer with
  | .fragments chunks => chunks.filter (overlaps cacheBlockSize ioRng)
  | _ => []

/-! ## Unfragmented slices -/

/-- The ranges of an unfragmented slice tile it, and none is empty or too long. -/
theorem evenRanges_tile {rng : Span} (target : ℕ) (hpos : 0 < rng.size) :
    (evenRanges rng target).flatMap Span.bytes = rng.bytes ∧
      ∀ r ∈ evenRanges rng target, 0 < r.size ∧ r.size ≤ restMaxSegmentBytes := by
  rw [evenRanges]
  generalize hcount : max (max 1 (rng.size / target))
    (1 + (rng.size - 1) / restMaxSegmentBytes) = count
  have hcountPos : 0 < count := by omega
  have hdiv := Nat.div_add_mod rng.size count
  have hmod := Nat.mod_lt rng.size hcountPos
  constructor
  · rw [bytes_evenPieces]
    congr 1
    have hmin : min (rng.size % count) (0 + count) - min (rng.size % count) 0 =
        rng.size % count := by omega
    rw [hmin, Nat.mul_comm, hdiv]
  · -- no more ranges than bytes, and enough of them
    have hle : count ≤ rng.size := by
      have hprefer : rng.size / target ≤ rng.size := Nat.div_le_self _ _
      have hbound : (rng.size - 1) / restMaxSegmentBytes ≤ rng.size - 1 := Nat.div_le_self _ _
      omega
    have henough : rng.size ≤ restMaxSegmentBytes * count := by
      have hlt := Nat.lt_mul_div_succ (rng.size - 1) (show 0 < restMaxSegmentBytes by decide)
      have hmul : restMaxSegmentBytes * ((rng.size - 1) / restMaxSegmentBytes + 1) ≤
          restMaxSegmentBytes * count := Nat.mul_le_mul_left _ (by omega)
      omega
    have hbase : 1 ≤ rng.size / count := (Nat.one_le_div_iff hcountPos).mpr hle
    have hmax : rng.size / count ≤ restMaxSegmentBytes := by
      rw [Nat.mul_comm] at henough
      exact Nat.div_le_of_le_mul henough
    intro r hr
    rcases size_of_mem_evenPieces hr with h | ⟨h, hrem⟩
    · omega
    · -- a longer range is there only if the division leaves a remainder
      have hlt : rng.size / count < restMaxSegmentBytes := by
        refine Nat.lt_of_mul_lt_mul_left (a := count) ?_
        rw [Nat.mul_comm count restMaxSegmentBytes]
        omega
      omega

/-! ## Fragmented slices -/

section Fragmented

variable {maxSegmentBytes blockSize : ℕ}

/-- The chunks with something to fill. -/
def filled (blockSize : ℕ) (chunks : List CachedChunk) : List CachedChunk :=
  chunks.filter fun c => decide (0 < (c.fillRange blockSize).size)

/-- A group whose span is not too long. -/
def Segment (blockSize maxSegmentBytes : ℕ) (g : List CachedChunk) : Prop :=
  Group blockSize g ∧ (groupRange blockSize g).size ≤ maxSegmentBytes

/-- The group whose span is the current range. -/
def IsCurrent (blockSize maxSegmentBytes : ℕ) (g : List CachedChunk) (current : Span) : Prop :=
  (g = [] ∧ current.size = 0) ∨
    (Segment blockSize maxSegmentBytes g ∧ current = groupRange blockSize g ∧
      current.stop ≤ sizeMax)

/-- **The loop makes groups of the chunks.** -/
theorem fragmentLoop_groups (target : ℕ) {chunks : List CachedChunk}
    (h : Fragments blockSize chunks) (hmax : blockSize ≤ maxSegmentBytes)
    (gs : List (List CachedChunk)) {g : List CachedChunk} {current : Span} (hgs : ∀ g' ∈ gs, Segment blockSize maxSegmentBytes g')
    (hg : IsCurrent blockSize maxSegmentBytes g current)
    (hne : gs.flatten ++ (g ++ filled blockSize chunks) ≠ []) :
    ∃ gs' : List (List CachedChunk),
      fragmentLoop target maxSegmentBytes blockSize chunks (gs.map (groupRange blockSize)) current =
        .ok (gs'.map (groupRange blockSize)) ∧
      gs'.flatten = gs.flatten ++ (g ++ filled blockSize chunks) ∧
      ∀ g' ∈ gs', Segment blockSize maxSegmentBytes g' := by
  induction chunks generalizing gs g current with
  | nil =>
    rw [fragmentLoop]
    rcases hg with ⟨rfl, hzero⟩ | ⟨hg, rfl, -⟩
    · have hgsne : gs ≠ [] := by
        rintro rfl
        exact hne rfl
      refine ⟨gs, ?_, by simp [filled], hgs⟩
      simp [hzero, hgsne]
    · refine ⟨gs ++ [g], ?_, by simp [filled], ?_⟩
      · have := hg.1.size_pos
        simp only [ne_eq, this.ne', not_false_eq_true, if_true]
        simp
      · intro g' hg'
        rcases List.mem_append.mp hg' with hg' | hg'
        · exact hgs g' hg'
        · rw [List.mem_singleton.mp hg']
          exact hg
  | cons chunk chunks ih =>
    have hle := chunk.fillRange_size_le blockSize
    rw [fragmentLoop, if_neg (h.allocated chunk List.mem_cons_self)]
    by_cases hzero : (chunk.fillRange blockSize).size = 0
    · have hfilled : filled blockSize (chunk :: chunks) = filled blockSize chunks := by
        rw [filled, List.filter_cons_of_neg (by simp [hzero])]
        rfl
      rw [hfilled] at hne ⊢
      simp only [hzero, if_true]
      exact ih h.cons gs hgs hg hne
    have hpos : 0 < (chunk.fillRange blockSize).size := by omega
    have hstop := h.stop_le (List.mem_cons_self (a := chunk))
    have hfilled : filled blockSize (chunk :: chunks) = chunk :: filled blockSize chunks := by
      rw [filled, List.filter_cons_of_pos (by simpa using hpos)]
      rfl
    have hsegment : Segment blockSize maxSegmentBytes [chunk] :=
      ⟨.singleton hpos, by rw [Group.groupRange_singleton]; omega⟩
    have hsingle : IsCurrent blockSize maxSegmentBytes [chunk] (chunk.fillRange blockSize) :=
      .inr ⟨hsegment, Group.groupRange_singleton.symm, hstop⟩
    rw [hfilled]
    simp only [hzero, if_false, show ¬(chunk.fillRange blockSize).size > maxSegmentBytes by omega]
    rcases hg with ⟨rfl, hcurrent⟩ | ⟨hg, rfl, hcurrent⟩
    · -- the first fill
      rw [if_pos hcurrent]
      exact ih h.cons gs hgs hsingle (by simp)
    · rw [if_neg (hg.1.size_pos).ne']
      split_ifs with hjoin
      · -- the fill joins the current range
        obtain ⟨⟨-, hend⟩, -, -, hsize⟩ := hjoin
        rw [rangeEnd_eq hcurrent] at hend
        have hconcat : groupRange blockSize (g ++ [chunk]) =
            ⟨(groupRange blockSize g).offset,
              (groupRange blockSize g).size + (chunk.fillRange blockSize).size⟩ :=
          Group.groupRange_concat hg.1.ne_nil
        have hnext : IsCurrent blockSize maxSegmentBytes (g ++ [chunk])
            (groupRange blockSize (g ++ [chunk])) := by
          refine .inr ⟨⟨hg.1.concat hpos hend, ?_⟩, rfl, ?_⟩
          · rw [hconcat]
            exact hsize
          · rw [hconcat]
            simp only [Span.stop] at hend hstop ⊢
            omega
        rw [← hconcat]
        obtain ⟨gs', hok, hflatten, hall⟩ := ih h.cons gs hgs hnext (by simp)
        exact ⟨gs', hok, by rw [hflatten]; simp, hall⟩
      · -- the current range is done
        have hgs' : ∀ g' ∈ gs ++ [g], Segment blockSize maxSegmentBytes g' := by
          intro g' hg'
          rcases List.mem_append.mp hg' with hg' | hg'
          · exact hgs g' hg'
          · rw [List.mem_singleton.mp hg']
            exact hg
        obtain ⟨gs', hok, hflatten, hall⟩ := ih h.cons (gs ++ [g]) hgs' hsingle (by simp)
        refine ⟨gs', ?_, by rw [hflatten]; simp, hall⟩
        rw [List.map_append] at hok
        exact hok

/-- The buffers of the chunks that a range overlaps. -/
theorem fragmentIovecs_eq (ioRng : Span) (chunks : List CachedChunk) :
    fragmentIovecs ioRng blockSize chunks =
      ((chunks.filter (overlaps blockSize ioRng)).map fun c =>
          let overlap := intersect ioRng (c.fillRange blockSize)
          ⟨c.data + (overlap.offset - c.offset), overlap.size⟩,
        ((chunks.filter (overlaps blockSize ioRng)).map fun c =>
          (intersect ioRng (c.fillRange blockSize)).size).sum) := by
  rw [fragmentIovecs]
  induction chunks using List.reverseRecOn with
  | nil => rfl
  | append_singleton chunks chunk ih =>
    rw [List.foldl_append, ih, List.foldl_cons, List.foldl_nil, List.filter_append]
    by_cases hzero : (intersect ioRng (chunk.fillRange blockSize)).size = 0
    · simp [overlaps, hzero]
    · simp [overlaps, hzero]

variable {slice : PreparedIoSlice} {chunks g : List CachedChunk}

/-- **A request for the span of a group fills its chunks.** -/
theorem operation_group (hslice : slice.hBuffer = .fragments chunks)
    (h : Fragments blockSize chunks) (hg : Group blockSize g) (front back : List CachedChunk)
    (hsplit : filled blockSize chunks = front ++ g ++ back) :
    operationIovecs slice (groupRange blockSize g) blockSize =
        .ok (g.map (CachedChunk.fillIovec blockSize)) ∧
      operationChunks slice (groupRange blockSize g) blockSize = g := by
  obtain ⟨hfilter, hwhole⟩ := overlapping_group h hg hsplit
  constructor
  · rw [operationIovecs, hslice]
    simp only [fragmentIovecs_eq, hfilter]
    have hsum : (g.map fun c =>
        (intersect (groupRange blockSize g) (c.fillRange blockSize)).size).sum =
        (groupRange blockSize g).size := by
      rw [Group.size_groupRange]
      exact congrArg List.sum (List.map_congr_left fun c hc => by rw [hwhole c hc])
    rw [hsum, if_neg (not_not.mpr rfl)]
    refine congrArg Except.ok (List.map_congr_left fun c hc => ?_)
    rw [hwhole c hc]
    rfl
  · rw [operationChunks, hslice]
    exact hfilter

end Fragmented

/-! ## The plan -/

/-- Chunks without a fill add nothing. -/
theorem flatMap_filled {β : Type*} {blockSize : ℕ} {f : CachedChunk → List β}
    (chunks : List CachedChunk) (hf : ∀ c, (c.fillRange blockSize).size = 0 → f c = []) :
    (filled blockSize chunks).flatMap f = chunks.flatMap f := by
  induction chunks with
  | nil => rfl
  | cons c chunks ih =>
    by_cases hpos : 0 < (c.fillRange blockSize).size
    · rw [filled, List.filter_cons_of_pos (by simpa using hpos), List.flatMap_cons,
        List.flatMap_cons, ← ih, filled]
    · rw [filled, List.filter_cons_of_neg (by simpa using hpos), List.flatMap_cons,
        hf c (by omega), ← ih, filled, List.nil_append]

/-- The buffers of a request. -/
def iovecsOf (slice : PreparedIoSlice) (cacheBlockSize : ℕ) (r : Span) : List Iovec :=
  (operationIovecs slice r cacheBlockSize).toOption.getD []

/-- What the ranges of a fragmented slice have to be. -/
structure FragmentedPlan (slice : PreparedIoSlice) (blockSize : ℕ) (chunks : List CachedChunk)
    (ranges : List Span) : Prop where
  increasing : ranges.Pairwise Span.Before
  sizes : ∀ r ∈ ranges, 0 < r.size ∧ r.size ≤ max restMaxSegmentBytes blockSize
  union : ranges.flatMap Span.bytes = chunks.flatMap fun c => (c.fillRange blockSize).bytes
  whole : ∀ c ∈ chunks, 0 < (c.fillRange blockSize).size →
    ∃ r ∈ ranges, r.offset ≤ (c.fillRange blockSize).offset ∧
      (c.fillRange blockSize).stop ≤ r.stop
  iovecs : ∀ r ∈ ranges, operationIovecs slice r blockSize = .ok (iovecsOf slice blockSize r) ∧
    ((iovecsOf slice blockSize r).map Iovec.len).sum = r.size
  places : (ranges.flatMap fun r => scatter r (iovecsOf slice blockSize r)) =
    chunks.flatMap (CachedChunk.places blockSize)
  chunks : (ranges.flatMap fun r => operationChunks slice r blockSize) = filled blockSize chunks

theorem fragmentedPlan_of_groups {slice : PreparedIoSlice} {blockSize : ℕ}
    {chunks : List CachedChunk} (hslice : slice.hBuffer = .fragments chunks)
    (h : Fragments blockSize chunks) {gs : List (List CachedChunk)}
    (hflatten : gs.flatten = filled blockSize chunks)
    (hgs : ∀ g ∈ gs, Segment blockSize (max restMaxSegmentBytes blockSize) g) :
    FragmentedPlan slice blockSize chunks (gs.map (groupRange blockSize)) := by
  have hoperation (g : List CachedChunk) (hg : g ∈ gs) :
      operationIovecs slice (groupRange blockSize g) blockSize =
          .ok (g.map (CachedChunk.fillIovec blockSize)) ∧
        operationChunks slice (groupRange blockSize g) blockSize = g := by
    obtain ⟨front, back, rfl⟩ := List.append_of_mem hg
    refine operation_group hslice h (hgs g hg).1 front.flatten back.flatten ?_
    rw [← hflatten]
    simp
  have hiovecs (g : List CachedChunk) (hg : g ∈ gs) :
      iovecsOf slice blockSize (groupRange blockSize g) =
        g.map (CachedChunk.fillIovec blockSize) := by
    rw [iovecsOf, (hoperation g hg).1]
    rfl
  -- what is done for the groups is done for the chunks
  have hover {β : Type} {f : Span → List β} {k : CachedChunk → List β}
      (hf : ∀ g ∈ gs, f (groupRange blockSize g) = g.flatMap k) :
      (gs.map (groupRange blockSize)).flatMap f = (filled blockSize chunks).flatMap k := by
    rw [← hflatten, List.flatMap_map, List.flatten_eq_flatMap, List.flatMap_assoc]
    exact List.flatMap_congr hf
  refine ⟨?_, ?_, ?_, ?_, ?_, ?_, ?_⟩
  · have hfills := (h.sublist (l := filled blockSize chunks) List.filter_sublist).fills
    rw [← hflatten, List.map_flatten] at hfills
    have hjoined : ∀ g' ∈ gs.map (List.map (CachedChunk.fillRange blockSize)),
        g' ≠ [] ∧ Joined g' := by
      intro g' hg'
      obtain ⟨g, hg, rfl⟩ := List.mem_map.mp hg'
      exact ⟨by simpa using (hgs g hg).1.ne_nil, (hgs g hg).1.joined⟩
    have hpairwise := pairwise_hull hjoined hfills
    rw [List.map_map] at hpairwise
    exact hpairwise
  · intro r hr
    obtain ⟨g, hg, rfl⟩ := List.mem_map.mp hr
    exact ⟨(hgs g hg).1.size_pos, (hgs g hg).2⟩
  · rw [hover fun g hg => (hgs g hg).1.bytes_groupRange]
    exact flatMap_filled chunks fun c hc => Span.bytes_eq_nil hc
  · intro c hc hpos
    have hmem : c ∈ gs.flatten := by
      rw [hflatten, filled, List.mem_filter]
      exact ⟨hc, by simpa using hpos⟩
    obtain ⟨g, hg, hcg⟩ := List.mem_flatten.mp hmem
    exact ⟨_, List.mem_map_of_mem hg, (hgs g hg).1.fill_inside hcg⟩
  · intro r hr
    obtain ⟨g, hg, rfl⟩ := List.mem_map.mp hr
    rw [hiovecs g hg]
    refine ⟨(hoperation g hg).1, ?_⟩
    rw [Group.size_groupRange, List.map_map]
    rfl
  · rw [hover fun g hg => by rw [hiovecs g hg, (hgs g hg).1.scatter_eq]]
    refine flatMap_filled chunks fun c hc => ?_
    rw [CachedChunk.places, Span.bytes_eq_nil hc, List.map_nil]
  · rw [hover (k := fun c => [c]) fun g hg => by rw [(hoperation g hg).2]; simp]
    simp

/-- A contiguous slice is read to where it belongs. -/
theorem scatter_contiguous {rng : Span} {ranges : List Span} (base : ℕ)
    (hbytes : ranges.flatMap Span.bytes = rng.bytes) :
    (ranges.flatMap fun r => scatter r [⟨base + (r.offset - rng.offset), r.size⟩]) =
      rng.bytes.map fun x => (x, base + (x - rng.offset)) := by
  rw [← hbytes, List.map_flatMap]
  refine List.flatMap_congr fun r hr => ?_
  rw [scatter, List.flatMap_singleton]
  refine List.ext_getElem (by simp [Span.bytes]) fun i h₁ h₂ => ?_
  have hi : i < r.size := by simpa [Span.bytes] using h₂
  have hmem : r.offset ∈ rng.bytes := by
    rw [← hbytes]
    refine List.mem_flatMap.mpr ⟨r, hr, ?_⟩
    rw [Span.mem_bytes, Span.stop]
    omega
  have hle := (Span.mem_bytes.mp hmem).1
  simp [Span.bytes]
  omega

/-- **The plan of the REST reactor**, for every slice with something to read, every target and
    block size: an unfragmented slice is tiled by ranges of at most 16 MiB; the ranges of a
    fragmented one are the fills of its chunks, none of them cut; and each byte is placed once, in
    file order. -/
theorem rest_ranges_place_slice (slice : PreparedIoSlice) (target blockSize : ℕ)
    (hpos : 0 < slice.rng.size) :
    ((∀ chunks, slice.hBuffer ≠ .fragments chunks) →
      ∃ ranges, physicalRanges slice target blockSize = .ok ranges ∧
        ranges.flatMap Span.bytes = slice.rng.bytes ∧
        (∀ r ∈ ranges, 0 < r.size ∧ r.size ≤ restMaxSegmentBytes) ∧
        ∀ base, slice.hBuffer = .contiguous base →
          (∀ r ∈ ranges, operationIovecs slice r blockSize = .ok (iovecsOf slice blockSize r) ∧
            ((iovecsOf slice blockSize r).map Iovec.len).sum = r.size) ∧
          (ranges.flatMap fun r => scatter r (iovecsOf slice blockSize r)) =
            slice.rng.bytes.map fun x => (x, base + (x - slice.rng.offset))) ∧
    ∀ chunks, slice.hBuffer = .fragments chunks → Fragments blockSize chunks →
      (∃ c ∈ chunks, 0 < (c.fillRange blockSize).size) →
      ∃ ranges, physicalRanges slice target blockSize = .ok ranges ∧
        FragmentedPlan slice blockSize chunks ranges := by
  rw [physicalRanges, if_neg hpos.ne']
  constructor
  · intro hunfragmented
    obtain ⟨hbytes, hsizes⟩ :=
      evenRanges_tile (clamp target restMinSegmentBytes restMaxSegmentBytes) hpos
    refine ⟨_, ?_, hbytes, hsizes, fun base hbase => ?_⟩
    · cases hbuffer : slice.hBuffer with
      | fragments chunks => exact absurd hbuffer (hunfragmented chunks)
      | _ => rfl
    · have hiovecs (r : Span) :
          iovecsOf slice blockSize r = [⟨base + (r.offset - slice.rng.offset), r.size⟩] := by
        rw [iovecsOf, operationIovecs, hbase]
        rfl
      refine ⟨fun r _ => ?_, ?_⟩
      · rw [hiovecs, operationIovecs, hbase]
        exact ⟨rfl, rfl⟩
      · simp only [hiovecs]
        exact scatter_contiguous base hbytes
  · intro chunks hslice h hfill
    have hblock : blockSize ≠ 0 := by
      rintro rfl
      obtain ⟨c, -, hc⟩ := hfill
      have := c.fillRange_size_le 0
      omega
    have hne : filled blockSize chunks ≠ [] := by
      obtain ⟨c, hc, hcpos⟩ := hfill
      exact List.ne_nil_of_mem (List.mem_filter.mpr ⟨hc, by simpa using hcpos⟩)
    have hcurrent : IsCurrent blockSize (max restMaxSegmentBytes blockSize) [] ⟨0, 0⟩ :=
      .inl ⟨rfl, rfl⟩
    obtain ⟨gs, hok, hflatten, hgs⟩ :=
      fragmentLoop_groups (clamp target restMinSegmentBytes restMaxSegmentBytes) h
        (le_max_right _ _) [] (by simp) hcurrent (by simpa using hne)
    refine ⟨gs.map (groupRange blockSize), ?_,
      fragmentedPlan_of_groups hslice h (by simpa using hflatten) hgs⟩
    rw [hslice]
    dsimp only
    rw [if_neg hblock]
    exact hok

/-- Two chunks of which the first is filled from its second page on. -/
def twoChunks : List CachedChunk :=
  [⟨8192, 1000, .suffixOf 1⟩, ⟨16384, 5000, .whole⟩]

theorem rest_ranges_place_two_chunks :
    ∃ ranges, physicalRanges ⟨⟨12288, 8192⟩, .fragments twoChunks, false⟩ 0 8192 = .ok ranges ∧
      FragmentedPlan ⟨⟨12288, 8192⟩, .fragments twoChunks, false⟩ 8192 twoChunks ranges :=
  (rest_ranges_place_slice ⟨⟨12288, 8192⟩, .fragments twoChunks, false⟩ 0 8192 (by decide)).2
    twoChunks rfl ⟨by decide, by decide, by decide⟩ ⟨_, List.mem_cons_self, by decide⟩

end Sirius.Io.Rest
