import Sirius.Common.Tiling
import Sirius.IoCache.ChunkFill

/-!
# Prepared slices

Model of `range`, `intersect`, `host_buffer` and `prepared_io_slice` (src/io/types.hpp:144-300),
which the reactors plan physical reads for. Pointers are addresses, and the null pointer is
zero. The sizes are those of a `size_t`, as natural numbers; `range::end` saturates as in the
source.

* `intersect_eq_right`, `intersect_eq_empty`: a span inside another one, and one beside it.
* `Fragments`: the chunks that a fragmented slice may hold.
* `overlapping_group`: the chunks that overlap the span of a group of chunks are the group.
* `scatter`: where a read puts its bytes.
-/

namespace Sirius.Io

open Sirius.Common.Tiling
open Sirius.IoCache

/-! ## Ranges -/

/-- The largest `size_t`. -/
def sizeMax : ℕ := 2 ^ 64 - 1

/-- `range::end()` (lines 148–153). -/
def rangeEnd (r : Span) : ℕ := if r.size > sizeMax - r.offset then sizeMax else r.offset + r.size

/-- `intersect` (lines 162–167). -/
def intersect (lhs rhs : Span) : Span :=
  let first := max lhs.offset rhs.offset
  let last := min (rangeEnd lhs) (rangeEnd rhs)
  if last > first then ⟨first, last - first⟩ else ⟨first, 0⟩

theorem rangeEnd_eq {r : Span} (h : r.stop ≤ sizeMax) : rangeEnd r = r.stop := by
  rw [Span.stop] at h ⊢
  rw [rangeEnd, if_neg (by omega)]

section

variable {r f : Span}

theorem intersect_eq_right (hr : r.stop ≤ sizeMax) (hlo : r.offset ≤ f.offset)
    (hhi : f.stop ≤ r.stop) (hpos : 0 < f.size) : intersect r f = f := by
  have hlt : f.stop > f.offset := by
    rw [Span.stop]
    omega
  rw [intersect, rangeEnd_eq hr, rangeEnd_eq (hhi.trans hr), max_eq_right hlo, min_eq_right hhi]
  rw [if_pos hlt, Span.stop, Nat.add_sub_cancel_left]

theorem intersect_eq_empty (hr : r.stop ≤ sizeMax) (hf : f.stop ≤ sizeMax)
    (h : f.Before r ∨ r.Before f ∨ f.size = 0) : (intersect r f).size = 0 := by
  have hle : ¬min r.stop f.stop > max r.offset f.offset := by
    simp only [Span.Before, Span.stop] at h ⊢
    omega
  rw [intersect, rangeEnd_eq hr, rangeEnd_eq hf]
  rw [if_neg hle]

end

/-! ## Slices -/

/-- What the planning reads of a `cached_chunk`. -/
structure CachedChunk where
  offset : ℕ
  data : ℕ
  fill : ChunkFill
  deriving DecidableEq, Repr

/-- The span that `fill_span` gives for a chunk. -/
def CachedChunk.fillRange (blockSize : ℕ) (chunk : CachedChunk) : Span :=
  let span := fillSpan chunk.fill chunk.offset blockSize
  ⟨span.1, span.2 - span.1⟩

/-- `host_buffer` (lines 186–227). -/
inductive HostBuffer where
  | staging
  | contiguous (base : ℕ)
  | fragments (chunks : List CachedChunk)
  deriving DecidableEq, Repr

/-- `prepared_io_slice` (lines 268–300). -/
structure PreparedIoSlice where
  rng : Span
  hBuffer : HostBuffer
  hasDeviceRequest : Bool := false
  deriving DecidableEq, Repr

structure Iovec where
  base : ℕ
  len : ℕ
  deriving DecidableEq, Repr

/-- The buffer of a chunk, where its fill belongs. -/
def CachedChunk.fillIovec (blockSize : ℕ) (chunk : CachedChunk) : Iovec :=
  let fill := chunk.fillRange blockSize
  ⟨chunk.data + (fill.offset - chunk.offset), fill.size⟩

/-- Where a read of a span puts its bytes: each position, with its address. -/
def scatter (r : Span) (iovecs : List Iovec) : List (ℕ × ℕ) :=
  r.bytes.zip (iovecs.flatMap fun v => List.range' v.base v.len)

/-- The positions of a fill, with their places in the buffer of the chunk. -/
def CachedChunk.places (blockSize : ℕ) (chunk : CachedChunk) : List (ℕ × ℕ) :=
  (chunk.fillRange blockSize).bytes.map fun x => (x, chunk.data + (x - chunk.offset))

/-- The chunks of a fragmented slice: they have buffers, they are in increasing order, a block
    apart (src/io/cache/types.hpp:951-952), and end where a `size_t` can say so. -/
structure Fragments (blockSize : ℕ) (chunks : List CachedChunk) : Prop where
  allocated : ∀ chunk ∈ chunks, chunk.data ≠ 0
  apart : chunks.Pairwise fun a b => a.offset + blockSize ≤ b.offset
  representable : ∀ chunk ∈ chunks, chunk.offset + blockSize ≤ sizeMax

/-! ## Fills -/

section Fill

variable (blockSize : ℕ) (chunk : CachedChunk)

/-- A fill lies in its chunk. -/
theorem CachedChunk.fillRange_inside :
    chunk.offset ≤ (chunk.fillRange blockSize).offset ∧
      (chunk.fillRange blockSize).stop ≤ chunk.offset + blockSize := by
  rw [fillRange, fillSpan]
  split_ifs <;> simp only [Span.stop, fillBytes] <;> omega

theorem CachedChunk.fillRange_size_le : (chunk.fillRange blockSize).size ≤ blockSize := by
  have := chunk.fillRange_inside blockSize
  rw [Span.stop] at this
  omega

/-- The fill of a chunk, and where it belongs. -/
theorem CachedChunk.scatter_fill :
    scatter (chunk.fillRange blockSize) [chunk.fillIovec blockSize] = chunk.places blockSize := by
  have hlo := (chunk.fillRange_inside blockSize).1
  rw [scatter, places, fillIovec, List.flatMap_singleton]
  refine List.ext_getElem (by simp [Span.bytes]) fun i h₁ h₂ => ?_
  simp [Span.bytes]
  omega

end Fill

namespace Fragments

variable {blockSize : ℕ} {chunks : List CachedChunk}

theorem sublist {l : List CachedChunk} (h : Fragments blockSize chunks) (hl : l.Sublist chunks) :
    Fragments blockSize l :=
  ⟨fun c hc => h.allocated c (hl.subset hc), h.apart.sublist hl,
    fun c hc => h.representable c (hl.subset hc)⟩

theorem cons {chunk : CachedChunk} (h : Fragments blockSize (chunk :: chunks)) :
    Fragments blockSize chunks :=
  h.sublist (List.sublist_cons_self _ _)

/-- The fills are in increasing order. -/
theorem fills (h : Fragments blockSize chunks) :
    (chunks.map (CachedChunk.fillRange blockSize)).Pairwise Span.Before := by
  rw [List.pairwise_map]
  refine h.apart.imp ?_
  intro a b hab
  have ha := a.fillRange_inside blockSize
  have hb := b.fillRange_inside blockSize
  rw [Span.Before]
  omega

theorem stop_le (h : Fragments blockSize chunks) {chunk : CachedChunk} (hc : chunk ∈ chunks) :
    (chunk.fillRange blockSize).stop ≤ sizeMax :=
  (chunk.fillRange_inside blockSize).2.trans (h.representable chunk hc)

end Fragments

/-! ## Groups of chunks -/

/-- Chunks whose fills join to one span. -/
structure Group (blockSize : ℕ) (g : List CachedChunk) : Prop where
  ne_nil : g ≠ []
  joined : Joined (g.map (CachedChunk.fillRange blockSize))
  pos : ∀ chunk ∈ g, 0 < (chunk.fillRange blockSize).size

/-- The span of a group. -/
def groupRange (blockSize : ℕ) (g : List CachedChunk) : Span :=
  hull (g.map (CachedChunk.fillRange blockSize))

namespace Group

variable {blockSize : ℕ} {g : List CachedChunk} {chunk : CachedChunk}

theorem singleton (h : 0 < (chunk.fillRange blockSize).size) : Group blockSize [chunk] :=
  ⟨by simp, List.isChain_singleton _, by simpa using h⟩

theorem concat (h : Group blockSize g) (hpos : 0 < (chunk.fillRange blockSize).size)
    (hstop : (groupRange blockSize g).stop = (chunk.fillRange blockSize).offset) :
    Group blockSize (g ++ [chunk]) := by
  refine ⟨by simp, ?_, ?_⟩
  · rw [List.map_append]
    exact h.joined.concat (by simpa using h.ne_nil) hstop
  · intro c hc
    rcases List.mem_append.mp hc with hc | hc
    · exact h.pos c hc
    · rw [List.mem_singleton.mp hc]
      exact hpos

theorem groupRange_singleton : groupRange blockSize [chunk] = chunk.fillRange blockSize :=
  hull_singleton _

theorem groupRange_concat (h : g ≠ []) : groupRange blockSize (g ++ [chunk]) =
    ⟨(groupRange blockSize g).offset,
      (groupRange blockSize g).size + (chunk.fillRange blockSize).size⟩ := by
  rw [groupRange, List.map_append, List.map_singleton, hull_concat (by simpa using h)]
  rfl

theorem size_groupRange (blockSize : ℕ) (g : List CachedChunk) :
    (groupRange blockSize g).size = (g.map fun c => (c.fillRange blockSize).size).sum := by
  rw [groupRange, hull, List.map_map]
  rfl

theorem bytes_groupRange (h : Group blockSize g) :
    (groupRange blockSize g).bytes = g.flatMap fun c => (c.fillRange blockSize).bytes := by
  rw [groupRange, bytes_hull h.joined, List.flatMap_map]

/-- A fill of the group lies in its span. -/
theorem fill_inside (h : Group blockSize g) (hc : chunk ∈ g) :
    (groupRange blockSize g).offset ≤ (chunk.fillRange blockSize).offset ∧
      (chunk.fillRange blockSize).stop ≤ (groupRange blockSize g).stop := by
  have hpos := h.pos chunk hc
  have hmem (x : ℕ) (hx : x ∈ (chunk.fillRange blockSize).bytes) :
      x ∈ (groupRange blockSize g).bytes := by
    rw [h.bytes_groupRange]
    exact List.mem_flatMap.mpr ⟨chunk, hc, hx⟩
  have hfirst := Span.mem_bytes.mp (hmem (chunk.fillRange blockSize).offset (by
    rw [Span.mem_bytes, Span.stop]
    omega))
  have hlast := Span.mem_bytes.mp (hmem ((chunk.fillRange blockSize).stop - 1) (by
    rw [Span.mem_bytes, Span.stop]
    omega))
  rw [Span.stop] at *
  omega

/-- The span of a group ends where one of its fills ends, and begins where one begins. -/
theorem exists_ends (h : Group blockSize g) :
    (∃ c ∈ g, (groupRange blockSize g).offset = (c.fillRange blockSize).offset) ∧
      ∃ c ∈ g, (groupRange blockSize g).stop = (c.fillRange blockSize).stop := by
  constructor
  · obtain ⟨a, l, rfl⟩ := List.exists_cons_of_ne_nil h.ne_nil
    exact ⟨a, List.mem_cons_self, rfl⟩
  · obtain ⟨l, a, rfl⟩ : ∃ l a, g = l ++ [a] :=
      ⟨g.dropLast, g.getLast h.ne_nil, (List.dropLast_append_getLast h.ne_nil).symm⟩
    have hj := h.joined
    rw [List.map_append] at hj
    refine ⟨a, by simp, ?_⟩
    rw [groupRange, List.map_append]
    exact stop_hull hj

theorem size_pos (h : Group blockSize g) : 0 < (groupRange blockSize g).size := by
  obtain ⟨c, hc, -⟩ := h.exists_ends.1
  have := h.fill_inside hc
  have := h.pos c hc
  simp only [Span.stop] at *
  omega

end Group

/-- Whether a read of a span touches the fill of a chunk. -/
def overlaps (blockSize : ℕ) (r : Span) (chunk : CachedChunk) : Bool :=
  decide ((intersect r (chunk.fillRange blockSize)).size ≠ 0)

section Overlap

variable {blockSize : ℕ} {chunks front g back : List CachedChunk}

theorem stop_groupRange_le (h : Fragments blockSize chunks) (hg : Group blockSize g)
    (hsub : ∀ c ∈ g, c ∈ chunks) : (groupRange blockSize g).stop ≤ sizeMax := by
  obtain ⟨c, hc, hstop⟩ := hg.exists_ends.2
  rw [hstop]
  exact h.stop_le (hsub c hc)

/-- **The chunks that a read of a group's span touches are the group**, whole. -/
theorem overlapping_group (h : Fragments blockSize chunks) (hg : Group blockSize g)
    (hsplit : (chunks.filter fun c => decide (0 < (c.fillRange blockSize).size)) =
      front ++ g ++ back) :
    chunks.filter (overlaps blockSize (groupRange blockSize g)) = g ∧
      ∀ c ∈ g, intersect (groupRange blockSize g) (c.fillRange blockSize) =
        c.fillRange blockSize := by
  set l := chunks.filter fun c => decide (0 < (c.fillRange blockSize).size) with hl
  have hfl : Fragments blockSize l := h.sublist List.filter_sublist
  have hsub : ∀ c ∈ g, c ∈ l := fun c hc => by
    rw [hsplit]
    simp [hc]
  have hstop := stop_groupRange_le hfl hg hsub
  have hwhole : ∀ c ∈ g, intersect (groupRange blockSize g) (c.fillRange blockSize) =
      c.fillRange blockSize := by
    intro c hc
    have hin := hg.fill_inside hc
    exact intersect_eq_right hstop hin.1 hin.2 (hg.pos c hc)
  refine ⟨?_, hwhole⟩
  -- what does not overlap may be left out first
  have hempty : chunks.filter (overlaps blockSize (groupRange blockSize g)) =
      l.filter (overlaps blockSize (groupRange blockSize g)) := by
    rw [hl, List.filter_filter]
    refine List.filter_congr fun c hc => ?_
    by_cases hpos : 0 < (c.fillRange blockSize).size
    · simp [hpos]
    · have hzero := intersect_eq_empty hstop (h.stop_le hc) (.inr (.inr (by omega)))
      simp [overlaps, hzero]
  have hfills := hfl.fills
  rw [hsplit, List.map_append, List.map_append, List.pairwise_append, List.pairwise_append]
    at hfills
  have hbefore : ∀ c ∈ front, overlaps blockSize (groupRange blockSize g) c = false := by
    intro c hc
    obtain ⟨d, hd, hoff⟩ := hg.exists_ends.1
    have horder := hfills.1.2.2 _ (List.mem_map_of_mem hc) _ (List.mem_map_of_mem hd)
    rw [Span.Before, ← hoff] at horder
    have hmem : c ∈ l := by simp [hsplit, hc]
    simp [overlaps, intersect_eq_empty hstop (hfl.stop_le hmem) (.inl horder)]
  have hbehind : ∀ c ∈ back, overlaps blockSize (groupRange blockSize g) c = false := by
    intro c hc
    obtain ⟨d, hd, hend⟩ := hg.exists_ends.2
    have horder := hfills.2.2 _ (List.mem_append_right _ (List.mem_map_of_mem hd)) _
      (List.mem_map_of_mem hc)
    rw [Span.Before, ← hend] at horder
    have hmem : c ∈ l := by simp [hsplit, hc]
    simp [overlaps, intersect_eq_empty hstop (hfl.stop_le hmem) (.inr (.inl horder))]
  have hself : ∀ c ∈ g, overlaps blockSize (groupRange blockSize g) c = true := by
    intro c hc
    have := hg.pos c hc
    simp only [overlaps, hwhole c hc, decide_eq_true_eq]
    omega
  rw [hempty, hsplit, List.filter_append, List.filter_append, List.filter_eq_self.mpr hself,
    List.filter_eq_nil_iff.mpr fun c (hc : c ∈ front) => by simp [hbefore c hc],
    List.filter_eq_nil_iff.mpr fun c (hc : c ∈ back) => by simp [hbehind c hc],
    List.nil_append, List.append_nil]

end Overlap

/-! ## Where the bytes go -/

theorem zip_flatMap {α β γ : Type*} {f : α → List β} {h : α → List γ} (l : List α)
    (heq : ∀ a ∈ l, (f a).length = (h a).length) :
    (l.flatMap f).zip (l.flatMap h) = l.flatMap fun a => (f a).zip (h a) := by
  induction l with
  | nil => rfl
  | cons a l ih =>
    rw [List.forall_mem_cons] at heq
    rw [List.flatMap_cons, List.flatMap_cons, List.flatMap_cons, List.zip_append heq.1, ih heq.2]

/-- A read of a group's span into the buffers of its chunks. -/
theorem Group.scatter_eq {blockSize : ℕ} {g : List CachedChunk} (h : Group blockSize g) :
    scatter (groupRange blockSize g) (g.map (CachedChunk.fillIovec blockSize)) =
      g.flatMap (CachedChunk.places blockSize) := by
  rw [scatter, h.bytes_groupRange, List.flatMap_map, zip_flatMap]
  · refine List.flatMap_congr fun c _ => ?_
    rw [← c.scatter_fill blockSize, scatter, List.flatMap_singleton]
  · intro c _
    rw [Span.bytes, List.length_range', List.length_range']
    rfl

end Sirius.Io
