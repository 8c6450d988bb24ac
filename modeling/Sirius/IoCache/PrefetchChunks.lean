import Sirius.IoCache.ChunkFill

/-!
# The chunks of a prefetch request

Model of the first half of `prefetching_cache::initiate_prefetching_request`
(`src/io/cache/prefetching_cache.cpp`, lines 525–608): the requested byte ranges are widened to
the backend's alignment, sorted and fused, mapped onto chunks with the extent each one is
wanted for, and folded to one extent a chunk.

Sizes and offsets are `size_t`. The sums of `needed_fill` and `covers` that can pass `2^64` are
taken modulo `2^64` here; no other sum can, since it is at most the object size.

* `chunksWanted`: the vectors `chunk_offsets` and `desired`.
* `neededFill_covers_iff`: when the extent of a request covers it.
* `prefetch_covers_iff`: for which chunk sizes and objects every request is covered.
-/

namespace Sirius.IoCache.PrefetchChunks

open ChunkFill

/-- `cudf::io::text::byte_range_info`: two `int64_t`. -/
structure ByteRange where
  offset : ℤ
  size : ℤ
  deriving DecidableEq, Repr

/-- The values of the fields of a range. -/
def ByteRange.Fits (r : ByteRange) : Prop :=
  (-2 ^ 63 ≤ r.offset ∧ r.offset < 2 ^ 63) ∧ -2 ^ 63 ≤ r.size ∧ r.size < 2 ^ 63

/-! ## Extents in words -/

/-- `needed_fill` (`types.hpp`, lines 245–264) with its `size_t` sums. -/
def neededFillWord (chunkOff chunkBytes reqLo reqHi : ℕ) : ChunkFill :=
  let chunkEnd := (chunkOff + chunkBytes) % 2 ^ 64
  let lo := max reqLo chunkOff
  let hi := min reqHi chunkEnd
  if lo ≥ hi then unset
  else if lo ≤ chunkOff ∧ hi ≥ chunkEnd then whole
  else
    let prefixBytes := min (alignUp (hi - chunkOff) ioBlockSize) chunkBytes
    let suffixBytes := min (chunkEnd - alignDown lo ioBlockSize) chunkBytes
    let preferPrefix := prefixBytes ≤ suffixBytes
    let bytes := if preferPrefix then prefixBytes else suffixBytes
    if bytes ≥ chunkBytes then whole
    else
      let pages := bytes / ioBlockSize % 2 ^ 16
      if preferPrefix then prefixOf pages else suffixOf pages

/-- `covers` (`types.hpp`, lines 211–218) with its `size_t` sums. -/
def coversWord (f : ChunkFill) (chunkOff chunkBytes lo hi : ℕ) : Bool :=
  if f.full then true
  else if f.isUnset then false
  else if f.suffix then
    decide (lo ≥ ((chunkOff + chunkBytes) % 2 ^ 64 + 2 ^ 64 - fillBytes f chunkBytes) % 2 ^ 64)
  else decide (hi ≤ (chunkOff + fillBytes f chunkBytes) % 2 ^ 64)

/-! ## The request -/

/-- One round of the first loop (lines 550–565): a range widened to the alignment, and clamped
    to the object. -/
def widen (objSize alignment : ℕ) (r : ByteRange) : Option (ℕ × ℕ) :=
  if r.offset < 0 ∨ r.size ≤ 0 then none
  else
    let lo := r.offset.toNat
    if lo ≥ objSize then none
    else
      let logicalHi := lo + min r.size.toNat (objSize - lo)
      let alignedLo := lo - lo % alignment
      let remainder := logicalHi % alignment
      let alignedHi :=
        if remainder ≠ 0 then
          let delta := alignment - remainder
          if delta > objSize - logicalHi then objSize else logicalHi + delta
        else logicalHi
      if alignedHi > alignedLo then some (alignedLo, alignedHi) else none

/-- The order of `std::pair`. -/
def SpanLe (a b : ℕ × ℕ) : Prop := a.1 < b.1 ∨ a.1 = b.1 ∧ a.2 ≤ b.2

instance : DecidableRel SpanLe :=
  fun a b => inferInstanceAs (Decidable (a.1 < b.1 ∨ a.1 = b.1 ∧ a.2 ≤ b.2))

/-- One round of the loop that fuses (lines 570–577); the vector `merged`, last element first. -/
def fuseStep (gap : ℕ) : List (ℕ × ℕ) → ℕ × ℕ → List (ℕ × ℕ)
  | (back, backHi) :: rest, (lo, hi) =>
    if lo ≤ backHi ∨ lo - backHi ≤ gap then (back, max backHi hi) :: rest
    else (lo, hi) :: (back, backHi) :: rest
  | [], span => [span]

/-- The spans that are read, in order. -/
def mergedSpans (objSize alignment gap : ℕ) (ranges : List ByteRange) : List (ℕ × ℕ) :=
  let spans := (ranges.filterMap (widen objSize alignment)).insertionSort SpanLe
  (spans.foldl (fuseStep gap) []).reverse

/-- The loop over the chunks of a span (lines 587–592). -/
def chunkLoop (chunkBytes lo hi : ℕ) : ℕ → ℕ → List (ℕ × ChunkFill)
  | 0, _ => []
  | fuel + 1, off =>
    if off < hi then
      (off, neededFillWord off chunkBytes lo hi) ::
        if chunkBytes > 2 ^ 64 - 1 - off then []
        else chunkLoop chunkBytes lo hi fuel (off + chunkBytes)
    else []

/-- The chunks of a span; `hi / chunkBytes + 1` rounds are enough (`mem_chunksOf`). -/
def chunksOf (chunkBytes : ℕ) (span : ℕ × ℕ) : List (ℕ × ChunkFill) :=
  chunkLoop chunkBytes span.1 span.2 (span.2 / chunkBytes + 1) (span.1 / chunkBytes * chunkBytes)

/-- One round of the last loop (lines 601–608); the two vectors, last element first. -/
def collapseStep : List ℕ × List ChunkFill → ℕ × ChunkFill → List ℕ × List ChunkFill
  | (back :: offsets, fill :: desired), (off, want) =>
    if back = off then (back :: offsets, merge fill want :: desired)
    else (off :: back :: offsets, want :: fill :: desired)
  | (offsets, desired), (off, want) => (off :: offsets, want :: desired)

/-- The vectors `chunk_offsets` and `desired`. -/
def chunksWanted (objSize chunkBytes alignment gap : ℕ) (ranges : List ByteRange) :
    List ℕ × List ChunkFill :=
  let wanted := ((mergedSpans objSize alignment gap ranges).flatMap
    (chunksOf chunkBytes)).insertionSort fun a b => a.1 ≤ b.1
  let collapsed := wanted.foldl collapseStep ([], [])
  (collapsed.1.reverse, collapsed.2.reverse)

/-! ## What a request is promised -/

/-- The chunks are strictly increasing, aligned and index-parallel with their extents, and every
    chunk that a requested range overlaps is listed with an extent that covers the overlap. -/
structure Covered (objSize chunkBytes : ℕ) (ranges : List ByteRange)
    (chunks : List ℕ × List ChunkFill) : Prop where
  increasing : chunks.1.Pairwise (· < ·)
  aligned : ∀ off ∈ chunks.1, chunkBytes ∣ off
  parallel : chunks.1.length = chunks.2.length
  covered : ∀ r ∈ ranges, 0 ≤ r.offset → 0 < r.size → ∀ off, chunkBytes ∣ off →
    ∀ lo hi, lo = max r.offset.toNat off →
      hi = min (min (r.offset.toNat + r.size.toNat) objSize) (off + chunkBytes) → lo < hi →
      ∃ (k : ℕ) (fill : ChunkFill), chunks.1[k]? = some off ∧ chunks.2[k]? = some fill ∧
        coversWord fill off chunkBytes lo hi = true

/-- The chunk at `off` ends at a page boundary, or at each page boundary inside it the extents
    that are anchored to its start are the smaller ones. -/
def SuffixFits (objSize chunkBytes off : ℕ) : Prop :=
  (off + chunkBytes) % ioBlockSize = 0 ∨
    ∀ page, ioBlockSize ∣ page → off < page → page < min (off + chunkBytes) objSize →
      page < 2 ^ 63 →
      alignUp (min (off + chunkBytes) objSize - off) ioBlockSize ≤ off + chunkBytes - page

variable {off c lo hi objSize alignment : ℕ}

/-- Every chunk of the object ends below `2^64`, and the extents anchored to its end are never
    used or whole pages. -/
def PagesFit (objSize chunkBytes : ℕ) : Prop :=
  ∀ off, chunkBytes ∣ off → off < min objSize (2 ^ 64 - 2) →
    off + chunkBytes < 2 ^ 64 ∧ SuffixFits objSize chunkBytes off

/-! ## Words and numbers -/

theorem neededFillWord_eq (h : off + c < 2 ^ 64) :
    neededFillWord off c lo hi = neededFill off c lo hi := by
  unfold neededFillWord neededFill
  rw [Nat.mod_eq_of_lt h]

/-- A chunk that ends past `2^64` is never wanted for anything. -/
theorem neededFillWord_wraps (hoff : off < 2 ^ 64) (hc : c < 2 ^ 64)
    (h : 2 ^ 64 ≤ off + c) : neededFillWord off c lo hi = unset := by
  have hend : (off + c) % 2 ^ 64 = off + c - 2 ^ 64 := by
    rw [Nat.mod_eq_sub_mod h, Nat.mod_eq_of_lt (by omega)]
  unfold neededFillWord
  dsimp only
  rw [hend, if_pos]
  omega

theorem coversWord_eq {f : ChunkFill} (h : off + c < 2 ^ 64) :
    coversWord f off c lo hi = covers f off c lo hi := by
  have hbytes : fillBytes f c ≤ c := min_le_right _ _
  have hback : (off + c + 2 ^ 64 - fillBytes f c) % 2 ^ 64 = off + c - fillBytes f c := by
    rw [Nat.mod_eq_sub_mod (by omega), Nat.mod_eq_of_lt (by omega)]
    omega
  unfold coversWord covers
  rw [Nat.mod_eq_of_lt h, hback, Nat.mod_eq_of_lt (show off + fillBytes f c < 2 ^ 64 by omega)]

theorem coversWord_unset {f : ChunkFill} (h : f.isUnset = true) :
    coversWord f off c lo hi = false := by
  have hf := (isUnset_iff f).mp h
  simp [coversWord, h, hf.1]

/-! ## Widening and fusing -/

theorem widen_bounds {r : ByteRange} {span : ℕ × ℕ} (hfits : r.Fits)
    (h : widen objSize alignment r = some span) :
    span.1 < span.2 ∧ span.2 ≤ objSize ∧ span.1 < 2 ^ 63 := by
  unfold widen at h
  dsimp only at h
  split_ifs at h with hneg hpast hrem hclamp hlt hlt hlt
  all_goals
    cases h
    obtain ⟨⟨-, hoff⟩, -⟩ := hfits
    refine ⟨hlt, ?_, ?_⟩
    · omega
    · omega

/-- A range is inside the span it is widened to. -/
theorem widen_contains {r : ByteRange} (halign : 0 < alignment) (hoff : 0 ≤ r.offset)
    (hsize : 0 < r.size) (hin : r.offset.toNat < objSize) :
    ∃ span, widen objSize alignment r = some span ∧ span.1 ≤ r.offset.toNat ∧
      min (r.offset.toNat + r.size.toNat) objSize ≤ span.2 := by
  have hpos : 0 < r.size.toNat := by omega
  have hmod := Nat.mod_lt (r.offset.toNat + min r.size.toNat (objSize - r.offset.toNat)) halign
  unfold widen
  dsimp only
  rw [if_neg (by omega), if_neg (by omega)]
  split_ifs with hrem hclamp hlt hlt hlt
  · exact ⟨_, rfl, Nat.sub_le _ _, min_le_right _ _⟩
  · omega
  · refine ⟨_, rfl, Nat.sub_le _ _, ?_⟩
    omega
  · omega
  · refine ⟨_, rfl, Nat.sub_le _ _, ?_⟩
    omega
  · omega

/-- A span inside another. -/
def Inside (s m : ℕ × ℕ) : Prop := m.1 ≤ s.1 ∧ s.2 ≤ m.2

theorem Inside.refl (s : ℕ × ℕ) : Inside s s := ⟨le_rfl, le_rfl⟩

/-- Fusing loses no span. -/
theorem fuse_contains (gap : ℕ) {acc spans : List (ℕ × ℕ)}
    (hsorted : spans.Pairwise fun a b => a.1 ≤ b.1)
    (hacc : ∀ m ∈ acc, ∀ s ∈ spans, m.1 ≤ s.1) :
    ∀ s, s ∈ acc ∨ s ∈ spans → ∃ m ∈ spans.foldl (fuseStep gap) acc, Inside s m := by
  induction spans generalizing acc with
  | nil => exact fun s hs => ⟨s, by simpa using hs, Inside.refl s⟩
  | cons x spans ih =>
    obtain ⟨hx, hspans⟩ := List.pairwise_cons.mp hsorted
    have hround : (∀ s, s ∈ acc ∨ s = x → ∃ m ∈ fuseStep gap acc x, Inside s m) ∧
        ∀ m ∈ fuseStep gap acc x, ∀ s ∈ spans, m.1 ≤ s.1 := by
      cases acc with
      | nil =>
        refine ⟨fun s hs => ⟨x, by simp [fuseStep], ?_⟩, fun m hm s hs => ?_⟩
        · obtain rfl : s = x := by simpa using hs
          exact Inside.refl s
        · obtain rfl : m = x := by simpa [fuseStep] using hm
          exact hx s hs
      | cons back rest =>
        have hback : back.1 ≤ x.1 := hacc back (by simp) x (by simp)
        have hrest : ∀ m ∈ rest, ∀ s ∈ spans, m.1 ≤ s.1 :=
          fun m hm s hs => hacc m (by simp [hm]) s (by simp [hs])
        obtain ⟨back, backHi⟩ := back
        obtain ⟨lo, hi⟩ := x
        simp only [fuseStep]
        split_ifs with hfuse
        · refine ⟨fun s hs => ?_, fun m hm s hs => ?_⟩
          · simp only [List.mem_cons, or_assoc] at hs
            rcases hs with rfl | hs | rfl
            · exact ⟨_, List.mem_cons_self, le_rfl, le_max_left _ _⟩
            · exact ⟨s, List.mem_cons_of_mem _ hs, Inside.refl s⟩
            · exact ⟨_, List.mem_cons_self, hback, le_max_right _ _⟩
          · rcases List.mem_cons.mp hm with rfl | hm
            · exact hback.trans (hx s hs)
            · exact hrest m hm s hs
        · refine ⟨fun s hs => ⟨s, ?_, Inside.refl s⟩, fun m hm s hs => ?_⟩
          · simp only [List.mem_cons] at hs ⊢
            tauto
          · rcases List.mem_cons.mp hm with rfl | hm
            · exact hx s hs
            · exact hacc m hm s (by simp [hs])
    rw [List.foldl_cons]
    intro s hs
    have hs' : (s ∈ acc ∨ s = x) ∨ s ∈ spans := by
      rcases hs with hs | hs
      · exact .inl (.inl hs)
      · rcases List.mem_cons.mp hs with hs | hs
        · exact .inl (.inr hs)
        · exact .inr hs
    rcases hs' with hs' | hs'
    · obtain ⟨m, hm, hin⟩ := hround.1 s hs'
      obtain ⟨m', hm', hin'⟩ := ih hspans hround.2 m (.inl hm)
      exact ⟨m', hm', hin'.1.trans hin.1, hin.2.trans hin'.2⟩
    · exact ih hspans hround.2 s (.inr hs')

/-- A span of the object that starts where a range can. -/
def Bounded (objSize : ℕ) (m : ℕ × ℕ) : Prop := m.1 < m.2 ∧ m.2 ≤ objSize ∧ m.1 < 2 ^ 63

theorem fuse_bounded (gap : ℕ) {acc spans : List (ℕ × ℕ)} (hacc : ∀ m ∈ acc, Bounded objSize m)
    (hspans : ∀ s ∈ spans, Bounded objSize s) :
    ∀ m ∈ spans.foldl (fuseStep gap) acc, Bounded objSize m := by
  induction spans generalizing acc with
  | nil => exact hacc
  | cons x spans ih =>
    refine ih ?_ fun s hs => hspans s (List.mem_cons_of_mem _ hs)
    have hx : Bounded objSize x := hspans x List.mem_cons_self
    cases acc with
    | nil =>
      intro m hm
      obtain rfl : m = x := by simpa [fuseStep] using hm
      exact hx
    | cons back rest =>
      obtain ⟨back, backHi⟩ := back
      obtain ⟨lo, hi⟩ := x
      have hb : Bounded objSize (back, backHi) := hacc _ List.mem_cons_self
      intro m hm
      simp only [fuseStep] at hm
      split_ifs at hm
      · rcases List.mem_cons.mp hm with rfl | hm
        · unfold Bounded at *
          omega
        · exact hacc m (List.mem_cons_of_mem _ hm)
      · rcases List.mem_cons.mp hm with rfl | hm
        · exact hx
        · exact hacc m hm

instance : IsTrans (ℕ × ℕ) SpanLe :=
  ⟨fun a b c hab hbc => by unfold SpanLe at *; omega⟩

instance : Std.Total SpanLe :=
  ⟨fun a b => by unfold SpanLe; omega⟩

variable {ranges : List ByteRange}

/-- **The fused spans hold every requested range**, and stay inside the object. -/
theorem mergedSpans_spec (objSize alignment gap : ℕ) (hfits : ∀ r ∈ ranges, r.Fits) :
    (∀ m ∈ mergedSpans objSize alignment gap ranges, Bounded objSize m) ∧
      ∀ r ∈ ranges, ∀ s, widen objSize alignment r = some s →
        ∃ m ∈ mergedSpans objSize alignment gap ranges, Inside s m := by
  have hsorted := List.pairwise_insertionSort SpanLe (ranges.filterMap (widen objSize alignment))
  have hmem : ∀ s, s ∈ (ranges.filterMap (widen objSize alignment)).insertionSort SpanLe ↔
      ∃ r ∈ ranges, widen objSize alignment r = some s := fun s => by
    rw [List.mem_insertionSort, List.mem_filterMap]
  simp only [mergedSpans, List.mem_reverse]
  refine ⟨fuse_bounded gap (by simp) fun s hs => ?_, fun r hr s hs => ?_⟩
  · obtain ⟨r, hr, hs⟩ := (hmem s).mp hs
    exact widen_bounds (hfits r hr) hs
  · refine fuse_contains gap (hsorted.imp fun {a b} hab => ?_) (by simp) s (.inr ((hmem s).mpr ⟨r, hr, hs⟩))
    unfold SpanLe at hab
    omega

/-! ## The chunks of a span -/

theorem mem_chunkLoop (hhi : hi < 2 ^ 64) (fuel off x : ℕ) (f : ChunkFill) :
    (x, f) ∈ chunkLoop c lo hi fuel off ↔
      ∃ k < fuel, x = off + k * c ∧ x < hi ∧ f = neededFillWord x c lo hi := by
  induction fuel generalizing off with
  | zero => simp [chunkLoop]
  | succ fuel ih =>
    unfold chunkLoop
    by_cases hoff : off < hi
    · rw [if_pos hoff, List.mem_cons]
      have htail : ((x, f) ∈ if c > 2 ^ 64 - 1 - off then []
            else chunkLoop c lo hi fuel (off + c)) ↔
          ∃ k < fuel, x = off + c + k * c ∧ x < hi ∧ f = neededFillWord x c lo hi := by
        split_ifs with hbreak
        · -- the loop breaks only where the next offset is past the end of every span
          simp only [List.not_mem_nil, false_iff, not_exists, not_and]
          intro k _ hx hlt
          have hk : 0 ≤ k * c := Nat.zero_le _
          omega
        · exact ih (off + c)
      rw [htail]
      constructor
      · rintro (heq | ⟨k, hk, hx, hrest⟩)
        · cases heq
          exact ⟨0, by omega, by simp, hoff, rfl⟩
        · exact ⟨k + 1, by omega, by rw [hx]; ring, hrest⟩
      · rintro ⟨k, hk, hx, hlt, hf⟩
        cases k with
        | zero =>
          obtain rfl : x = off := by simpa using hx
          exact .inl (by rw [hf])
        | succ k => exact .inr ⟨k, by omega, by rw [hx]; ring, hlt, hf⟩
    · rw [if_neg hoff]
      simp only [List.not_mem_nil, false_iff, not_exists, not_and]
      intro k _ hx hlt
      have hk : 0 ≤ k * c := Nat.zero_le _
      omega

/-- **The chunks that a span overlaps**, with the extent wanted of each. -/
theorem mem_chunksOf (hc : 0 < c) (hhi : hi < 2 ^ 64) (x : ℕ) (f : ChunkFill) :
    (x, f) ∈ chunksOf c (lo, hi) ↔
      c ∣ x ∧ lo < x + c ∧ x < hi ∧ f = neededFillWord x c lo hi := by
  rw [chunksOf, mem_chunkLoop hhi]
  dsimp only
  have hlo := Nat.div_add_mod lo c
  have hmod := Nat.mod_lt lo hc
  constructor
  · rintro ⟨k, -, rfl, hlt, hf⟩
    refine ⟨⟨lo / c + k, by ring⟩, ?_, hlt, hf⟩
    have hk : 0 ≤ k * c := Nat.zero_le _
    rw [Nat.mul_comm] at hlo
    omega
  · rintro ⟨⟨n, rfl⟩, hlt, hx, hf⟩
    have hn : lo / c ≤ n := by
      refine Nat.lt_succ_iff.mp ((Nat.div_lt_iff_lt_mul hc).mpr ?_)
      calc lo < c * n + c := hlt
        _ = (n + 1) * c := by ring
    have hnhi : n ≤ hi / c := (Nat.le_div_iff_mul_le hc).mpr (by rw [Nat.mul_comm]; omega)
    refine ⟨n - lo / c, lt_of_le_of_lt (Nat.sub_le _ _) (Nat.lt_succ_of_le hnhi), ?_, hx, hf⟩
    obtain ⟨d, rfl⟩ := Nat.exists_eq_add_of_le hn
    rw [Nat.add_sub_cancel_left]
    ring

/-! ## Folding to one extent a chunk -/

/-- `collapseStep` on the pairs of an offset and its extent. -/
def collapsePair : List (ℕ × ChunkFill) → ℕ × ChunkFill → List (ℕ × ChunkFill)
  | (back, fill) :: rest, (off, want) =>
    if back = off then (back, merge fill want) :: rest else (off, want) :: (back, fill) :: rest
  | [], x => [x]

/-- **The two vectors are index-parallel.** -/
theorem collapse_eq (wanted ps : List (ℕ × ChunkFill)) :
    wanted.foldl collapseStep (ps.map Prod.fst, ps.map Prod.snd) =
      ((wanted.foldl collapsePair ps).map Prod.fst, (wanted.foldl collapsePair ps).map Prod.snd) := by
  induction wanted generalizing ps with
  | nil => rfl
  | cons x wanted ih =>
    rw [List.foldl_cons, List.foldl_cons, ← ih]
    congr 1
    cases ps with
    | nil => rfl
    | cons p ps =>
      obtain ⟨back, fill⟩ := p
      obtain ⟨off, want⟩ := x
      simp only [List.map_cons, collapseStep, collapsePair]
      split_ifs <;> rfl

/-- What the pairs folded so far say of the wanted extents. -/
structure Folded (done ps : List (ℕ × ChunkFill)) : Prop where
  decreasing : ps.Pairwise fun a b => b.1 < a.1
  back : ∀ p ∈ ps.head?, ∀ x ∈ done, x.1 ≤ p.1
  sound : ∀ p ∈ ps, ∃ x ∈ done, x.1 = p.1
  widened : ∀ x ∈ done, ∃ p ∈ ps, p.1 = x.1 ∧
    ∀ off c lo hi, covers x.2 off c lo hi = true → covers p.2 off c lo hi = true
  closed : ∀ Q : ChunkFill → Prop, (∀ a b, Q a → Q b → Q (merge a b)) →
    ∀ p ∈ ps, (∀ x ∈ done, x.1 = p.1 → Q x.2) → Q p.2

theorem Folded.step {done ps : List (ℕ × ChunkFill)} (h : Folded done ps) {x : ℕ × ChunkFill}
    (hx : ∀ y ∈ done, y.1 ≤ x.1) : Folded (done ++ [x]) (collapsePair ps x) := by
  have hle : ∀ y ∈ done ++ [x], y.1 ≤ x.1 := by
    intro y hy
    rcases List.mem_append.mp hy with hy | hy
    · exact hx y hy
    · rw [List.mem_singleton.mp hy]
  have hold : ∀ {Q : ChunkFill → Prop} {n : ℕ}, (∀ y ∈ done ++ [x], y.1 = n → Q y.2) →
      ∀ y ∈ done, y.1 = n → Q y.2 := fun hall y hy => hall y (List.mem_append_left _ hy)
  have hself : x ∈ done ++ [x] := List.mem_append_right _ (List.mem_singleton.mpr rfl)
  -- a new pair goes on top of smaller ones
  have hpush : (∀ p ∈ ps, p.1 < x.1) → Folded (done ++ [x]) (x :: ps) := by
    intro hlt
    refine ⟨List.pairwise_cons.mpr ⟨hlt, h.decreasing⟩, ?_, ?_, ?_, ?_⟩
    · intro p hp y hy
      obtain rfl : x = p := by simpa using hp
      exact hle y hy
    · intro p hp
      rcases List.mem_cons.mp hp with rfl | hp
      · exact ⟨_, hself, rfl⟩
      · obtain ⟨y, hy, hyp⟩ := h.sound p hp
        exact ⟨y, List.mem_append_left _ hy, hyp⟩
    · intro y hy
      rcases List.mem_append.mp hy with hy | hy
      · obtain ⟨p, hp, hpy, hcovers⟩ := h.widened y hy
        exact ⟨p, List.mem_cons_of_mem _ hp, hpy, hcovers⟩
      · rw [List.mem_singleton.mp hy]
        exact ⟨x, List.mem_cons_self, rfl, fun _ _ _ _ hc => hc⟩
    · intro Q hQ p hp hall
      rcases List.mem_cons.mp hp with rfl | hp
      · exact hall _ hself rfl
      · exact h.closed Q hQ p hp (hold hall)
  cases ps with
  | nil => exact hpush (by simp)
  | cons p rest =>
    obtain ⟨back, fill⟩ := p
    obtain ⟨off, want⟩ := x
    simp only [collapsePair]
    split_ifs with heq
    · subst heq
      obtain ⟨hlt, hrest⟩ := List.pairwise_cons.mp h.decreasing
      refine ⟨List.pairwise_cons.mpr ⟨hlt, hrest⟩, ?_, ?_, ?_, ?_⟩
      · intro p hp y hy
        obtain rfl : (back, merge fill want) = p := by simpa using hp
        exact hle y hy
      · intro p hp
        rcases List.mem_cons.mp hp with rfl | hp
        · exact ⟨_, hself, rfl⟩
        · obtain ⟨y, hy, hyp⟩ := h.sound p (List.mem_cons_of_mem _ hp)
          exact ⟨y, List.mem_append_left _ hy, hyp⟩
      · intro y hy
        rcases List.mem_append.mp hy with hy | hy
        · obtain ⟨p, hp, hpy, hcovers⟩ := h.widened y hy
          rcases List.mem_cons.mp hp with rfl | hp
          · refine ⟨_, List.mem_cons_self, hpy, fun o c lo hi hc => ?_⟩
            exact merge_covers_left (hcovers o c lo hi hc)
          · exact ⟨p, List.mem_cons_of_mem _ hp, hpy, hcovers⟩
        · rw [List.mem_singleton.mp hy]
          exact ⟨_, List.mem_cons_self, rfl, fun _ _ _ _ hc => merge_covers_right hc⟩
      · intro Q hQ p hp hall
        rcases List.mem_cons.mp hp with rfl | hp
        · exact hQ _ _ (h.closed Q hQ _ List.mem_cons_self (hold hall)) (hall _ hself rfl)
        · exact h.closed Q hQ p (List.mem_cons_of_mem _ hp) (hold hall)
    · refine hpush fun p hp => ?_
      have hback : back < off := by
        obtain ⟨y, hy, hyb⟩ := h.sound _ List.mem_cons_self
        have hle' := hx y hy
        rw [hyb] at hle'
        exact lt_of_le_of_ne hle' heq
      rcases List.mem_cons.mp hp with rfl | hp
      · exact hback
      · exact lt_trans ((List.pairwise_cons.mp h.decreasing).1 p hp) hback

/-- **Folding a sorted list keeps every extent.** -/
theorem folded_foldl {wanted : List (ℕ × ChunkFill)} (hsorted : wanted.Pairwise fun a b => a.1 ≤ b.1)
    {done ps : List (ℕ × ChunkFill)} (h : Folded done ps)
    (hdone : ∀ y ∈ done, ∀ x ∈ wanted, y.1 ≤ x.1) :
    Folded (done ++ wanted) (wanted.foldl collapsePair ps) := by
  induction wanted generalizing done ps with
  | nil => simpa using h
  | cons x wanted ih =>
    obtain ⟨hx, hrest⟩ := List.pairwise_cons.mp hsorted
    have hnext := ih hrest (h.step fun y hy => hdone y hy x List.mem_cons_self) (by
      intro y hy z hz
      rcases List.mem_append.mp hy with hy | hy
      · exact hdone y hy z (List.mem_cons_of_mem _ hz)
      · rw [List.mem_singleton.mp hy]
        exact hx z hz)
    rwa [List.append_assoc, List.singleton_append] at hnext

instance : IsTrans (ℕ × ChunkFill) fun a b => a.1 ≤ b.1 :=
  ⟨fun _ _ _ hab hbc => le_trans hab hbc⟩

instance : Std.Total fun a b : ℕ × ChunkFill => a.1 ≤ b.1 :=
  ⟨fun a b => le_total a.1 b.1⟩

/-- The extents wanted, before they are folded. -/
def wantedFills (objSize chunkBytes alignment gap : ℕ) (ranges : List ByteRange) :
    List (ℕ × ChunkFill) :=
  (mergedSpans objSize alignment gap ranges).flatMap (chunksOf chunkBytes)

/-- **The listed chunks**: pairs of an offset and an extent that covers what each wanted extent
    covers. -/
theorem chunksWanted_spec (objSize c alignment gap : ℕ) (ranges : List ByteRange) :
    ∃ ps : List (ℕ × ChunkFill),
      chunksWanted objSize c alignment gap ranges = (ps.map Prod.fst, ps.map Prod.snd) ∧
      Folded (wantedFills objSize c alignment gap ranges) ps.reverse := by
  let wanted := (wantedFills objSize c alignment gap ranges).insertionSort fun a b => a.1 ≤ b.1
  have hmem : ∀ x, x ∈ wanted ↔ x ∈ wantedFills objSize c alignment gap ranges :=
    fun x => List.mem_insertionSort _
  have hempty : Folded [] [] := ⟨.nil, by simp, by simp, by simp, by simp⟩
  have hsorted : wanted.Pairwise fun a b => a.1 ≤ b.1 := List.pairwise_insertionSort _ _
  have hfolded := folded_foldl hsorted hempty (by simp)
  rw [List.nil_append] at hfolded
  refine ⟨(wanted.foldl collapsePair []).reverse, ?_, ?_⟩
  · have hcollapse := collapse_eq wanted []
    simp only [List.map_nil] at hcollapse
    simp only [chunksWanted, List.map_reverse]
    exact congrArg₂ Prod.mk (congrArg (fun v => v.1.reverse) hcollapse)
      (congrArg (fun v => v.2.reverse) hcollapse)
  · rw [List.reverse_reverse]
    refine ⟨hfolded.decreasing, fun p hp x hx => hfolded.back p hp x ((hmem x).mpr hx), ?_, ?_, ?_⟩
    · intro p hp
      obtain ⟨x, hx, hxp⟩ := hfolded.sound p hp
      exact ⟨x, (hmem x).mp hx, hxp⟩
    · exact fun x hx => hfolded.widened x ((hmem x).mpr hx)
    · exact fun Q hQ p hp hall => hfolded.closed Q hQ p hp fun x hx => hall x ((hmem x).mp hx)

/-! ## When the extent of a request covers it -/

theorem neededFill_covers_of_suffixFits {objSize off c reqLo reqHi lo hi : ℕ}
    (hmax : c ≤ maxChunkBytes) (hfits : SuffixFits objSize c off)
    (hreq : Bounded objSize (reqLo, reqHi)) (hlo : max reqLo off ≤ lo)
    (hhi : hi ≤ min reqHi (off + c)) (hlt : lo < hi) :
    covers (neededFill off c reqLo reqHi) off c lo hi = true := by
  obtain ⟨-, hend, hstart⟩ := hreq
  dsimp only at hend hstart
  have hdown : alignDown (max reqLo off) ioBlockSize ≤ max reqLo off := Nat.sub_le ..
  refine neededFill_covers hmax (hfits.imp_right fun hpage => ?_) hlo hhi hlt
  -- where the request starts in the chunk, the suffix is not the smaller one
  rcases Nat.lt_or_ge off (alignDown (max reqLo off) ioBlockSize) with hd | hd
  · have hkey := hpage _ (Nat.dvd_of_mod_eq_zero (alignDown_mod _)) hd (by omega) (by omega)
    refine min_le_min_right c ((alignUp_mono ?_).trans hkey)
    omega
  · omega

theorem suffixFits_of_neededFill_covers (hmax : c ≤ maxChunkBytes)
    (h : ∀ page, ioBlockSize ∣ page → off < page → page < min (off + c) objSize → page < 2 ^ 63 →
      covers (neededFill off c page (min (off + c) objSize)) off c page
        (min (off + c) objSize) = true) : SuffixFits objSize c off := by
  refine or_iff_not_imp_left.mpr fun hend page hdiv hoff hlt hpage => ?_
  have hcovers := h page hdiv hoff hlt hpage
  have hmod := Nat.mod_eq_zero_of_dvd hdiv
  unfold neededFill at hcovers
  dsimp only at hcovers
  rw [Nat.max_eq_left hoff.le, Nat.min_eq_left (Nat.min_le_left (off + c) objSize),
    show alignDown page ioBlockSize = page by rw [alignDown, hmod, Nat.sub_zero],
    if_neg (by omega), if_neg (by omega)] at hcovers
  split_ifs at hcovers with hprefix hbytes hbytes
  · omega
  · omega
  · omega
  · rw [covers_suffixOf] at hcovers
    have hsmall : c ≤ 2 ^ 14 * 4096 := hmax
    unfold ioBlockSize at hcovers hend hmod
    omega

/-! ## When every request is covered -/

theorem merge_neededFill_self (off c lo hi : ℕ) :
    merge (neededFill off c lo hi) (neededFill off c lo hi) = neededFill off c lo hi := by
  have hfull : (neededFill off c lo hi).full = true → neededFill off c lo hi = whole := by
    unfold neededFill
    dsimp only
    split_ifs <;> simp [unset, whole, prefixOf, suffixOf]
  unfold merge
  split_ifs with hunset hwhole hside
  · rfl
  · rw [Bool.or_self] at hwhole
    exact (hfull hwhole).symm
  · simp at hside
  · rfl
  · rfl

theorem covered_of_pagesFit {objSize c alignment gap : ℕ} (hobj : objSize < 2 ^ 64) (hc : 0 < c)
    (hmax : c ≤ maxChunkBytes) (hfit : PagesFit objSize c) (halign : 0 < alignment)
    (hranges : ∀ r ∈ ranges, r.Fits) :
    Covered objSize c ranges (chunksWanted objSize c alignment gap ranges) := by
  obtain ⟨ps, hps, hfolded⟩ := chunksWanted_spec objSize c alignment gap ranges
  obtain ⟨hbounded, hinside⟩ := mergedSpans_spec objSize alignment gap hranges
  rw [hps]
  refine ⟨?_, ?_, by simp, ?_⟩
  · rw [List.pairwise_map]
    exact List.pairwise_reverse.mp hfolded.decreasing
  · intro off hoff
    obtain ⟨p, hp, rfl⟩ := List.mem_map.mp hoff
    obtain ⟨⟨x, f⟩, hx, hxp⟩ := hfolded.sound p (List.mem_reverse.mpr hp)
    obtain ⟨m, hm, hx⟩ := List.mem_flatMap.mp hx
    have hmhi := (hbounded m hm).2.1
    rw [← hxp]
    exact ((mem_chunksOf hc (lt_of_le_of_lt hmhi hobj) x f).mp hx).1
  · intro r hr hoffset hsize off hdvd lo hi hlo hhi hlt
    obtain ⟨⟨-, hr63⟩, -, hs63⟩ := hranges r hr
    obtain ⟨span, hspan, hstart, hend⟩ := widen_contains halign hoffset hsize
      (show r.offset.toNat < objSize by omega)
    obtain ⟨m, hm, hmin, hmax'⟩ := hinside r hr span hspan
    have hbound := hbounded m hm
    have hmhi : m.2 < 2 ^ 64 := lt_of_le_of_lt hbound.2.1 hobj
    obtain ⟨hnowrap, hpages⟩ := hfit off hdvd (by omega)
    have hwanted : (off, neededFillWord off c m.1 m.2) ∈ chunksOf c m :=
      (mem_chunksOf hc hmhi _ _).mpr ⟨hdvd, by omega, by omega, rfl⟩
    obtain ⟨p, hp, hpoff, hcovers⟩ :=
      hfolded.widened _ (List.mem_flatMap.mpr ⟨m, hm, hwanted⟩)
    obtain ⟨k, hk⟩ := List.getElem?_of_mem (List.mem_reverse.mp hp)
    refine ⟨k, p.2, by simp [hk, hpoff], by simp [hk], ?_⟩
    rw [coversWord_eq hnowrap]
    refine hcovers off c lo hi ?_
    rw [neededFillWord_eq hnowrap]
    exact neededFill_covers_of_suffixFits hmax hpages hbound (by omega) (by omega) hlt

/-- A range of the object with no alignment to widen it to is its own span. -/
theorem mergedSpans_singleton (hlt : lo < hi) (hhi : hi ≤ objSize) :
    mergedSpans objSize 1 0 [⟨lo, (hi - lo : ℕ)⟩] = [(lo, hi)] := by
  have hwiden : widen objSize 1 ⟨lo, (hi - lo : ℕ)⟩ = some (lo, hi) := by
    unfold widen
    dsimp only
    rw [if_neg (by omega), if_neg (by omega)]
    simp only [Nat.mod_one, ne_eq, not_true_eq_false, if_false, Nat.sub_zero, Int.toNat_natCast]
    rw [show lo + min (hi - lo) (objSize - lo) = hi by omega, if_pos hlt]
  simp [mergedSpans, hwiden, fuseStep]

/-- The extent listed for a chunk comes from the extents wanted of it. -/
theorem listed_closed {objSize c alignment gap : ℕ} {k off : ℕ} {fill : ChunkFill}
    (hoff : (chunksWanted objSize c alignment gap ranges).1[k]? = some off)
    (hfill : (chunksWanted objSize c alignment gap ranges).2[k]? = some fill)
    {Q : ChunkFill → Prop} (hQ : ∀ a b, Q a → Q b → Q (merge a b))
    (hall : ∀ m ∈ mergedSpans objSize alignment gap ranges, ∀ f, (off, f) ∈ chunksOf c m → Q f) :
    Q fill := by
  obtain ⟨ps, hps, hfolded⟩ := chunksWanted_spec objSize c alignment gap ranges
  rw [hps, List.getElem?_map, Option.map_eq_some_iff] at hoff hfill
  obtain ⟨p, hp, rfl⟩ := hoff
  obtain ⟨p', hp', rfl⟩ := hfill
  rw [hp, Option.some.injEq] at hp'
  subst hp'
  refine hfolded.closed Q hQ p (List.mem_reverse.mpr (List.mem_of_getElem? hp)) ?_
  rintro ⟨x, f⟩ hx hxp
  obtain ⟨m, hm, hx⟩ := List.mem_flatMap.mp hx
  subst hxp
  exact hall m hm f hx

/-- A chunk that a range can overlap ends below `2^64`. -/
theorem end_lt_of_covered (hobj : objSize < 2 ^ 64) (hc : 0 < c)
    (hmax : c ≤ maxChunkBytes)
    (h : ∀ ranges, (∀ r ∈ ranges, r.Fits) →
      Covered objSize c ranges (chunksWanted objSize c 1 0 ranges))
    (hdvd : c ∣ off) (hoff : off < min objSize (2 ^ 64 - 2)) : off + c < 2 ^ 64 := by
  have hmax' : c ≤ 2 ^ 14 * 4096 := hmax
  by_contra hwrap
  obtain ⟨lo, hlo63, hlo, hsize⟩ : ∃ lo, lo < 2 ^ 63 ∧ lo ≤ off ∧ off + 1 - lo < 2 ^ 63 :=
    ⟨min off (2 ^ 63 - 1), by omega, by omega, by omega⟩
  have hfits : ∀ r ∈ [(⟨lo, (off + 1 - lo : ℕ)⟩ : ByteRange)], r.Fits := by
    intro r hr
    obtain rfl := List.mem_singleton.mp hr
    unfold ByteRange.Fits
    dsimp only
    omega
  obtain ⟨k, fill, hk, hfill, hcovers⟩ := (h _ hfits).covered _ (List.mem_singleton.mpr rfl)
    (by simp) (by simp; omega) off hdvd _ _ rfl rfl (by simp; omega)
  have hunset : fill.isUnset = true := by
    refine listed_closed (Q := fun f => f.isUnset = true) hk hfill (fun a b ha hb => ?_)
      fun m hm f hf => ?_
    · unfold merge
      rw [if_pos ha]
      exact hb
    · have hmhi := ((mergedSpans_spec objSize 1 0 hfits).1 m hm).2.1
      rw [((mem_chunksOf hc (lt_of_le_of_lt hmhi hobj) off f).mp hf).2.2.2,
        neededFillWord_wraps (by omega) (by omega) (by omega)]
      rfl
  rw [coversWord_unset hunset] at hcovers
  cases hcovers

theorem pagesFit_of_covered (hobj : objSize < 2 ^ 64) (hc : 0 < c)
    (hmax : c ≤ maxChunkBytes)
    (h : ∀ ranges, (∀ r ∈ ranges, r.Fits) →
      Covered objSize c ranges (chunksWanted objSize c 1 0 ranges)) : PagesFit objSize c := by
  have hmax' : c ≤ 2 ^ 14 * 4096 := hmax
  intro off hdvd hoff
  have hnowrap := end_lt_of_covered hobj hc hmax h hdvd hoff
  refine ⟨hnowrap, suffixFits_of_neededFill_covers hmax fun page hpage hlt hend h63 => ?_⟩
  -- the range from the page boundary to the end of the chunk
  have hfits : ∀ r ∈ [(⟨page, (min (off + c) objSize - page : ℕ)⟩ : ByteRange)], r.Fits := by
    intro r hr
    obtain rfl := List.mem_singleton.mp hr
    unfold ByteRange.Fits
    dsimp only
    omega
  obtain ⟨k, fill, hk, hfill, hcovers⟩ := (h _ hfits).covered _ (List.mem_singleton.mpr rfl)
    (by simp) (by simp; omega) off hdvd page (min (off + c) objSize) (by simp; omega)
    (by simp; omega) hend
  have heq : fill = neededFill off c page (min (off + c) objSize) := by
    refine listed_closed (Q := fun f => f = neededFill off c page (min (off + c) objSize)) hk hfill
      (fun a b ha hb => ?_) fun m hm f hf => ?_
    · rw [ha, hb]
      exact merge_neededFill_self _ _ _ _
    · rw [mergedSpans_singleton hend (min_le_right _ _)] at hm
      obtain rfl := List.mem_singleton.mp hm
      rw [((mem_chunksOf hc (by omega) off f).mp hf).2.2.2, neededFillWord_eq hnowrap]
  rw [coversWord_eq hnowrap, heq] at hcovers
  exact hcovers

/-- **For which chunk sizes and objects every request is covered**: exactly those where each
    chunk that a range can reach ends below `2^64`, and at a page boundary unless the extents
    anchored to its start are the smaller ones at every page boundary inside it. -/
theorem prefetch_covers_iff {objSize c : ℕ} (hobj : objSize < 2 ^ 64) (hc : 0 < c)
    (hmax : c ≤ maxChunkBytes) :
    (∀ ranges alignment gap, (∀ r ∈ ranges, r.Fits) → 1 ≤ alignment → alignment < 2 ^ 64 →
      gap < 2 ^ 64 → Covered objSize c ranges (chunksWanted objSize c alignment gap ranges)) ↔
    PagesFit objSize c := by
  refine ⟨fun h => ?_, fun hfit ranges alignment gap hranges halign _ _ => ?_⟩
  · exact pagesFit_of_covered hobj hc hmax fun ranges hranges =>
      h ranges 1 0 hranges (by norm_num) (by norm_num) (by norm_num)
  · exact covered_of_pagesFit hobj hc hmax hfit halign hranges

/-- Chunks of whole pages, in an object that leaves room for the last of them. -/
theorem pagesFit_of_dvd (hc : ioBlockSize ∣ c) (hobj : objSize + c ≤ 2 ^ 64) :
    PagesFit objSize c := by
  intro off hdvd hoff
  refine ⟨by omega, .inl ?_⟩
  exact Nat.mod_eq_zero_of_dvd (Dvd.dvd.add (hc.trans hdvd) hc)

theorem prefetch_covers_one_mebibyte :
    Covered (2 ^ 40) (2 ^ 20) [⟨4096, 1⟩] (chunksWanted (2 ^ 40) (2 ^ 20) 1 0 [⟨4096, 1⟩]) := by
  refine (prefetch_covers_iff (by norm_num) (by norm_num) (by decide)).mpr ?_ _ 1 0 ?_ le_rfl
    (by norm_num) (by norm_num)
  · exact pagesFit_of_dvd (by decide) (by norm_num)
  · intro r hr
    obtain rfl := List.mem_singleton.mp hr
    unfold ByteRange.Fits
    norm_num

/-- One byte at 4096, in a chunk of 5000: the extent wanted has no page, and covers nothing. -/
theorem short_chunk_not_covered :
    chunksWanted 5000 5000 1 0 [⟨4096, 1⟩] = ([0], [suffixOf 0]) ∧
      ¬Covered 5000 5000 [⟨4096, 1⟩] (chunksWanted 5000 5000 1 0 [⟨4096, 1⟩]) := by
  have hwanted : chunksWanted 5000 5000 1 0 [⟨4096, 1⟩] = ([0], [suffixOf 0]) := by decide +kernel
  refine ⟨hwanted, fun h => ?_⟩
  obtain ⟨k, fill, hk, hfill, hcovers⟩ := h.covered _ (List.mem_singleton.mpr rfl) (by decide)
    (by decide) 0 (by decide) 4096 4097 (by decide) (by decide) (by decide)
  rw [hwanted] at hk hfill
  cases k with
  | zero =>
    cases hfill
    revert hcovers
    decide
  | succ k => simp at hk

end Sirius.IoCache.PrefetchChunks
