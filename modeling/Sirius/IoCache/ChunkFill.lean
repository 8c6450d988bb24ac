import Mathlib

/-!
# The populated extent of a chunk

Model of `chunk_fill` and the functions over it (`src/io/cache/types.hpp`,
lines 73–81 and 153–264). An extent is anchored to one edge of the chunk and
measured in pages of `io::IO_BLOCK_SIZE` bytes.

Byte offsets and sizes are `size_t` in the source. They are at most a file size
plus one chunk, far below `2^64`, and are modelled in `ℕ`; the cast of the
page count to `uint16_t` in `needed_fill` is kept.

* `covers_mem_fillSpan`: the bytes an extent claims are the bytes a loader
  fills for it.
* `neededFill_covers`: when the extent recorded for a request covers the part of the
  request inside the chunk, as it does in a chunk of whole pages.
* `merge_covers_left`, `merge_covers_right`: folding extents loses no byte.
-/

namespace Sirius.IoCache

/-- `io::IO_BLOCK_SIZE` (`src/io/types.hpp` line 54), the O_DIRECT page size. -/
def ioBlockSize : ℕ := 4096

/-- `align_down(x, a)` (lines 73–76): `x & ~(a - 1)` for a power of two `a`. -/
def alignDown (x a : ℕ) : ℕ := x - x % a

/-- `align_up(x, a)` (lines 78–81): `(x + a - 1) & ~(a - 1)` for a power of two `a`. -/
def alignUp (x a : ℕ) : ℕ := alignDown (x + a - 1) a

/-- `struct chunk_fill` (lines 176–193). -/
structure ChunkFill where
  pages : ℕ := 0
  suffix : Bool := false
  full : Bool := false
  deriving DecidableEq, Repr

namespace ChunkFill

/-- `chunk_fill::unset()`. -/
def unset : ChunkFill := {}

/-- `chunk_fill::whole()`. -/
def whole : ChunkFill := ⟨0, false, true⟩

/-- `chunk_fill::prefix_of(pages)`. -/
def prefixOf (pages : ℕ) : ChunkFill := ⟨pages, false, false⟩

/-- `chunk_fill::suffix_of(pages)`. -/
def suffixOf (pages : ℕ) : ChunkFill := ⟨pages, true, false⟩

/-- `chunk_fill::is_unset()` (line 189). -/
def isUnset (f : ChunkFill) : Bool := !f.full && f.pages == 0

theorem isUnset_iff (f : ChunkFill) : f.isUnset = true ↔ f.full = false ∧ f.pages = 0 := by
  simp [isUnset]

end ChunkFill

open ChunkFill

/-- `merge(cur, want)` (lines 200–207). -/
def merge (cur want : ChunkFill) : ChunkFill :=
  if cur.isUnset then want
  else if want.isUnset then cur
  else if cur.full || want.full then whole
  else if cur.suffix != want.suffix then whole
  else if cur.pages ≥ want.pages then cur else want

/-- The length of a partial extent: `min(pages * IO_BLOCK_SIZE, chunk_bytes)`. -/
def fillBytes (f : ChunkFill) (chunkBytes : ℕ) : ℕ := min (f.pages * ioBlockSize) chunkBytes

/-- `covers(f, chunk_off, chunk_bytes, lo, hi)` (lines 211–218). -/
def covers (f : ChunkFill) (chunkOff chunkBytes lo hi : ℕ) : Bool :=
  if f.full then true
  else if f.isUnset then false
  else if f.suffix then decide (lo ≥ chunkOff + chunkBytes - fillBytes f chunkBytes)
  else decide (hi ≤ chunkOff + fillBytes f chunkBytes)

/-- `fill_span(f, chunk_off, chunk_bytes)` (lines 225–232), a half-open span. -/
def fillSpan (f : ChunkFill) (chunkOff chunkBytes : ℕ) : ℕ × ℕ :=
  if f.full || f.isUnset then (chunkOff, chunkOff + chunkBytes)
  else if f.suffix then
    (chunkOff + chunkBytes - fillBytes f chunkBytes, chunkOff + chunkBytes)
  else (chunkOff, chunkOff + fillBytes f chunkBytes)

/-- `needed_fill(chunk_off, chunk_bytes, req_lo, req_hi)` (lines 245–264). -/
def neededFill (chunkOff chunkBytes reqLo reqHi : ℕ) : ChunkFill :=
  let lo := max reqLo chunkOff
  let hi := min reqHi (chunkOff + chunkBytes)
  if lo ≥ hi then unset
  else if lo ≤ chunkOff ∧ hi ≥ chunkOff + chunkBytes then whole
  else
    let prefixBytes := min (alignUp (hi - chunkOff) ioBlockSize) chunkBytes
    let suffixBytes := min (chunkOff + chunkBytes - alignDown lo ioBlockSize) chunkBytes
    let preferPrefix := prefixBytes ≤ suffixBytes
    let bytes := if preferPrefix then prefixBytes else suffixBytes
    if bytes ≥ chunkBytes then whole
    else
      let pages := bytes / ioBlockSize % 2 ^ 16
      if preferPrefix then prefixOf pages else suffixOf pages

/-! ## Coverage and loading agree -/

variable {f a b : ChunkFill} {off cb lo hi : ℕ}

/-- The bytes of `[lo, hi)` that `covers` promises are inside the span a loader
    fills for the same extent. -/
theorem covers_mem_fillSpan (hc : covers f off cb lo hi = true) (hlo : off ≤ lo)
    (hhi : hi ≤ off + cb) : (fillSpan f off cb).1 ≤ lo ∧ hi ≤ (fillSpan f off cb).2 := by
  unfold covers at hc
  unfold fillSpan
  split_ifs at hc ⊢ <;> simp_all

theorem covers_unset (h : f.isUnset = true) : covers f off cb lo hi = false := by
  have hf := (isUnset_iff f).mp h
  simp [covers, h, hf.1]

theorem covers_whole : covers whole off cb lo hi = true := rfl

theorem covers_prefixOf {p off cb lo hi : ℕ} :
    covers (prefixOf p) off cb lo hi = true ↔ p ≠ 0 ∧ hi ≤ off + min (p * ioBlockSize) cb := by
  by_cases h : p = 0
  · simp [covers, prefixOf, isUnset, h]
  · simp [covers, prefixOf, isUnset, h]
    exact decide_eq_true_iff

theorem covers_suffixOf {p off cb lo hi : ℕ} :
    covers (suffixOf p) off cb lo hi = true ↔
      p ≠ 0 ∧ off + cb - min (p * ioBlockSize) cb ≤ lo := by
  by_cases h : p = 0
  · simp [covers, suffixOf, isUnset, h]
  · simp [covers, suffixOf, isUnset, h, fillBytes]

/-! ## Folding extents -/

theorem merge_isUnset (ha : b.isUnset = false) : (merge a b).isUnset = false := by
  unfold merge
  split_ifs <;> simp_all [whole, isUnset]

theorem fillBytes_mono {f g : ChunkFill} (h : f.pages ≤ g.pages) :
    fillBytes f cb ≤ fillBytes g cb := by
  unfold fillBytes
  exact min_le_min_right _ (Nat.mul_le_mul_right _ h)

/-- A wider extent on the same edge covers at least as much. -/
theorem covers_mono {f g : ChunkFill} (hg : g.full = false)
    (hside : f.suffix = g.suffix) (hp : f.pages ≤ g.pages) (hff : f.full = false)
    (h : covers f off cb lo hi = true) : covers g off cb lo hi = true := by
  have hb : fillBytes f cb ≤ fillBytes g cb := fillBytes_mono hp
  have hfu : f.isUnset = false := by
    by_contra hu
    rw [covers_unset (by simpa using hu)] at h
    cases h
  have hpos : f.pages ≠ 0 := by
    intro h0
    have : f.isUnset = true := (isUnset_iff f).mpr ⟨hff, h0⟩
    simp [this] at hfu
  have hgu : g.isUnset = false := by
    by_contra hu
    have := (isUnset_iff g).mp (by simpa using hu)
    omega
  unfold covers at h ⊢
  simp only [hff, hfu, hg, hgu, hside] at h ⊢
  split_ifs at h ⊢ <;> simp_all <;> omega

theorem merge_covers_left
    (h : covers a off cb lo hi = true) : covers (merge a b) off cb lo hi = true := by
  unfold merge
  split_ifs with h1 h2 h3 h4 h5
  · rw [covers_unset h1] at h; cases h
  · exact h
  · exact covers_whole
  · exact covers_whole
  · exact h
  · simp only [Bool.or_eq_true, not_or, Bool.not_eq_true] at h3
    exact covers_mono h3.2 (by simpa using h4) (by omega) h3.1 h

theorem merge_covers_right
    (h : covers b off cb lo hi = true) : covers (merge a b) off cb lo hi = true := by
  unfold merge
  split_ifs with h1 h2 h3 h4 h5
  · exact h
  · rw [covers_unset h2] at h; cases h
  · exact covers_whole
  · exact covers_whole
  · simp only [Bool.or_eq_true, not_or, Bool.not_eq_true] at h3
    exact covers_mono h3.1 (show b.suffix = a.suffix from (by simpa using h4 : a.suffix = b.suffix).symm)
      h5 h3.2 h
  · exact h

/-! ## The extent of a request -/

/-- `chunk_state::max_fill_pages()` (line 329). -/
def maxFillPages : ℕ := 2 ^ 14 - 1

/-- `chunk_state::max_chunk_bytes()` (lines 334–337). -/
def maxChunkBytes : ℕ := (maxFillPages + 1) * ioBlockSize

/-- An extent the packed word can hold: at most `max_fill_pages` pages. -/
def Encodable (f : ChunkFill) : Prop := f.pages < 2 ^ 14

theorem encodable_unset : Encodable unset := by unfold Encodable unset; norm_num

theorem encodable_merge (ha : Encodable a) (hb : Encodable b) : Encodable (merge a b) := by
  unfold Encodable merge at *
  split_ifs <;> simp_all [whole]

theorem neededFill_encodable (hcb : cb ≤ maxChunkBytes) : Encodable (neededFill off cb lo hi) := by
  have hmax : cb ≤ 2 ^ 14 * 4096 := hcb
  unfold neededFill Encodable
  dsimp only
  split_ifs with h1 h2 h3 h4 h5
  · norm_num [unset]
  · norm_num [whole]
  · norm_num [whole]
  · simp only [prefixOf, ioBlockSize] at *
    exact lt_of_le_of_lt (Nat.mod_le _ _) (by omega)
  · norm_num [whole]
  · simp only [suffixOf, ioBlockSize] at *
    exact lt_of_le_of_lt (Nat.mod_le _ _) (by omega)

theorem le_alignUp (x : ℕ) : x ≤ alignUp x ioBlockSize := by
  simp only [alignUp, alignDown, ioBlockSize]
  omega

theorem alignUp_mod (x : ℕ) : alignUp x ioBlockSize % ioBlockSize = 0 := by
  simp only [alignUp, alignDown, ioBlockSize]
  omega

theorem alignUp_mono {x y : ℕ} (h : x ≤ y) : alignUp x ioBlockSize ≤ alignUp y ioBlockSize := by
  simp only [alignUp, alignDown, ioBlockSize]
  omega

theorem alignDown_mod (x : ℕ) : alignDown x ioBlockSize % ioBlockSize = 0 := by
  simp only [alignDown, ioBlockSize]
  omega

/-- The page count of whole pages that are less than the largest chunk. -/
theorem pages_mul {bytes : ℕ} (hmod : bytes % ioBlockSize = 0) (hlt : bytes < maxChunkBytes) :
    bytes / ioBlockSize % 2 ^ 16 * ioBlockSize = bytes := by
  simp only [ioBlockSize, maxChunkBytes, maxFillPages] at *
  omega

/-- **The extent of a request covers it**, in a chunk that ends at a page boundary or where the
    extent anchored to the start is the smaller one. -/
theorem neededFill_covers {reqLo reqHi : ℕ} (hmax : cb ≤ maxChunkBytes)
    (hfits : (off + cb) % ioBlockSize = 0 ∨
      min (alignUp (min reqHi (off + cb) - off) ioBlockSize) cb ≤
        min (off + cb - alignDown (max reqLo off) ioBlockSize) cb)
    (hlo : max reqLo off ≤ lo) (hhi : hi ≤ min reqHi (off + cb)) (hlt : lo < hi) :
    covers (neededFill off cb reqLo reqHi) off cb lo hi = true := by
  have hup := le_alignUp (min reqHi (off + cb) - off)
  have hdown : alignDown (max reqLo off) ioBlockSize ≤ max reqLo off := Nat.sub_le ..
  unfold neededFill
  dsimp only
  rw [if_neg (by omega)]
  split_ifs with hwhole hprefix hbytes hbytes
  · exact covers_whole
  · exact covers_whole
  · have hsmall := (min_lt_iff.mp (not_le.mp hbytes)).resolve_right (lt_irrefl cb)
    have hpages := pages_mul (alignUp_mod _) (hsmall.trans_le hmax)
    rw [covers_prefixOf, Nat.min_eq_left hsmall.le, hpages, Nat.min_eq_left hsmall.le]
    refine ⟨fun hzero => ?_, by omega⟩
    rw [hzero] at hpages
    omega
  · exact covers_whole
  · have hsmall := (min_lt_iff.mp (not_le.mp hbytes)).resolve_right (lt_irrefl cb)
    have hmod : (off + cb - alignDown (max reqLo off) ioBlockSize) % ioBlockSize = 0 := by
      have hpage := hfits.resolve_right hprefix
      have := alignDown_mod (max reqLo off)
      unfold ioBlockSize at *
      omega
    have hpages := pages_mul hmod (hsmall.trans_le hmax)
    rw [covers_suffixOf, Nat.min_eq_left hsmall.le, hpages, Nat.min_eq_left hsmall.le]
    refine ⟨fun hzero => ?_, by omega⟩
    rw [hzero] at hpages
    omega

end Sirius.IoCache
