import Sirius.Common.CasLoop
import Sirius.Common.PackedWord
import Sirius.IoCache.ChunkFill

/-!
# `chunk_state`: the per-chunk word

Model of `chunk_state` (`src/io/cache/types.hpp`, lines 266–637). State, reader
pins, populated extent and subscriber count share one 64-bit word:

    bits [ 3: 0] state   bits [15: 4] pins   bits [29:16] fill_pages
    bit  [30] fill_side  bit  [31] fill_full  bits [47:32] subscribers

Every operation is a compare-and-swap loop, given here by what one pass of the
loop does with the word it last read (`CasLoop.Attempt`). `attempt` collects
them by operation.

`View` is the word taken apart, and `View.attempt` the operations on it.
`attempt_pack` says that the operations on words and on views are the same, as
long as `release_read` finds a pin.
-/

namespace Sirius.IoCache

open Sirius.Common Sirius.Common.CasLoop ChunkFill

/-- The `std::atomic<std::uint64_t>` of `chunk_state`. -/
abbrev Word := BitVec 64

namespace ChunkState

/-- `chunk_state::value` (lines 315–323). -/
inductive Value where
  | empty | queued | allocated | loading | cached | inUse | evicting
  deriving DecidableEq, Repr

/-- The numeric value of the enumerator. -/
def Value.code : Value → ℕ
  | .empty => 0
  | .queued => 1
  | .allocated => 2
  | .loading => 3
  | .cached => 4
  | .inUse => 5
  | .evicting => 6

/-- `static_cast<std::uint64_t>(v)`. -/
def Value.word (v : Value) : Word := BitVec.ofNat 64 v.code

/-- `MAX_PINS` (line 325). -/
def maxPins : ℕ := 2 ^ 12 - 1

/-- `MAX_SUBSCRIBERS` (line 326). -/
def maxSubscribers : ℕ := 2 ^ 16 - 1

/-! ## Field masks (lines 577–586) -/

def stateMask : Word := 0xF#64
def pinShift : ℕ := 4
def pinMask : Word := 0xFFF#64 <<< pinShift
def pageShift : ℕ := 16
def pageMask : Word := 0x3FFF#64 <<< pageShift
def sideBit : Word := 1#64 <<< 30
def fullBit : Word := 1#64 <<< 31
def fillMask : Word := pageMask ||| sideBit ||| fullBit
def subShift : ℕ := 32
def subMask : Word := 0xFFFF#64 <<< subShift

/-- `encode(f)` (lines 588–592). -/
def encode (f : ChunkFill) : Word :=
  (BitVec.ofNat 64 f.pages <<< pageShift) ||| (if f.suffix then sideBit else 0) |||
    (if f.full then fullBit else 0)

/-- `decode(w)` (lines 594–599). -/
def decode (w : Word) : ChunkFill :=
  ⟨((w &&& pageMask) >>> pageShift).toNat, decide (w &&& sideBit ≠ 0), decide (w &&& fullBit ≠ 0)⟩

/-- What `decode` reads back after `encode f`. The `uint16_t` page count is two
    bits wider than its field, and its top bits land in the side and full bits. -/
def stored (f : ChunkFill) : ChunkFill :=
  ⟨f.pages % 2 ^ 14, f.suffix || f.pages.testBit 14, f.full || f.pages.testBit 15⟩

/-- `snapshot::pins()` (lines 354–357). -/
def pinCount (w : Word) : ℕ := ((w &&& pinMask) >>> pinShift).toNat

/-- `snapshot::subscribers()` (lines 358–361). -/
def subscriberCount (w : Word) : ℕ := ((w &&& subMask) >>> subShift).toNat

/-- `snapshot::state() == v` (lines 350–353). -/
def hasState (w : Word) (v : Value) : Bool := w &&& stateMask == v.word

/-- `readable(w)` (lines 601–605). -/
def readable (w : Word) : Bool := hasState w .cached || hasState w .inUse

/-! ## Operations -/

/-- What an operation returns: its `bool` (`true` for the `void` ones) and the
    extent it writes to its out-parameter. -/
structure Ret where
  ok : Bool
  out : Option ChunkFill := none
  deriving DecidableEq, Repr

/-- `transition(from, to, clear)` (lines 623–633). -/
def transition (src dst : Value) (clear : Word) (cur : Word) : Attempt Word Ret :=
  if cur &&& (stateMask ||| pinMask) ≠ src.word then .done { ok := false }
  else .swap ((cur &&& ~~~(stateMask ||| clear)) ||| dst.word) { ok := true }

def markQueued : Word → Attempt Word Ret := transition .empty .queued 0
def markAllocated : Word → Attempt Word Ret := transition .queued .allocated 0
def markCached : Word → Attempt Word Ret := transition .loading .cached 0
def markLoadFailed : Word → Attempt Word Ret := transition .loading .allocated 0

/-- `mark_empty()` (line 541): also clears the extent. -/
def markEmpty : Word → Attempt Word Ret := transition .evicting .empty fillMask

/-- `take_loading(out)` (lines 406–420). -/
def takeLoading (cur : Word) : Attempt Word Ret :=
  if cur &&& (stateMask ||| pinMask) ≠ Value.allocated.word then .done { ok := false }
  else .swap ((cur &&& ~~~stateMask) ||| Value.loading.word) { ok := true, out := some (decode cur) }

/-- `take_loading_merging(want, out)` (lines 426–442). -/
def takeLoadingMerging (want : ChunkFill) (cur : Word) : Attempt Word Ret :=
  if cur &&& (stateMask ||| pinMask) ≠ Value.allocated.word then .done { ok := false }
  else
    let merged := merge (decode cur) want
    .swap ((cur &&& ~~~(stateMask ||| fillMask)) ||| Value.loading.word ||| encode merged)
      { ok := true, out := some merged }

/-- `merge_fill(want)` (lines 451–469). -/
def mergeFill (want : ChunkFill) (cur : Word) : Attempt Word Ret :=
  if want.isUnset then .done { ok := false }
  else if hasState cur .empty || hasState cur .queued || hasState cur .allocated then
    let next := (cur &&& ~~~fillMask) ||| encode (merge (decode cur) want)
    if next = cur then .done { ok := true } else .swap next { ok := true }
  else .done { ok := false }

/-- `pin_once(cur)` (lines 610–618) as its callers use it: they return `true`
    when it reports no retry, which is after a successful exchange and also
    when the pin count is saturated. -/
def pinOnce (cur : Word) : Attempt Word Ret :=
  let pins := (cur &&& pinMask) >>> pinShift
  if pins.toNat ≥ maxPins then .done { ok := true }
  else
    .swap ((cur &&& ~~~(stateMask ||| pinMask)) ||| Value.inUse.word ||| ((pins + 1) <<< pinShift))
      { ok := true }

/-- `acquire_read()` (lines 472–479). -/
def acquireRead (cur : Word) : Attempt Word Ret :=
  if !readable cur then .done { ok := false } else pinOnce cur

/-- `try_pin_covering(chunk_off, chunk_bytes, lo, hi)` (lines 485–497). -/
def tryPinCovering (chunkOff chunkBytes lo hi : ℕ) (cur : Word) : Attempt Word Ret :=
  if !readable cur then .done { ok := false }
  else if !covers (decode cur) chunkOff chunkBytes lo hi then .done { ok := false }
  else pinOnce cur

/-- `release_read()` (lines 500–515): `pins - 1` wraps when there is no pin. -/
def releaseRead (cur : Word) : Attempt Word Ret :=
  let pins := (cur &&& pinMask) >>> pinShift
  let left := pins - 1
  .swap ((cur &&& ~~~(stateMask ||| pinMask)) |||
      (if left = 0 then Value.cached else Value.inUse).word ||| (left <<< pinShift))
    { ok := decide (left = 0) }

/-- `mark_evicting(only_unsubscribed)` (lines 521–535). -/
def markEvicting (onlyUnsubscribed : Bool) (cur : Word) : Attempt Word Ret :=
  if !hasState cur .allocated && !hasState cur .cached then .done { ok := false }
  else if cur &&& pinMask ≠ 0 then .done { ok := false }
  else if onlyUnsubscribed && decide (cur &&& subMask ≠ 0) then .done { ok := false }
  else .swap ((cur &&& ~~~stateMask) ||| Value.evicting.word) { ok := true }

/-- `add_subscriber()` (lines 545–557): saturates. -/
def addSubscriber (cur : Word) : Attempt Word Ret :=
  let n := (cur &&& subMask) >>> subShift
  if n.toNat ≥ maxSubscribers then .done { ok := true }
  else .swap ((cur &&& ~~~subMask) ||| ((n + 1) <<< subShift)) { ok := true }

/-- `drop_subscriber()` (lines 562–574): clamps at zero. -/
def dropSubscriber (cur : Word) : Attempt Word Ret :=
  let n := (cur &&& subMask) >>> subShift
  if n = 0 then .done { ok := true }
  else .swap ((cur &&& ~~~subMask) ||| ((n - 1) <<< subShift)) { ok := true }

/-- The operations of `chunk_state`. -/
inductive Op where
  | markQueued
  | markAllocated
  | markCached
  | markLoadFailed
  | markEmpty
  | takeLoading
  | takeLoadingMerging (want : ChunkFill)
  | mergeFill (want : ChunkFill)
  | acquireRead
  | tryPinCovering (chunkOff chunkBytes lo hi : ℕ)
  | releaseRead
  | markEvicting (onlyUnsubscribed : Bool)
  | addSubscriber
  | dropSubscriber
  deriving DecidableEq, Repr

/-- One pass of the loop of an operation. -/
def attempt : Op → Word → Attempt Word Ret
  | .markQueued => markQueued
  | .markAllocated => markAllocated
  | .markCached => markCached
  | .markLoadFailed => markLoadFailed
  | .markEmpty => markEmpty
  | .takeLoading => takeLoading
  | .takeLoadingMerging want => takeLoadingMerging want
  | .mergeFill want => mergeFill want
  | .acquireRead => acquireRead
  | .tryPinCovering off cb lo hi => tryPinCovering off cb lo hi
  | .releaseRead => releaseRead
  | .markEvicting only => markEvicting only
  | .addSubscriber => addSubscriber
  | .dropSubscriber => dropSubscriber

/-! ## The word taken apart -/

/-- The fields of the word. -/
structure View where
  state : Value := .empty
  pins : ℕ := 0
  fill : ChunkFill := {}
  subscribers : ℕ := 0
  deriving DecidableEq, Repr

/-- Every field fits its bits. -/
structure View.Wf (v : View) : Prop where
  pins_lt : v.pins < 2 ^ 12
  fill_lt : Encodable v.fill
  subs_lt : v.subscribers < 2 ^ 16

/-- The word as a number. -/
def View.num (v : View) : ℕ :=
  v.state.code + v.pins * 2 ^ 4 + v.fill.pages * 2 ^ 16 + v.fill.suffix.toNat * 2 ^ 30 +
    v.fill.full.toNat * 2 ^ 31 + v.subscribers * 2 ^ 32

/-- The word with these fields and the spare bits clear. -/
def pack (v : View) : Word := BitVec.ofNat 64 v.num

theorem num_lt {v : View} (hv : v.Wf) : v.num < 2 ^ 48 := by
  have h1 := hv.pins_lt
  have h2 : v.fill.pages < 2 ^ 14 := hv.fill_lt
  have h3 := hv.subs_lt
  have h4 := Bool.toNat_le v.fill.suffix
  have h5 := Bool.toNat_le v.fill.full
  have h6 : v.state.code ≤ 6 := by cases v.state <;> decide
  unfold View.num
  omega

theorem toNat_pack {v : View} (hv : v.Wf) : (pack v).toNat = v.num := by
  unfold pack
  rw [BitVec.toNat_ofNat, Nat.mod_eq_of_lt (by have := num_lt hv; omega)]

@[simp] theorem toNat_word (s : Value) : s.word.toNat = s.code := by cases s <;> rfl

theorem word_inj {s t : Value} : s.word = t.word ↔ s = t := by
  cases s <;> cases t <;> decide

/-- The bounds `omega` needs about the fields of a view. -/
theorem View.Wf.bounds {v : View} (hv : v.Wf) :
    v.state.code ≤ 6 ∧ v.pins < 4096 ∧ v.fill.pages < 16384 ∧ v.fill.suffix.toNat ≤ 1 ∧
      v.fill.full.toNat ≤ 1 ∧ v.subscribers < 65536 := by
  refine ⟨by cases v.state <;> decide, hv.pins_lt, hv.fill_lt, Bool.toNat_le _, Bool.toNat_le _,
    hv.subs_lt⟩

/-! ### Reading the fields of a packed view -/

open PackedWord

theorem stateMask_eq : stateMask = mask 64 0 4 := by decide
theorem pinMask_eq : pinMask = mask 64 4 12 := by decide
theorem statePinMask_eq : stateMask ||| pinMask = mask 64 0 16 := by decide
theorem pageMask_eq : pageMask = mask 64 16 14 := by decide
theorem sideBit_eq : sideBit = mask 64 30 1 := by decide
theorem fullBit_eq : fullBit = mask 64 31 1 := by decide
theorem fillMask_eq : fillMask = mask 64 16 16 := by decide
theorem subMask_eq : subMask = mask 64 32 16 := by decide

/-! ### Writing an extent -/

theorem getLsbD_sideBit (i : ℕ) : sideBit.getLsbD i = decide (i = 30) := by
  rw [sideBit_eq, getLsbD_mask]
  by_cases h : i = 30 <;> simp [h]; omega

theorem getLsbD_fullBit (i : ℕ) : fullBit.getLsbD i = decide (i = 31) := by
  rw [fullBit_eq, getLsbD_mask]
  by_cases h : i = 31 <;> simp [h]; omega

theorem getLsbD_encode (f : ChunkFill) (i : ℕ) : (encode f).getLsbD i =
    ((decide (16 ≤ i) && decide (i < 64) && f.pages.testBit (i - 16)) || (f.suffix && decide (i = 30)) ||
      (f.full && decide (i = 31))) := by
  obtain ⟨p, suf, full⟩ := f
  have hp : (BitVec.ofNat 64 p <<< pageShift).getLsbD i =
      (decide (16 ≤ i) && decide (i < 64) && p.testBit (i - 16)) := by
    simp only [BitVec.getLsbD_shiftLeft, BitVec.getLsbD_ofNat, pageShift]
    by_cases h1 : i < 64 <;> by_cases h2 : 16 ≤ i
    · simp [h1, h2, show i - 16 < 64 by omega, show ¬i < 16 by omega]
    · simp [h1, h2, show i < 16 by omega]
    · simp [h1]
    · simp [h1]
  unfold encode
  rw [BitVec.getLsbD_or, BitVec.getLsbD_or, hp]
  cases suf <;> cases full <;> simp [getLsbD_sideBit, getLsbD_fullBit]

theorem encode_stored {f : ChunkFill} (hf : f.pages < 2 ^ 16) : encode (stored f) = encode f := by
  apply BitVec.eq_of_getLsbD_eq
  intro i hi
  rw [getLsbD_encode, getLsbD_encode]
  simp only [stored, Nat.testBit_mod_two_pow]
  by_cases h16 : 16 ≤ i
  · obtain ⟨j, rfl⟩ := Nat.exists_eq_add_of_le h16
    rw [Nat.add_sub_cancel_left]
    by_cases h14 : j < 14
    · simp [h14, show 16 + j ≠ 30 by omega, show 16 + j ≠ 31 by omega, hi]
    by_cases h15 : j = 14
    · subst h15; simp [Bool.or_comm]
    by_cases h15 : j = 15
    · subst h15; simp [Bool.or_comm]
    have : f.pages.testBit j = false :=
      Nat.testBit_eq_false_of_lt (lt_of_lt_of_le hf (Nat.pow_le_pow_right (by norm_num) (by omega)))
    simp [h14, this, show 16 + j ≠ 30 by omega, show 16 + j ≠ 31 by omega]
  · simp [h16, show i ≠ 30 by omega, show i ≠ 31 by omega]
theorem encodable_stored (f : ChunkFill) : Encodable (stored f) :=
  Nat.mod_lt _ (by norm_num)

theorem stored_of_encodable {f : ChunkFill} (hf : Encodable f) : stored f = f := by
  have h14 : f.pages.testBit 14 = false := Nat.testBit_eq_false_of_lt hf
  have h15 : f.pages.testBit 15 = false :=
    Nat.testBit_eq_false_of_lt (lt_of_lt_of_le hf (by norm_num))
  simp [stored, h14, h15, Nat.mod_eq_of_lt (show f.pages < 16384 from hf)]

theorem merge_pages_lt {a b : ChunkFill} {n : ℕ} (ha : a.pages < n) (hb : b.pages < n) :
    (merge a b).pages < n := by
  unfold merge
  split_ifs <;> simp_all [whole] <;> omega

section Read

variable {v : View} (hv : v.Wf)
include hv

theorem pack_and_stateMask : pack v &&& stateMask = v.state.word := by
  apply BitVec.eq_of_toNat_eq
  rw [stateMask_eq, toNat_and_mask _ (by norm_num), toNat_pack hv, toNat_word]
  have := hv.bounds
  unfold View.num
  omega

theorem pack_and_statePinMask (s : Value) :
    pack v &&& (stateMask ||| pinMask) = s.word ↔ v.state = s ∧ v.pins = 0 := by
  rw [BitVec.toNat_eq, statePinMask_eq, toNat_and_mask _ (by norm_num), toNat_pack hv, toNat_word]
  have hb := hv.bounds
  have hs : s.code ≤ 6 := by cases s <;> decide
  have hinj : v.state.code = s.code ↔ v.state = s := by
    cases v.state <;> cases s <;> decide
  unfold View.num
  constructor
  · intro h
    exact ⟨hinj.mp (by omega), by omega⟩
  · rintro ⟨h1, h2⟩
    have := hinj.mpr h1
    omega

theorem hasState_pack (s : Value) : hasState (pack v) s = decide (v.state = s) := by
  unfold hasState
  rw [pack_and_stateMask hv]
  by_cases h : v.state = s
  · simp [h]
  · have : v.state.word ≠ s.word := fun e => h (word_inj.mp e)
    simp [h, this]

theorem readable_pack :
    readable (pack v) = (decide (v.state = .cached) || decide (v.state = .inUse)) := by
  unfold readable
  rw [hasState_pack hv, hasState_pack hv]

theorem pinCount_pack : pinCount (pack v) = v.pins := by
  unfold pinCount
  rw [pinMask_eq, show pinShift = 4 from rfl, toNat_field _ (by norm_num), toNat_pack hv]
  have := hv.bounds
  unfold View.num
  omega

theorem pinField_pack : (pack v &&& pinMask) >>> pinShift = BitVec.ofNat 64 v.pins := by
  apply BitVec.eq_of_toNat_eq
  have := hv.bounds
  rw [BitVec.toNat_ofNat, Nat.mod_eq_of_lt (by omega)]
  exact pinCount_pack hv

theorem pack_and_pinMask : pack v &&& pinMask = 0 ↔ v.pins = 0 := by
  rw [BitVec.toNat_eq, pinMask_eq, toNat_and_mask _ (by norm_num), toNat_pack hv]
  have := hv.bounds
  unfold View.num
  simp only [BitVec.ofNat_eq_ofNat, BitVec.toNat_ofNat, Nat.zero_mod]
  omega

theorem subscriberCount_pack : subscriberCount (pack v) = v.subscribers := by
  unfold subscriberCount
  rw [subMask_eq, show subShift = 32 from rfl, toNat_field _ (by norm_num), toNat_pack hv]
  have := hv.bounds
  unfold View.num
  omega

theorem subField_pack : (pack v &&& subMask) >>> subShift = BitVec.ofNat 64 v.subscribers := by
  apply BitVec.eq_of_toNat_eq
  have := hv.bounds
  rw [BitVec.toNat_ofNat, Nat.mod_eq_of_lt (by omega)]
  exact subscriberCount_pack hv

theorem pack_and_subMask : pack v &&& subMask = 0 ↔ v.subscribers = 0 := by
  rw [BitVec.toNat_eq, subMask_eq, toNat_and_mask _ (by norm_num), toNat_pack hv]
  have := hv.bounds
  unfold View.num
  simp only [BitVec.ofNat_eq_ofNat, BitVec.toNat_ofNat, Nat.zero_mod]
  omega

theorem decode_pack : decode (pack v) = v.fill := by
  have hb := hv.bounds
  have hpages : ((pack v &&& pageMask) >>> pageShift).toNat = v.fill.pages := by
    rw [pageMask_eq, show pageShift = 16 from rfl, toNat_field _ (by norm_num), toNat_pack hv]
    unfold View.num
    omega
  have hside : decide (pack v &&& sideBit ≠ 0) = v.fill.suffix := by
    have : (pack v &&& sideBit).toNat = v.fill.suffix.toNat * 2 ^ 30 := by
      rw [sideBit_eq, toNat_and_mask _ (by norm_num), toNat_pack hv]
      unfold View.num
      omega
    cases hs : v.fill.suffix <;> simp [BitVec.toNat_eq, this, hs]
  have hfull : decide (pack v &&& fullBit ≠ 0) = v.fill.full := by
    have : (pack v &&& fullBit).toNat = v.fill.full.toNat * 2 ^ 31 := by
      rw [fullBit_eq, toNat_and_mask _ (by norm_num), toNat_pack hv]
      unfold View.num
      omega
    cases hs : v.fill.full <;> simp [BitVec.toNat_eq, this, hs]
  unfold decode
  rw [hpages, hside, hfull]

/-! ### Writing the fields of a packed view -/

theorem pack_setState (s : Value) :
    (pack v &&& ~~~stateMask) ||| s.word = pack { v with state := s } := by
  have hb := hv.bounds
  have hs : s.code ≤ 6 := by cases s <;> decide
  have hv' : View.Wf { v with state := s } := ⟨hv.pins_lt, hv.fill_lt, hv.subs_lt⟩
  apply BitVec.eq_of_toNat_eq
  rw [stateMask_eq, toNat_replace_field _ (by norm_num) (by rw [toNat_word]; omega), toNat_pack hv,
    toNat_pack hv', toNat_word]
  simp only [View.num]
  omega

theorem pack_setStatePins (s : Value) {n : ℕ} (hn : n < 2 ^ 12) :
    (pack v &&& ~~~(stateMask ||| pinMask)) ||| s.word ||| (BitVec.ofNat 64 n <<< pinShift) =
      pack { v with state := s, pins := n } := by
  have hb := hv.bounds
  have hs : s.code ≤ 6 := by cases s <;> decide
  have hv' : View.Wf { v with state := s, pins := n } := ⟨hn, hv.fill_lt, hv.subs_lt⟩
  have hsh : (BitVec.ofNat 64 n <<< pinShift).toNat = n * 2 ^ 4 :=
    toNat_shiftLeft hn (by norm_num [pinShift])
  have hor : (s.word ||| (BitVec.ofNat 64 n <<< pinShift)).toNat = s.code + n * 2 ^ 4 := by
    rw [toNat_or_of_lt (k := 4) (by rw [toNat_word]; omega) ⟨n, by rw [hsh]; ring⟩, toNat_word, hsh]
  apply BitVec.eq_of_toNat_eq
  rw [BitVec.or_assoc, statePinMask_eq, toNat_replace_field _ (by norm_num) (by rw [hor]; omega),
    toNat_pack hv, toNat_pack hv', hor]
  simp only [View.num]
  omega

theorem pack_setSubscribers {n : ℕ} (hn : n < 2 ^ 16) :
    (pack v &&& ~~~subMask) ||| (BitVec.ofNat 64 n <<< subShift) =
      pack { v with subscribers := n } := by
  have hb := hv.bounds
  have hv' : View.Wf { v with subscribers := n } := ⟨hv.pins_lt, hv.fill_lt, hn⟩
  have hsh : (BitVec.ofNat 64 n <<< subShift).toNat = n * 2 ^ 32 :=
    toNat_shiftLeft hn (by norm_num [subShift])
  apply BitVec.eq_of_toNat_eq
  rw [subMask_eq, toNat_replace_field _ (by norm_num) (by rw [hsh]; omega), toNat_pack hv,
    toNat_pack hv', hsh]
  simp only [View.num]
  omega

omit hv in
theorem toNat_encode {f : ChunkFill} (hf : Encodable f) :
    (encode f).toNat = f.pages * 2 ^ 16 + f.suffix.toNat * 2 ^ 30 + f.full.toNat * 2 ^ 31 := by
  have hp : f.pages < 2 ^ 14 := hf
  have hsh : (BitVec.ofNat 64 f.pages <<< pageShift).toNat = f.pages * 2 ^ 16 :=
    toNat_shiftLeft hp (by norm_num [pageShift])
  have hside : (if f.suffix then sideBit else 0).toNat = f.suffix.toNat * 2 ^ 30 := by
    cases f.suffix <;> decide
  have hfull : (if f.full then fullBit else 0).toNat = f.full.toNat * 2 ^ 31 := by
    cases f.full <;> decide
  have hlow : (BitVec.ofNat 64 f.pages <<< pageShift ||| (if f.suffix then sideBit else 0)).toNat =
      f.pages * 2 ^ 16 + f.suffix.toNat * 2 ^ 30 := by
    rw [toNat_or_of_lt (k := 30) (by rw [hsh]; omega) ⟨f.suffix.toNat, by rw [hside]; ring⟩, hsh,
      hside]
  have := Bool.toNat_le f.suffix
  unfold encode
  rw [toNat_or_of_lt (k := 31) (by rw [hlow]; omega) ⟨f.full.toNat, by rw [hfull]; ring⟩, hlow, hfull]

theorem pack_setFill {f : ChunkFill} (hf : Encodable f) :
    (pack v &&& ~~~fillMask) ||| encode f = pack { v with fill := f } := by
  have hb := hv.bounds
  have hv' : View.Wf { v with fill := f } := ⟨hv.pins_lt, hf, hv.subs_lt⟩
  have hb' := hv'.bounds
  apply BitVec.eq_of_toNat_eq
  rw [fillMask_eq, toNat_replace_field _ (by norm_num) (by rw [toNat_encode hf]; simp only at hb'; omega),
    toNat_pack hv, toNat_pack hv', toNat_encode hf]
  simp only [View.num] at *
  omega

theorem pack_setStateFill (s : Value) {f : ChunkFill} (hf : Encodable f) :
    (pack v &&& ~~~(stateMask ||| fillMask)) ||| s.word ||| encode f =
      pack { v with state := s, fill := f } := by
  have hv' : View.Wf { v with state := s } := ⟨hv.pins_lt, hv.fill_lt, hv.subs_lt⟩
  rw [and_not_or_or _ _ _ _ (by cases s <;> decide), pack_setState hv, pack_setFill hv' hf]

end Read

theorem pack_inj {v v' : View} (hv : v.Wf) (hv' : v'.Wf) (h : pack v = pack v') : v = v' := by
  have h1 : v.state = v'.state :=
    word_inj.mp (by rw [← pack_and_stateMask hv, ← pack_and_stateMask hv', h])
  have h2 : v.pins = v'.pins := by rw [← pinCount_pack hv, ← pinCount_pack hv', h]
  have h3 : v.fill = v'.fill := by rw [← decode_pack hv, ← decode_pack hv', h]
  have h4 : v.subscribers = v'.subscribers := by
    rw [← subscriberCount_pack hv, ← subscriberCount_pack hv', h]
  cases v; cases v'
  simp_all

/-! ## The operations on views -/

namespace View

/-- `transition` on a view. -/
def transition (src dst : Value) (v : View) : Attempt View Ret :=
  if v.state = src ∧ v.pins = 0 then .swap { v with state := dst } { ok := true }
  else .done { ok := false }

/-- `pin_once` on a view. -/
def pinOnce (v : View) : Attempt View Ret :=
  if v.pins ≥ maxPins then .done { ok := true }
  else .swap { v with state := .inUse, pins := v.pins + 1 } { ok := true }

/-- `(cached | in_use)`. -/
def Readable (v : View) : Prop := v.state = .cached ∨ v.state = .inUse

instance (v : View) : Decidable v.Readable := inferInstanceAs (Decidable (_ ∨ _))

/-- One pass of the loop of an operation, on the fields. -/
def attempt (op : Op) (v : View) : Attempt View Ret :=
  match op with
  | .markQueued => v.transition .empty .queued
  | .markAllocated => v.transition .queued .allocated
  | .markCached => v.transition .loading .cached
  | .markLoadFailed => v.transition .loading .allocated
  | .markEmpty =>
    if v.state = .evicting ∧ v.pins = 0 then
      .swap { v with state := .empty, fill := unset } { ok := true }
    else .done { ok := false }
  | .takeLoading =>
    if v.state = .allocated ∧ v.pins = 0 then
      .swap { v with state := .loading } { ok := true, out := some v.fill }
    else .done { ok := false }
  | .takeLoadingMerging want =>
    if v.state = .allocated ∧ v.pins = 0 then
      .swap { v with state := .loading, fill := stored (merge v.fill want) }
        { ok := true, out := some (merge v.fill want) }
    else .done { ok := false }
  | .mergeFill want =>
    if want.isUnset then .done { ok := false }
    else if v.state = .empty ∨ v.state = .queued ∨ v.state = .allocated then
      if stored (merge v.fill want) = v.fill then .done { ok := true }
      else .swap { v with fill := stored (merge v.fill want) } { ok := true }
    else .done { ok := false }
  | .acquireRead => if v.Readable then v.pinOnce else .done { ok := false }
  | .tryPinCovering off cb lo hi =>
    if v.Readable ∧ covers v.fill off cb lo hi = true then v.pinOnce else .done { ok := false }
  | .releaseRead =>
    .swap { v with state := if v.pins - 1 = 0 then .cached else .inUse, pins := v.pins - 1 }
      { ok := decide (v.pins - 1 = 0) }
  | .markEvicting only =>
    if (v.state = .allocated ∨ v.state = .cached) ∧ v.pins = 0 ∧ (only = true → v.subscribers = 0)
    then .swap { v with state := .evicting } { ok := true }
    else .done { ok := false }
  | .addSubscriber =>
    if v.subscribers ≥ maxSubscribers then .done { ok := true }
    else .swap { v with subscribers := v.subscribers + 1 } { ok := true }
  | .dropSubscriber =>
    if v.subscribers = 0 then .done { ok := true }
    else .swap { v with subscribers := v.subscribers - 1 } { ok := true }

end View

/-- Where the operations on words and on views agree: the page count of an
    extent passed in is a `uint16_t`, and `release_read` finds a pin (its
    `assert`). -/
def Fits (op : Op) (v : View) : Prop :=
  match op with
  | .takeLoadingMerging want | .mergeFill want => want.pages < 2 ^ 16
  | .releaseRead => 0 < v.pins
  | _ => True

section Refinement

variable {v : View} (hv : v.Wf)
include hv

theorem transition_pack (src dst : Value) :
    transition src dst 0 (pack v) = (v.transition src dst).map pack := by
  have h0 : stateMask ||| (0 : Word) = stateMask := by decide
  unfold transition View.transition
  rw [h0, pack_setState hv]
  by_cases h : v.state = src ∧ v.pins = 0
  · rw [if_neg (by rw [not_not]; exact (pack_and_statePinMask hv src).mpr h), if_pos h]
    rfl
  · rw [if_pos (by rwa [ne_eq, pack_and_statePinMask hv]), if_neg h]
    rfl

theorem readable_pack' : readable (pack v) = decide v.Readable := by
  rw [readable_pack hv]
  exact (Bool.decide_or _ _).symm

theorem pinOnce_pack : pinOnce (pack v) = v.pinOnce.map pack := by
  have hb := hv.bounds
  unfold pinOnce View.pinOnce
  simp only [pinField_pack hv, BitVec.toNat_ofNat]
  rw [Nat.mod_eq_of_lt (by omega)]
  by_cases h : v.pins ≥ maxPins
  · rw [if_pos h, if_pos h]
    rfl
  · rw [if_neg h, if_neg h]
    unfold maxPins at h
    rw [ofNat_add_one, pack_setStatePins hv .inUse (by omega)]
    rfl

theorem releaseRead_pack (hp : 0 < v.pins) :
    releaseRead (pack v) = (View.attempt .releaseRead v).map pack := by
  have hb := hv.bounds
  have hzero : BitVec.ofNat 64 (v.pins - 1) = 0 ↔ v.pins - 1 = 0 := ofNat_eq_zero (by omega)
  unfold releaseRead View.attempt
  simp only [pinField_pack hv, ofNat_sub_one hp, hzero]
  rw [pack_setStatePins hv _ (by omega)]
  rfl

theorem markEvicting_pack (only : Bool) :
    markEvicting only (pack v) = (View.attempt (.markEvicting only) v).map pack := by
  unfold markEvicting View.attempt
  simp only [hasState_pack hv, ne_eq, pack_and_pinMask hv, pack_and_subMask hv, pack_setState hv]
  by_cases h1 : v.state = .allocated ∨ v.state = .cached
  · by_cases h2 : v.pins = 0
    · by_cases h3 : only = true → v.subscribers = 0
      · rcases h1 with h1 | h1 <;> cases only <;> simp_all [Attempt.map]
      · rcases h1 with h1 | h1 <;> cases only <;> simp_all [Attempt.map]
    · rcases h1 with h1 | h1 <;> simp [h1, h2, Attempt.map]
  · rw [not_or] at h1
    simp [h1.1, h1.2, Attempt.map]

theorem merge_lt {want : ChunkFill} (hw : want.pages < 2 ^ 16) :
    (merge v.fill want).pages < 2 ^ 16 :=
  merge_pages_lt (lt_of_lt_of_le hv.fill_lt (by norm_num)) hw

theorem mergeFill_pack {want : ChunkFill} (hw : want.pages < 2 ^ 16) :
    mergeFill want (pack v) = (View.attempt (.mergeFill want) v).map pack := by
  have hm := encodable_stored (merge v.fill want)
  have hv' : View.Wf { v with fill := stored (merge v.fill want) } := ⟨hv.pins_lt, hm, hv.subs_lt⟩
  have heq : pack { v with fill := stored (merge v.fill want) } = pack v ↔
      stored (merge v.fill want) = v.fill := by
    constructor
    · intro h
      exact congrArg View.fill (pack_inj hv' hv h)
    · intro h
      rw [h]
  unfold mergeFill View.attempt
  simp only [hasState_pack hv, decode_pack hv, ← encode_stored (merge_lt hv hw),
    pack_setFill hv hm, heq]
  by_cases h1 : want.isUnset = true
  · simp [h1, Attempt.map]
  · by_cases h2 : v.state = .empty ∨ v.state = .queued ∨ v.state = .allocated
    · rw [if_neg h1, if_neg h1, if_pos (by simpa [or_assoc] using h2), if_pos h2]
      split_ifs <;> rfl
    · rw [if_neg h1, if_neg h1, if_neg (by simpa [or_assoc] using h2), if_neg h2]
      rfl

theorem subscriber_pack :
    addSubscriber (pack v) = (View.attempt .addSubscriber v).map pack ∧
      dropSubscriber (pack v) = (View.attempt .dropSubscriber v).map pack := by
  have hb := hv.bounds
  have hzero : BitVec.ofNat 64 v.subscribers = 0 ↔ v.subscribers = 0 := ofNat_eq_zero (by omega)
  constructor
  · unfold addSubscriber View.attempt
    simp only [subField_pack hv, BitVec.toNat_ofNat]
    rw [Nat.mod_eq_of_lt (by omega)]
    by_cases h : v.subscribers ≥ maxSubscribers
    · rw [if_pos h, if_pos h]
      rfl
    · rw [if_neg h, if_neg h]
      unfold maxSubscribers at h
      rw [ofNat_add_one, pack_setSubscribers hv (by omega)]
      rfl
  · unfold dropSubscriber View.attempt
    simp only [subField_pack hv, hzero]
    by_cases h : v.subscribers = 0
    · rw [if_pos h, if_pos h]
      rfl
    · rw [if_neg h, if_neg h, ofNat_sub_one (by omega), pack_setSubscribers hv (by omega)]
      rfl

/-- **The operations on words are the operations on views.** -/
theorem attempt_pack {op : Op} (hf : Fits op v) :
    ChunkState.attempt op (pack v) = (View.attempt op v).map pack := by
  cases op with
  | markQueued => exact transition_pack hv _ _
  | markAllocated => exact transition_pack hv _ _
  | markCached => exact transition_pack hv _ _
  | markLoadFailed => exact transition_pack hv _ _
  | markEmpty =>
    have henc : encode unset = 0#64 := by decide
    have hset := pack_setStateFill hv .empty encodable_unset
    rw [henc, BitVec.or_zero] at hset
    simp only [ChunkState.attempt, markEmpty, transition, View.attempt]
    rw [hset]
    by_cases h : v.state = .evicting ∧ v.pins = 0
    · rw [if_neg (by rw [not_not]; exact (pack_and_statePinMask hv _).mpr h), if_pos h]
      rfl
    · rw [if_pos (by rwa [ne_eq, pack_and_statePinMask hv]), if_neg h]
      rfl
  | takeLoading =>
    simp only [ChunkState.attempt, takeLoading, View.attempt, decode_pack hv, pack_setState hv]
    by_cases h : v.state = .allocated ∧ v.pins = 0
    · rw [if_neg (by rw [not_not]; exact (pack_and_statePinMask hv _).mpr h), if_pos h]
      rfl
    · rw [if_pos (by rwa [ne_eq, pack_and_statePinMask hv]), if_neg h]
      rfl
  | takeLoadingMerging want =>
    simp only [ChunkState.attempt, takeLoadingMerging, View.attempt, decode_pack hv]
    rw [← encode_stored (merge_lt hv hf), pack_setStateFill hv _ (encodable_stored _)]
    by_cases h : v.state = .allocated ∧ v.pins = 0
    · rw [if_neg (by rw [not_not]; exact (pack_and_statePinMask hv _).mpr h), if_pos h]
      rfl
    · rw [if_pos (by rwa [ne_eq, pack_and_statePinMask hv]), if_neg h]
      rfl
  | mergeFill want => exact mergeFill_pack hv hf
  | acquireRead =>
    simp only [ChunkState.attempt, acquireRead, View.attempt, readable_pack' hv, pinOnce_pack hv]
    by_cases h : v.Readable <;> simp [h, Attempt.map]
  | tryPinCovering off cb lo hi =>
    simp only [ChunkState.attempt, tryPinCovering, View.attempt, readable_pack' hv, pinOnce_pack hv,
      decode_pack hv]
    by_cases h : v.Readable <;> by_cases hc : covers v.fill off cb lo hi = true <;>
      simp [h, hc, Attempt.map]
  | releaseRead => exact releaseRead_pack hv hf
  | markEvicting only => exact markEvicting_pack hv only
  | addSubscriber => exact (subscriber_pack hv).1
  | dropSubscriber => exact (subscriber_pack hv).2

/-- An operation keeps every field inside its bits. -/
theorem View.attempt_wf {op : Op} {v' : View} {r : Ret} (hf : Fits op v)
    (h : View.attempt op v = .swap v' r) : v'.Wf := by
  obtain ⟨h1, h2, h3⟩ := hv
  cases op with
  | takeLoadingMerging _ | mergeFill _ =>
    simp only [View.attempt] at h
    split_ifs at h
    cases h
    exact ⟨h1, encodable_stored _, h3⟩
  | releaseRead =>
    cases h
    exact ⟨by simp only; omega, h2, h3⟩
  | _ =>
    simp only [View.attempt, View.transition, View.pinOnce] at h
    split_ifs at h
    all_goals
      cases h
      first
        | exact ⟨h1, h2, h3⟩
        | exact ⟨h1, encodable_unset, h3⟩
        | exact ⟨by unfold maxPins at *; simp only; omega, h2, h3⟩
        | exact ⟨h1, h2, by unfold maxSubscribers at *; simp only; omega⟩
        | exact ⟨h1, h2, by simp only; omega⟩

end Refinement

theorem pack_default : pack {} = 0 := by decide

theorem wf_default : View.Wf {} := ⟨by norm_num, encodable_unset, by norm_num⟩

/-- What the source asserts and its types promise where an operation goes on: the word that a
    `release_read` last read has a pin. -/
def Asserted {T : Type*} (s : Config Word Op T × List (T × Op × Ret)) : Act Op T → Prop
  | .call _ _ => True
  | .retry t | .finish t =>
    ∀ op cur, s.1.pending t = some (op, cur) → Fits op { pins := pinCount cur }

theorem fits_of_asserted {op : Op} {v : View} (hv : v.Wf)
    (h : Fits op { pins := pinCount (pack v) }) : Fits op v := by
  rw [pinCount_pack hv] at h
  cases op <;> exact h

/-- The word packs fields, and operations on these explain the state. -/
def Serial {T : Type*} [DecidableEq T] (s : Config Word Op T × List (T × Op × Ret)) : Prop :=
  ∃ d, Encodes pack View.Wf s.1 d ∧ ∃ lin, Explains View.attempt {} lin (d, s.2)

theorem serial_step {T : Type*} [DecidableEq T] {s s' : Config Word Op T × List (T × Op × Ret)}
    {a : Act Op T} (h : Serial s) (hassert : Asserted s a)
    (hs : histStep attempt s a = some s') : Serial s' := by
  obtain ⟨d, henc, hlin⟩ := h
  have hattempt : ∀ t op v, a = .retry t ∨ a = .finish t → d.pending t = some (op, v) →
      attempt op (pack v) = (View.attempt op v).map pack ∧
        ∀ v' r, View.attempt op v = .swap v' r → v'.Wf := by
    intro t op v ha hp
    have hv := henc.pending_good t op v hp
    have hpending : s.1.pending t = some (op, pack v) := by rw [henc.pending t, hp]; rfl
    have hfits : Fits op v := by
      rcases ha with rfl | rfl
      · exact fits_of_asserted hv (hassert op _ hpending)
      · exact fits_of_asserted hv (hassert op _ hpending)
    exact ⟨attempt_pack hv hfits, fun v' r => View.attempt_wf hv hfits⟩
  obtain ⟨d', hstep, henc'⟩ := henc.histStep (fun v v' => pack_inj) hattempt hs
  exact ⟨d', henc', explains_step hlin hstep⟩

/-- **The operations of a chunk take effect one at a time, on the fields of its word.** Once none
    is running, the word packs fields inside their bits, and these and what each thread was
    returned are those of the field operations run one after the other. -/
theorem operations_serial {T : Type*} [DecidableEq T] {as : List (Act Op T)}
    {s : Config Word Op T × List (T × Op × Ret)}
    (hok : Meets (histStep attempt) Asserted (init 0, []) as)
    (h : run (histStep attempt) (init 0, []) as = some s) (hidle : ∀ t, s.1.pending t = none) :
    ∃ lin, s.1.word = pack (sequential View.attempt {} lin).1 ∧
      (sequential View.attempt {} lin).1.Wf ∧
      ∀ t, returnsOf t (sequential View.attempt {} lin).2 = returnsOf t s.2 := by
  have hstart : Serial ((init 0, []) : Config Word Op T × List (T × Op × Ret)) :=
    ⟨init {}, ⟨pack_default.symm, wf_default, fun _ => rfl, by simp [init]⟩, [], rfl,
      fun t => by simp [sequential, returnsOf, init, decided]⟩
  obtain ⟨d, henc, lin, hword, hreturns⟩ :=
    hok.run_invariant (fun _ _ _ => serial_step) hstart h
  have hnone : d.pending = fun _ => none := by
    funext t
    have hmap := henc.pending t
    rw [hidle t] at hmap
    exact Option.map_eq_none_iff.mp hmap.symm
  refine ⟨lin, by rw [hword, henc.word], hword ▸ henc.good, fun t => ?_⟩
  rw [hreturns t, hnone]
  exact List.append_nil _

/-- Two threads queue an empty chunk, which is then loaded, pinned and released. -/
def loadedActs : List (Act Op Bool) :=
  [.call false .markQueued, .call true .markQueued, .finish false, .retry true, .finish true,
    .call false .markAllocated, .finish false, .call false .takeLoading, .finish false,
    .call false .markCached, .finish false, .call true .acquireRead, .finish true,
    .call true .releaseRead, .finish true]

theorem operations_serial_loaded : ∃ lin : List (Bool × Op),
    pack (sequential View.attempt {} lin).1 = 4 ∧
      returnsOf true (sequential View.attempt {} lin).2 = [(.markQueued, { ok := false }),
        (.acquireRead, { ok := true }), (.releaseRead, { ok := true })] := by
  have hok : Meets (histStep attempt) Asserted (init 0, []) loadedActs := by
    repeat' refine Meets.cons ?_ rfl ?_
    all_goals first | trivial | rintro op cur ⟨⟩
    all_goals first | trivial | exact Nat.zero_lt_one
  obtain ⟨lin, hword, -, hreturns⟩ := operations_serial hok rfl (by decide)
  exact ⟨lin, hword.symm, (hreturns true).trans (by decide)⟩

end ChunkState

end Sirius.IoCache
