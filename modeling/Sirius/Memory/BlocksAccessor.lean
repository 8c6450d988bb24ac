import Sirius.Common.Blocks
import Sirius.Common.Run

/-!
# The accessor of a multiple-blocks allocation

Model of `multiple_blocks_allocation_accessor`
(src/memory/multiple_blocks_allocation_accessor.hpp:43-296): a cursor over the blocks of an
allocation, against a cursor over one flat buffer. A copy that leaves its block is undefined and has
no result here. An element of the accessor's type is its bytes.

* `Accessor`, `step`: the accessor and its operations.
* `Flat`, `flatStep`: the flat cursor; an operation that leaves the buffer has no result.
* `writeLoop_eq`, `readLoop_eq`: the loops of `memset`, `memcpy_from` and `memcpy_to`.
* `step_of_fits`, `fits_of_step`: an operation agrees with the flat cursor exactly when `fits` holds.
* `accessor_follows_flat`: every run of operations that fit.
-/

namespace Sirius.Memory.BlocksAccessor

open Sirius.Common Sirius.Common.Blocks

abbrev Bytes := List UInt8

/-! ## Allocations -/

/-- `multiple_blocks_allocation`: blocks of one size. -/
structure Allocation where
  blockSize : ℕ
  blocks : List Bytes
  pos : 0 < blockSize
  uniform : ∀ b ∈ blocks, b.length = blockSize

namespace Allocation

/-- A copy into a block, or `none` when it leaves the block. -/
def write (a : Allocation) (i off : ℕ) (bytes : Bytes) : Option Allocation :=
  match hb : a.blocks[i]? with
  | none => none
  | some b =>
    if h : off + bytes.length ≤ a.blockSize then
      some { a with
        blocks := a.blocks.set i (splice b off bytes)
        uniform := fun c hc => by
          have hlen := a.uniform b (List.mem_of_getElem? hb)
          rcases List.mem_or_eq_of_mem_set hc with hc | rfl
          · exact a.uniform c hc
          · rw [length_splice (by omega), hlen] }
    else none

/-- A copy out of a block, or `none` when it leaves the block. -/
def read (a : Allocation) (i off n : ℕ) : Option Bytes :=
  match a.blocks[i]? with
  | none => none
  | some b => if off + n ≤ a.blockSize then some (slice b off n) else none

/-- The blocks one after the other. -/
def flat (a : Allocation) : Bytes := a.blocks.flatten

end Allocation

/-! ## The accessor -/

structure Accessor where
  blockSize : ℕ := 0
  numBlocks : ℕ := 0
  blockIndex : ℕ := 0
  offsetInBlock : ℕ := 0
  initialByteOffset : ℕ := 0
  deriving DecidableEq, Repr

namespace Accessor

/-- `get_current_global_byte_offset` (lines 94-97). -/
def getCurrentGlobalByteOffset (x : Accessor) : ℕ :=
  x.initialByteOffset + x.blockIndex * x.blockSize + x.offsetInBlock

/-- `set_cursor` (lines 104-110). -/
def setCursor (x : Accessor) (byteOffset : ℕ) : Accessor :=
  { x with blockIndex := byteOffset / x.blockSize, offsetInBlock := byteOffset % x.blockSize }

/-- `reset_cursor` (line 115). -/
def resetCursor (x : Accessor) : Accessor := x.setCursor x.initialByteOffset

/-- `advance_as` (lines 196-204). -/
def advance (x : Accessor) (elem : ℕ) : Accessor :=
  if x.offsetInBlock + elem ≥ x.blockSize then
    { x with blockIndex := x.blockIndex + 1, offsetInBlock := 0 }
  else { x with offsetInBlock := x.offsetInBlock + elem }

/-- The cursor after a bulk copy (lines 228-235). -/
def bump (x : Accessor) (a : Allocation) (n : ℕ) : Accessor :=
  if x.offsetInBlock + n = a.blockSize then
    { x with blockIndex := x.blockIndex + 1, offsetInBlock := 0 }
  else { x with offsetInBlock := x.offsetInBlock + n }

end Accessor

/-- `initialize` (lines 73-87), or `none` when it throws. -/
def initializeAccessor (elem byteOffset : ℕ) (a : Allocation) : Option Accessor :=
  if a.blockSize % elem ≠ 0 then none
  else
    let x : Accessor :=
      { blockSize := a.blockSize, numBlocks := a.blocks.length, initialByteOffset := byteOffset }
    some (x.setCursor byteOffset)

/-- The loop that writes the bytes of a source (lines 221-236 and 248-265). -/
def writeLoop : ℕ → Accessor → Allocation → Bytes → Option (Accessor × Allocation)
  | _, x, a, [] => some (x, a)
  | 0, _, _, _ :: _ => none
  | fuel + 1, x, a, src => do
    let n := min src.length (a.blockSize - x.offsetInBlock)
    let a' ← a.write x.blockIndex x.offsetInBlock (src.take n)
    writeLoop fuel (x.bump a n) a' (src.drop n)

/-- The loop that reads bytes (lines 278-295). -/
def readLoop : ℕ → Accessor → Allocation → ℕ → Option (Accessor × Bytes)
  | _, x, _, 0 => some (x, [])
  | 0, _, _, _ + 1 => none
  | fuel + 1, x, a, bytes => do
    let n := min bytes (a.blockSize - x.offsetInBlock)
    let part ← a.read x.blockIndex x.offsetInBlock n
    let (x', rest) ← readLoop fuel (x.bump a n) a (bytes - n)
    pure (x', part ++ rest)

/-- `memset` (lines 218-237). -/
def memset (x : Accessor) (a : Allocation) (val : UInt8) (bytes : ℕ) :
    Option (Accessor × Allocation) :=
  writeLoop bytes x a (List.replicate bytes val)

/-- `memcpy_from` (lines 245-266). -/
def memcpyFrom (x : Accessor) (a : Allocation) (src : Bytes) : Option (Accessor × Allocation) :=
  writeLoop src.length x a src

/-- `memcpy_to` (lines 275-296). -/
def memcpyTo (x : Accessor) (a : Allocation) (bytes : ℕ) : Option (Accessor × Bytes) :=
  readLoop bytes x a bytes

/-! ## Operations -/

/-- An operation; the value of `set_current` has the size of an element. -/
inductive Op (elem : ℕ) where
  | setCursor (byteOffset : ℕ)
  | resetCursor
  | setCurrent (value : { v : Bytes // v.length = elem })
  | getCurrent
  | get (offset : ℕ)
  | advance
  | memset (val : UInt8) (bytes : ℕ)
  | memcpyFrom (src : Bytes)
  | memcpyTo (bytes : ℕ)
  | getCurrentGlobalByteOffset

/-- What an operation returns. -/
inductive Output where
  | bytes (bytes : Bytes)
  | offset (n : ℕ)
  deriving DecidableEq, Repr

structure Machine where
  accessor : Accessor
  allocation : Allocation
  outputs : List Output

variable {elem : ℕ}

def Machine.output (m : Machine) (o : Output) : Machine := { m with outputs := m.outputs ++ [o] }

/-- `get` (lines 172-189). -/
def get (elem : ℕ) (x : Accessor) (a : Allocation) (offset : ℕ) : Option Bytes :=
  let globalOffset := x.initialByteOffset + elem * offset
  a.read (globalOffset / a.blockSize) (globalOffset % a.blockSize) elem

/-- An operation of the accessor. -/
def step (m : Machine) : Op elem → Option Machine
  | .setCursor byteOffset => some { m with accessor := m.accessor.setCursor byteOffset }
  | .resetCursor => some { m with accessor := m.accessor.resetCursor }
  | .setCurrent value =>
    (m.allocation.write m.accessor.blockIndex m.accessor.offsetInBlock value.1).map
      fun a => { m with allocation := a }
  | .getCurrent =>
    (m.allocation.read m.accessor.blockIndex m.accessor.offsetInBlock elem).map
      fun value => m.output (.bytes value)
  | .get offset => (get elem m.accessor m.allocation offset).map fun value => m.output (.bytes value)
  | .advance => some { m with accessor := m.accessor.advance elem }
  | .memset val bytes => (memset m.accessor m.allocation val bytes).map
      fun (x, a) => { m with accessor := x, allocation := a }
  | .memcpyFrom src => (memcpyFrom m.accessor m.allocation src).map
      fun (x, a) => { m with accessor := x, allocation := a }
  | .memcpyTo bytes => (memcpyTo m.accessor m.allocation bytes).map
      fun (x, dest) => { m with accessor := x }.output (.bytes dest)
  | .getCurrentGlobalByteOffset => some (m.output (.offset m.accessor.getCurrentGlobalByteOffset))

/-! ## The flat cursor -/

structure Flat where
  bytes : Bytes
  cursor : ℕ
  initial : ℕ
  outputs : List Output
  deriving DecidableEq, Repr

def Flat.output (f : Flat) (o : Output) : Flat := { f with outputs := f.outputs ++ [o] }

/-- The bytes from a position on are in the buffer. -/
def Flat.inBounds (f : Flat) (pos n : ℕ) : Prop := pos + n ≤ f.bytes.length

instance (f : Flat) (pos n : ℕ) : Decidable (f.inBounds pos n) := inferInstanceAs (Decidable (_ ≤ _))

/-- An operation of a cursor over a flat buffer, or `none` when it leaves the buffer. -/
def flatStep (f : Flat) : Op elem → Option Flat
  | .setCursor byteOffset =>
    if f.inBounds byteOffset 0 then some { f with cursor := byteOffset } else none
  | .resetCursor => some { f with cursor := f.initial }
  | .setCurrent value =>
    if f.inBounds f.cursor elem then some { f with bytes := splice f.bytes f.cursor value.1 }
    else none
  | .getCurrent =>
    if f.inBounds f.cursor elem then some (f.output (.bytes (slice f.bytes f.cursor elem))) else none
  | .get offset =>
    if f.inBounds (f.initial + elem * offset) elem then
      some (f.output (.bytes (slice f.bytes (f.initial + elem * offset) elem)))
    else none
  | .advance =>
    if f.inBounds f.cursor elem then some { f with cursor := f.cursor + elem } else none
  | .memset val bytes =>
    if f.inBounds f.cursor bytes then
      some { f with
        bytes := splice f.bytes f.cursor (List.replicate bytes val)
        cursor := f.cursor + bytes }
    else none
  | .memcpyFrom src =>
    if f.inBounds f.cursor src.length then
      some { f with bytes := splice f.bytes f.cursor src, cursor := f.cursor + src.length }
    else none
  | .memcpyTo bytes =>
    if f.inBounds f.cursor bytes then
      some ({ f with cursor := f.cursor + bytes }.output (.bytes (slice f.bytes f.cursor bytes)))
    else none
  | .getCurrentGlobalByteOffset => some (f.output (.offset f.cursor))

/-- The element at the cursor lies in one block, where it is read, written or passed; and the global
    offset is asked only when the accessor starts at the first byte. -/
def fits (blockSize : ℕ) (f : Flat) : Op elem → Bool
  | .setCurrent _ | .getCurrent | .advance => f.cursor % blockSize + elem ≤ blockSize
  | .getCurrentGlobalByteOffset => f.initial = 0
  | _ => true

/-! ## The accessor at a position -/

variable {a : Allocation} {cursor initial : ℕ}

/-- The accessor whose cursor stands at a position of the flat buffer. -/
def accessorAt (a : Allocation) (initial cursor : ℕ) : Accessor where
  blockSize := a.blockSize
  numBlocks := a.blocks.length
  blockIndex := cursor / a.blockSize
  offsetInBlock := cursor % a.blockSize
  initialByteOffset := initial

theorem length_flat (a : Allocation) : a.flat.length = a.blocks.length * a.blockSize := by
  unfold Allocation.flat
  rw [List.length_flatten, List.map_congr_left (g := fun _ => a.blockSize) a.uniform,
    List.map_const', List.sum_replicate]
  rfl

/-- A position in the buffer has a block. -/
theorem exists_block {pos : ℕ} (h : pos < a.flat.length) :
    ∃ b, a.blocks[pos / a.blockSize]? = some b := by
  rw [length_flat, Nat.mul_comm] at h
  exact ⟨_, List.getElem?_eq_getElem (Nat.div_lt_of_lt_mul h)⟩

theorem write_eq {pos : ℕ} {bytes : Bytes} (hpos : pos < a.flat.length)
    (h : pos % a.blockSize + bytes.length ≤ a.blockSize) :
    ∃ a', a.write (pos / a.blockSize) (pos % a.blockSize) bytes = some a' ∧
      a'.flat = splice a.flat pos bytes ∧ a'.blockSize = a.blockSize ∧
      a'.blocks.length = a.blocks.length := by
  obtain ⟨b, hb⟩ := exists_block hpos
  have hsplice := splice_flatten a.uniform hb h
  rw [Nat.div_add_mod'] at hsplice
  unfold Allocation.write
  split
  · rename_i hnone
    rw [hb] at hnone
    cases hnone
  · rename_i b' hb'
    obtain rfl := Option.some.inj (hb.symm.trans hb')
    rw [dif_pos h]
    exact ⟨_, rfl, hsplice, rfl, List.length_set⟩

theorem read_eq {pos n : ℕ} (hpos : pos < a.flat.length)
    (h : pos % a.blockSize + n ≤ a.blockSize) :
    a.read (pos / a.blockSize) (pos % a.blockSize) n = some (slice a.flat pos n) := by
  obtain ⟨b, hb⟩ := exists_block hpos
  have hslice := slice_flatten a.uniform hb h
  rw [Nat.div_add_mod'] at hslice
  simp only [Allocation.read, hb, if_pos h]
  rw [← hslice]
  rfl

/-- A copy that leaves its block. -/
theorem write_none {i off : ℕ} {bytes : Bytes} (h : ¬off + bytes.length ≤ a.blockSize) :
    a.write i off bytes = none := by
  unfold Allocation.write
  split
  · rfl
  · rw [dif_neg h]

theorem read_none {i off n : ℕ} (h : ¬off + n ≤ a.blockSize) : a.read i off n = none := by
  unfold Allocation.read
  cases a.blocks[i]? with
  | none => rfl
  | some b => exact if_neg h

theorem bump_accessorAt (initial : ℕ) {a' : Allocation} {n : ℕ} (hsize : a'.blockSize = a.blockSize)
    (hlen : a'.blocks.length = a.blocks.length) (h : cursor % a.blockSize + n ≤ a.blockSize) :
    (accessorAt a initial cursor).bump a n = accessorAt a' initial (cursor + n) := by
  unfold Accessor.bump accessorAt
  rw [hsize, hlen, div_bump a.pos h, mod_bump h]
  dsimp only
  split_ifs <;> rfl

/-! ## The loops -/

/-- One turn of the writing loop. -/
theorem writeLoop_succ {fuel n : ℕ} {x : Accessor} {src : Bytes} (hne : src ≠ [])
    (hn : n = min src.length (a.blockSize - x.offsetInBlock)) :
    writeLoop (fuel + 1) x a src = (a.write x.blockIndex x.offsetInBlock (src.take n)).bind
      fun a' => writeLoop fuel (x.bump a n) a' (src.drop n) := by
  subst hn
  cases src with
  | nil => exact absurd rfl hne
  | cons c src => rfl

/-- One turn of the reading loop. -/
theorem readLoop_succ {fuel n bytes : ℕ} {x : Accessor} (hne : bytes ≠ 0)
    (hn : n = min bytes (a.blockSize - x.offsetInBlock)) :
    readLoop (fuel + 1) x a bytes = (a.read x.blockIndex x.offsetInBlock n).bind fun part =>
      (readLoop fuel (x.bump a n) a (bytes - n)).bind fun r => some (r.1, part ++ r.2) := by
  subst hn
  cases bytes with
  | zero => exact absurd rfl hne
  | succ bytes => rfl

theorem writeLoop_eq (initial : ℕ) {fuel : ℕ} {src : Bytes} (hfuel : src.length ≤ fuel)
    (h : cursor + src.length ≤ a.flat.length) :
    ∃ a', writeLoop fuel (accessorAt a initial cursor) a src
        = some (accessorAt a' initial (cursor + src.length), a') ∧
      a'.flat = splice a.flat cursor src ∧ a'.blockSize = a.blockSize ∧
      a'.blocks.length = a.blocks.length := by
  induction fuel generalizing a cursor src with
  | zero =>
    obtain rfl := List.length_eq_zero_iff.mp (Nat.le_zero.mp hfuel)
    exact ⟨a, rfl, (splice_nil _ _).symm, rfl, rfl⟩
  | succ fuel ih =>
    cases src with
    | nil => exact ⟨a, rfl, (splice_nil _ _).symm, rfl, rfl⟩
    | cons c src =>
      have hmod := Nat.mod_lt cursor a.pos
      rw [List.length_cons] at hfuel h
      -- the bulk copy takes at least one byte and stays in its block
      obtain ⟨n, hn⟩ : ∃ n, n = min (c :: src).length (a.blockSize - cursor % a.blockSize) :=
        ⟨_, rfl⟩
      have hpos : 0 < n := by
        rw [hn, List.length_cons]
        omega
      have hle : n ≤ (c :: src).length := hn ▸ Nat.min_le_left _ _
      have hle' : n ≤ src.length + 1 := hle
      have hblock : cursor % a.blockSize + n ≤ a.blockSize := by omega
      have htake : ((c :: src).take n).length = n := List.length_take_of_le hle
      have hblock' : cursor % a.blockSize + ((c :: src).take n).length ≤ a.blockSize := by
        rwa [htake]
      obtain ⟨a₁, hwrite, hflat, hsize, hlen⟩ :=
        write_eq (show cursor < a.flat.length by omega) hblock'
      have hbump := bump_accessorAt initial hsize hlen hblock
      have hdrop : ((c :: src).drop n).length = src.length + 1 - n := List.length_drop
      have hbound : cursor + ((c :: src).take n).length ≤ a.flat.length := by
        rw [htake]
        omega
      have hrest : cursor + n + ((c :: src).drop n).length ≤ a₁.flat.length := by
        rw [hflat, length_splice hbound]
        omega
      obtain ⟨a₂, hloop, hflat', hsize', hlen'⟩ := ih (by omega) hrest
      refine ⟨a₂, ?_, ?_, hsize'.trans hsize, hlen'.trans hlen⟩
      · have hcursor : cursor + n + ((c :: src).drop n).length = cursor + (c :: src).length := by
          rw [hdrop, List.length_cons]
          omega
        rw [hcursor] at hloop
        rw [writeLoop_succ (List.cons_ne_nil c src) hn]
        show ((a.write (cursor / a.blockSize) (cursor % a.blockSize) ((c :: src).take n)).bind _) = _
        rw [hwrite, Option.bind_some, hbump]
        exact hloop
      · rw [hflat', hflat]
        have happend := splice_append ((c :: src).drop n) hbound
        rwa [htake, List.take_append_drop] at happend

theorem readLoop_eq {fuel bytes : ℕ} (hfuel : bytes ≤ fuel) (h : cursor + bytes ≤ a.flat.length) :
    readLoop fuel (accessorAt a initial cursor) a bytes
      = some (accessorAt a initial (cursor + bytes), slice a.flat cursor bytes) := by
  induction fuel generalizing cursor bytes with
  | zero =>
    obtain rfl := Nat.le_zero.mp hfuel
    rfl
  | succ fuel ih =>
    cases bytes with
    | zero => rfl
    | succ bytes =>
      have hmod := Nat.mod_lt cursor a.pos
      obtain ⟨n, hn⟩ : ∃ n, n = min (bytes + 1) (a.blockSize - cursor % a.blockSize) := ⟨_, rfl⟩
      have hblock : cursor % a.blockSize + n ≤ a.blockSize := by omega
      have hread := read_eq (show cursor < a.flat.length by omega) hblock
      have hbump : (accessorAt a initial cursor).bump a n = accessorAt a initial (cursor + n) :=
        bump_accessorAt initial rfl rfl hblock
      have hloop := ih (show bytes + 1 - n ≤ fuel by omega)
        (show cursor + n + (bytes + 1 - n) ≤ a.flat.length by omega)
      rw [readLoop_succ (Nat.succ_ne_zero bytes) hn]
      show ((a.read (cursor / a.blockSize) (cursor % a.blockSize) n).bind _) = _
      rw [hread, Option.bind_some, hbump, hloop, Option.bind_some, ← slice_add, Nat.add_assoc,
        Nat.add_sub_cancel' (by omega)]

/-! ## One operation -/

/-- The accessor stands where the flat cursor stands, on the same bytes, and returned the same. -/
structure Related (m : Machine) (f : Flat) : Prop where
  accessor : m.accessor = accessorAt m.allocation f.initial f.cursor
  bytes : m.allocation.flat = f.bytes
  outputs : m.outputs = f.outputs

variable {m m' : Machine} {f f' : Flat}

theorem accessorAt_cursor (a : Allocation) (initial cursor : ℕ) :
    (accessorAt a initial cursor).blockIndex * a.blockSize
      + (accessorAt a initial cursor).offsetInBlock = cursor := Nat.div_add_mod' cursor a.blockSize

/-- The accessor at a position of an allocation with the same blocks. -/
theorem accessorAt_congr {a a' : Allocation} (hsize : a'.blockSize = a.blockSize)
    (hlen : a'.blocks.length = a.blocks.length) :
    accessorAt a' initial cursor = accessorAt a initial cursor := by
  unfold accessorAt
  rw [hsize, hlen]

theorem advance_accessorAt (h : cursor % a.blockSize + elem ≤ a.blockSize) :
    (accessorAt a initial cursor).advance elem = accessorAt a initial (cursor + elem) := by
  rw [← bump_accessorAt initial (a := a) rfl rfl h]
  unfold Accessor.advance Accessor.bump
  have hiff : (accessorAt a initial cursor).offsetInBlock + elem ≥ a.blockSize ↔
      (accessorAt a initial cursor).offsetInBlock + elem = a.blockSize := by
    show cursor % a.blockSize + elem ≥ a.blockSize ↔ cursor % a.blockSize + elem = a.blockSize
    omega
  exact if_congr hiff rfl rfl

/-- An element over the end of a block is passed to the start of the next block. -/
theorem advance_accessorAt_ne (h : ¬cursor % a.blockSize + elem ≤ a.blockSize) :
    (accessorAt a initial cursor).advance elem ≠ accessorAt a initial (cursor + elem) := by
  intro heq
  have hcursor := accessorAt_cursor a initial (cursor + elem)
  have hpos := Nat.div_add_mod' cursor a.blockSize
  have hover : (accessorAt a initial cursor).offsetInBlock + elem ≥ a.blockSize := by
    show cursor % a.blockSize + elem ≥ a.blockSize
    omega
  have hnext : (accessorAt a initial cursor).advance elem
      = { accessorAt a initial cursor with
          blockIndex := cursor / a.blockSize + 1, offsetInBlock := 0 } := if_pos hover
  rw [← heq, hnext] at hcursor
  dsimp only at hcursor
  rw [Nat.add_mul, Nat.one_mul] at hcursor
  omega

section Step

variable (helem : 0 < elem) (hdvd : elem ∣ m.allocation.blockSize) (hinit : elem ∣ f.initial)

include helem hdvd hinit

/-- **An operation that fits agrees with the flat cursor.** -/
theorem step_of_fits (hr : Related m f) {op : Op elem} (hflat : flatStep f op = some f')
    (hfits : fits m.allocation.blockSize f op) :
    ∃ m', step m op = some m' ∧ Related m' f' ∧ f'.initial = f.initial ∧
      m'.allocation.blockSize = m.allocation.blockSize := by
  obtain ⟨haccessor, hbytes, houtputs⟩ := hr
  cases op with
  | setCursor byteOffset =>
    obtain ⟨-, hf'⟩ := Option.ite_none_right_eq_some.mp hflat
    obtain rfl := Option.some.inj hf'
    refine ⟨_, rfl, ⟨?_, hbytes, houtputs⟩, rfl, rfl⟩
    show m.accessor.setCursor byteOffset = _
    rw [haccessor]
    rfl
  | resetCursor =>
    obtain rfl := Option.some.inj hflat
    refine ⟨_, rfl, ⟨?_, hbytes, houtputs⟩, rfl, rfl⟩
    show m.accessor.resetCursor = _
    rw [haccessor]
    rfl
  | setCurrent value =>
    obtain ⟨hin, hf'⟩ := Option.ite_none_right_eq_some.mp hflat
    obtain rfl := Option.some.inj hf'
    have hblock : f.cursor % m.allocation.blockSize + value.1.length ≤ m.allocation.blockSize := by
      rw [value.2]
      exact of_decide_eq_true hfits
    have hlt : f.cursor < m.allocation.flat.length := by
      unfold Flat.inBounds at hin
      rw [hbytes]
      omega
    obtain ⟨a', hwrite, hsplice, hsize, hlen⟩ := write_eq hlt hblock
    refine ⟨{ m with allocation := a' }, ?_, ⟨?_, ?_, houtputs⟩, rfl, hsize⟩
    · simp only [step, haccessor, accessorAt, hwrite, Option.map_some]
    · exact haccessor.trans (accessorAt_congr hsize hlen).symm
    · rw [← hbytes]
      exact hsplice
  | getCurrent =>
    obtain ⟨hin, hf'⟩ := Option.ite_none_right_eq_some.mp hflat
    obtain rfl := Option.some.inj hf'
    have hlt : f.cursor < m.allocation.flat.length := by
      unfold Flat.inBounds at hin
      rw [hbytes]
      omega
    have hread := read_eq hlt (of_decide_eq_true hfits)
    refine ⟨m.output (.bytes (slice m.allocation.flat f.cursor elem)), ?_,
      ⟨haccessor, hbytes, ?_⟩, rfl, rfl⟩
    · simp only [step, haccessor, accessorAt, hread, Option.map_some]
    · show m.outputs ++ [_] = f.outputs ++ [_]
      rw [houtputs, hbytes]
  | get offset =>
    obtain ⟨hin, hf'⟩ := Option.ite_none_right_eq_some.mp hflat
    obtain rfl := Option.some.inj hf'
    have hlt : f.initial + elem * offset < m.allocation.flat.length := by
      unfold Flat.inBounds at hin
      rw [hbytes]
      omega
    have hread := read_eq hlt (mod_add_le_of_dvd m.allocation.pos hdvd
      (Nat.dvd_add hinit (Nat.dvd_mul_right elem offset)))
    refine ⟨m.output (.bytes (slice m.allocation.flat (f.initial + elem * offset) elem)), ?_,
      ⟨haccessor, hbytes, ?_⟩, rfl, rfl⟩
    · simp only [step, get, haccessor, accessorAt, hread, Option.map_some]
    · show m.outputs ++ [_] = f.outputs ++ [_]
      rw [houtputs, hbytes]
  | advance =>
    obtain ⟨-, hf'⟩ := Option.ite_none_right_eq_some.mp hflat
    obtain rfl := Option.some.inj hf'
    refine ⟨_, rfl, ⟨?_, hbytes, houtputs⟩, rfl, rfl⟩
    show m.accessor.advance elem = _
    rw [haccessor]
    exact advance_accessorAt (of_decide_eq_true hfits)
  | memset val bytes =>
    obtain ⟨hin, hf'⟩ := Option.ite_none_right_eq_some.mp hflat
    obtain rfl := Option.some.inj hf'
    have hlen : (List.replicate bytes val).length = bytes := List.length_replicate
    obtain ⟨a', hloop, hsplice, hsize, -⟩ := writeLoop_eq f.initial hlen.le
      (by rw [hlen, hbytes]; exact hin)
    rw [hlen] at hloop
    refine ⟨⟨accessorAt a' f.initial (f.cursor + bytes), a', m.outputs⟩, ?_, ⟨rfl, ?_, houtputs⟩,
      rfl, hsize⟩
    · simp only [step, memset, haccessor, hloop, Option.map_some]
    · rw [← hbytes]
      exact hsplice
  | memcpyFrom src =>
    obtain ⟨hin, hf'⟩ := Option.ite_none_right_eq_some.mp hflat
    obtain rfl := Option.some.inj hf'
    obtain ⟨a', hloop, hsplice, hsize, -⟩ := writeLoop_eq f.initial le_rfl
      (by rw [hbytes]; exact hin)
    refine ⟨⟨accessorAt a' f.initial (f.cursor + src.length), a', m.outputs⟩, ?_,
      ⟨rfl, ?_, houtputs⟩, rfl, hsize⟩
    · simp only [step, memcpyFrom, haccessor, hloop, Option.map_some]
    · rw [← hbytes]
      exact hsplice
  | memcpyTo bytes =>
    obtain ⟨hin, hf'⟩ := Option.ite_none_right_eq_some.mp hflat
    obtain rfl := Option.some.inj hf'
    have hin' : f.cursor + bytes ≤ m.allocation.flat.length := by
      rw [hbytes]
      exact hin
    have hloop : memcpyTo m.accessor m.allocation bytes
        = some (accessorAt m.allocation f.initial (f.cursor + bytes),
          slice m.allocation.flat f.cursor bytes) := by
      rw [haccessor]
      exact readLoop_eq le_rfl hin'
    refine ⟨⟨accessorAt m.allocation f.initial (f.cursor + bytes), m.allocation,
      m.outputs ++ [Output.bytes (slice m.allocation.flat f.cursor bytes)]⟩, ?_, ⟨rfl, hbytes, ?_⟩, rfl, rfl⟩
    · rw [step, hloop]
      rfl
    · show m.outputs ++ [_] = f.outputs ++ [_]
      rw [houtputs, hbytes]
  | getCurrentGlobalByteOffset =>
    obtain rfl := Option.some.inj hflat
    refine ⟨_, rfl, ⟨haccessor, hbytes, ?_⟩, rfl, rfl⟩
    have hzero : f.initial = 0 := of_decide_eq_true hfits
    have hcursor := accessorAt_cursor m.allocation f.initial f.cursor
    have hoffset : m.accessor.getCurrentGlobalByteOffset = f.cursor := by
      rw [haccessor]
      show f.initial + (accessorAt m.allocation f.initial f.cursor).blockIndex * _ + _ = _
      rw [hzero] at hcursor ⊢
      rw [Nat.zero_add]
      exact hcursor
    show m.outputs ++ [_] = f.outputs ++ [_]
    rw [houtputs, hoffset]

end Step

/-- An operation that does not fit leaves its block, or goes elsewhere, or returns another offset. -/
theorem fits_of_step (hr : Related m f) {op : Op elem} (hflat : flatStep f op = some f')
    (hstep : step m op = some m') (hr' : Related m' f') : fits m.allocation.blockSize f op := by
  obtain ⟨haccessor, hbytes, houtputs⟩ := hr
  cases op with
  | setCurrent value =>
    apply decide_eq_true
    by_contra hover
    simp only [step, haccessor, accessorAt, Option.map_eq_some_iff] at hstep
    obtain ⟨a', hwrite, -⟩ := hstep
    rw [write_none (by rwa [value.2])] at hwrite
    cases hwrite
  | getCurrent =>
    apply decide_eq_true
    by_contra hover
    simp only [step, haccessor, accessorAt, Option.map_eq_some_iff] at hstep
    obtain ⟨value, hread, -⟩ := hstep
    rw [read_none hover] at hread
    cases hread
  | advance =>
    apply decide_eq_true
    by_contra hover
    obtain ⟨-, hf'⟩ := Option.ite_none_right_eq_some.mp hflat
    obtain rfl := Option.some.inj hf'
    obtain rfl := Option.some.inj hstep
    have hnext : m.accessor.advance elem = accessorAt m.allocation f.initial (f.cursor + elem) :=
      hr'.accessor
    rw [haccessor] at hnext
    exact advance_accessorAt_ne hover hnext
  | getCurrentGlobalByteOffset =>
    apply decide_eq_true
    obtain rfl := Option.some.inj hflat
    obtain rfl := Option.some.inj hstep
    have hlast : m.outputs ++ [Output.offset m.accessor.getCurrentGlobalByteOffset]
        = f.outputs ++ [Output.offset f.cursor] := hr'.outputs
    rw [houtputs] at hlast
    have hoffset := Output.offset.inj (List.singleton_inj.mp (List.append_cancel_left hlast))
    rw [haccessor] at hoffset
    have hcursor := accessorAt_cursor m.allocation f.initial f.cursor
    have hvalue : f.initial + (accessorAt m.allocation f.initial f.cursor).blockIndex
        * m.allocation.blockSize + (accessorAt m.allocation f.initial f.cursor).offsetInBlock
          = f.cursor := hoffset
    omega
  | setCursor | resetCursor | get | memset | memcpyFrom | memcpyTo => rfl

/-! ## Runs -/

/-- The flat cursor over an allocation, at the start of an accessor. -/
def flatStart (a : Allocation) (byteOffset : ℕ) : Flat := ⟨a.flat, byteOffset, byteOffset, []⟩

/-- The accessor follows the flat cursor. -/
structure Follows (blockSize initial : ℕ) (m : Machine) (f : Flat) : Prop where
  related : Related m f
  blockSize : m.allocation.blockSize = blockSize
  initial : f.initial = initial

/-- The run lemma. -/
theorem run_follows {blockSize initial : ℕ} (helem : 0 < elem) (hdvd : elem ∣ blockSize)
    (hinit : elem ∣ initial) {ops : List (Op elem)} (hf : Follows blockSize initial m f)
    (hrun : run (guarded flatStep fun f op => fits blockSize f op) f ops = some f') :
    ∃ m', run step m ops = some m' ∧ Follows blockSize initial m' f' := by
  induction ops generalizing m f with
  | nil =>
    obtain rfl := Option.some.inj hrun
    exact ⟨m, rfl, hf⟩
  | cons op ops ih =>
    rw [run_cons] at hrun
    obtain ⟨f₁, hguarded, hrun⟩ := Option.bind_eq_some_iff.mp hrun
    obtain ⟨hfits, hflat⟩ := guarded_eq_some.mp hguarded
    obtain ⟨m₁, hstep, hrelated, hinitial, hsize⟩ := step_of_fits helem (hf.blockSize ▸ hdvd)
      (hf.initial ▸ hinit) hf.related hflat (hf.blockSize ▸ hfits)
    obtain ⟨m₂, hrest, hfollows⟩ :=
      ih ⟨hrelated, hsize.trans hf.blockSize, hinitial.trans hf.initial⟩ hrun
    refine ⟨m₂, ?_, hfollows⟩
    rw [run_cons, hstep]
    exact hrest

/-- **The accessor against a flat cursor.** In every run of operations inside the buffer that fit, the
    accessor returns what the flat cursor returns, writes what it writes and stands where it stands.
    In every state of such a run an operation inside the buffer agrees with the flat cursor exactly
    when it fits, and `get_current_global_byte_offset` is the position of the flat cursor exactly when
    the accessor starts at the first byte. -/
theorem accessor_follows_flat {elem : ℕ} (helem : 0 < elem) (a : Allocation)
    (hdvd : elem ∣ a.blockSize) {byteOffset : ℕ} (hinit : elem ∣ byteOffset) :
    ∃ x, initializeAccessor elem byteOffset a = some x ∧
      ∀ (ops : List (Op elem)) (f : Flat),
        run (guarded flatStep fun f op => fits a.blockSize f op) (flatStart a byteOffset) ops
          = some f →
        ∃ m, run step ⟨x, a, []⟩ ops = some m ∧ Related m f ∧
          (m.accessor.getCurrentGlobalByteOffset = f.cursor ↔ byteOffset = 0) ∧
          ∀ (op : Op elem) (f' : Flat), flatStep f op = some f' →
            ((∃ m', step m op = some m' ∧ Related m' f') ↔ fits a.blockSize f op) := by
  have haligned : ¬a.blockSize % elem ≠ 0 := not_not.mpr (Nat.mod_eq_zero_of_dvd hdvd)
  refine ⟨accessorAt a byteOffset byteOffset, if_neg haligned, fun ops f hrun => ?_⟩
  have hstart : Follows a.blockSize byteOffset ⟨accessorAt a byteOffset byteOffset, a, []⟩
      (flatStart a byteOffset) := ⟨⟨rfl, rfl, rfl⟩, rfl, rfl⟩
  obtain ⟨m, hm, hfollows⟩ := run_follows helem hdvd hinit hstart hrun
  obtain ⟨hrelated, hsize, hinitial⟩ := hfollows
  refine ⟨m, hm, hrelated, ?_, fun op f' hflat => ⟨?_, fun hfits => ?_⟩⟩
  · rw [hrelated.accessor, hinitial]
    have hcursor := accessorAt_cursor m.allocation byteOffset f.cursor
    show byteOffset + (accessorAt m.allocation byteOffset f.cursor).blockIndex
      * m.allocation.blockSize + (accessorAt m.allocation byteOffset f.cursor).offsetInBlock
        = f.cursor ↔ byteOffset = 0
    omega
  · rintro ⟨m', hstep, hrelated'⟩
    rw [← hsize]
    exact fits_of_step hrelated hflat hstep hrelated'
  · rw [← hsize] at hfits
    obtain ⟨m', hstep, hrelated', -⟩ := step_of_fits helem (hsize ▸ hdvd) (hinitial ▸ hinit)
      hrelated hflat hfits
    exact ⟨m', hstep, hrelated'⟩

/-- Three blocks of eight bytes. -/
def shownAllocation : Allocation where
  blockSize := 8
  blocks := List.replicate 3 (List.replicate 8 0)
  pos := by decide
  uniform := by decide

/-- Over two blocks, with elements of four bytes. -/
def shownOps : List (Op 4) :=
  [.memcpyFrom [1, 2, 3, 4, 5, 6], .resetCursor, .getCurrent, .advance, .getCurrent, .advance,
    .setCurrent ⟨[7, 7, 7, 7], rfl⟩, .get 2]

theorem accessor_follows_flat_shownOps :
    ∃ m, run step ⟨accessorAt shownAllocation 0 0, shownAllocation, []⟩ shownOps = some m ∧
      m.outputs = [.bytes [1, 2, 3, 4], .bytes [5, 6, 0, 0], .bytes [7, 7, 7, 7]] := by
  obtain ⟨x, hx, hruns⟩ := accessor_follows_flat (show 0 < 4 by decide) shownAllocation
    (by decide) (show 4 ∣ 0 by decide)
  obtain rfl := Option.some.inj hx
  obtain ⟨m, hm, hrelated, -⟩ := hruns shownOps _ (by rfl)
  exact ⟨m, hm, hrelated.outputs⟩

/-- An accessor that starts in the second block: the cursor is at byte 8 and the global offset that is
    returned is 16. -/
theorem global_offset_counts_the_start_twice :
    initializeAccessor 4 8 shownAllocation = some (accessorAt shownAllocation 8 8) ∧
      (flatStep (flatStart shownAllocation 8) (.getCurrentGlobalByteOffset : Op 4)).map
        Flat.outputs = some [.offset 8] ∧
      (step ⟨accessorAt shownAllocation 8 8, shownAllocation, []⟩
        (.getCurrentGlobalByteOffset : Op 4)).map Machine.outputs = some [.offset 16] := by
  refine ⟨by decide, by decide, by decide⟩

end Sirius.Memory.BlocksAccessor
