import Sirius.Common.Crc32
import Sirius.Scan.Roaring

/-!
# Decoding a deletion vector

The model of `compute_crc32`, `parse_deletion_vector_blob` and
`decode_deletion_vector_payload` (src/op/scan/puffin_reader.cpp:180-201, 313-332,
621-754, 1068-1094). Every unsigned budget is subtracted by `checkedSub`, which is a
`fault` below zero, and a write past the output is one too.

The allocator is what `allocate_retained` answers: nothing, or what it throws.

* `decode_total`: what the decoder does with any payload.
-/

namespace Sirius.Scan.Puffin

open Sirius.Common

/-! ## Model -/

/-- An entry of `crc32_table` (`init_crc32_table`, puffin_reader.cpp:180-189). -/
def crc32Table (i : UInt32) : UInt32 :=
  (List.range 8).foldl
    (fun c _ => if c &&& 1 ≠ 0 then (0xEDB88320 : UInt32) ^^^ (c >>> 1) else c >>> 1) i

/-- `compute_crc32` (puffin_reader.cpp:191-199). -/
def computeCrc32 (data : List UInt8) : UInt32 :=
  data.foldl (fun crc b => crc32Table ((crc ^^^ b.toUInt32) &&& 0xFF) ^^^ (crc >>> 8)) 0xFFFFFFFF
    ^^^ 0xFFFFFFFF

/-- An unsigned subtraction that must not wrap. -/
def checkedSub (a b : ℕ) : Except DecodeFailure ℕ :=
  if b ≤ a then .ok (a - b) else .error .fault

/-- `width` bytes at a pointer. -/
def readBytes (width : ℕ) (p : List UInt8) : Except DecodeFailure (List UInt8) :=
  if width ≤ p.length then .ok (p.take width) else .error .fault

/-- `read_u32_be` (puffin_reader.cpp:171-175). -/
def readU32Be (p : List UInt8) : Except DecodeFailure ℕ := do
  let bytes ← readBytes 4 p
  .ok (leValue bytes.reverse)

/-- `read_i32_le` (puffin_reader.cpp:164-169). -/
def readI32Le (p : List UInt8) : Except DecodeFailure Int32 := do
  let value ← readLe 4 p
  .ok (Int32.ofNat value)

/-- `read_i64_le` (puffin_reader.cpp:157-162). -/
def readI64Le (p : List UInt8) : Except DecodeFailure Int64 := do
  let value ← readLe 8 p
  .ok (Int64.ofNat value)

/-- How the positions are kept: only counted, in a charged block, or in a vector. -/
inductive Mode where
  | countOnly
  | charged
  | legacy
  deriving DecidableEq, Repr

/-- `decoded_positions` (puffin_reader.cpp:617-621); `backing` is a block of `capacity`
cells of which the listed ones are written. -/
structure DecodedPositions where
  legacy : List Int64
  capacity : ℕ
  backing : List Int64
  count : ℕ
  deriving DecidableEq, Repr

/-- `output[count++] = high | value` (puffin_reader.cpp:327-332). -/
def writeCharged (high : Int64) (r : DecodedPositions) (value : ℕ) :
    Except DecodeFailure DecodedPositions :=
  if r.capacity ≤ r.count then .error .fault
  else .ok { r with backing := r.backing ++ [high ||| Int64.ofNat value], count := r.count + 1 }

/-- `deserialize_roaring32` (puffin_reader.cpp:313-325). -/
def deserializeRoaring32 (size : List UInt8 → ℕ) (data : List UInt8) (len : ℕ) (out : List ℕ)
    (maxOut : ℕ) : Except DecodeFailure (ℕ × List ℕ) :=
  if maxOut < out.length then
    .error (.runtimeError "roaring: decoded positions exceed the declared budget")
  else do
    let budget ← checkedSub maxOut out.length
    walkRoaring32 budget (fun out value => .ok (out ++ [value])) size data len out

section Parse

variable (size : List UInt8 → ℕ) (mode : Mode) (maxPositions : ℕ)

/-- The positions of one bitmap (puffin_reader.cpp:721-736): the bytes consumed. -/
def decodeBitmap (data : List UInt8) (len : ℕ) (high : Int64) (r : DecodedPositions) :
    Except DecodeFailure (ℕ × DecodedPositions) :=
  match mode with
  | .countOnly => do
    let budget ← checkedSub maxPositions r.count
    walkRoaring32 budget (fun r _ => .ok { r with count := r.count + 1 }) size data len r
  | .charged => do
    let budget ← checkedSub r.capacity r.count
    walkRoaring32 budget (writeCharged high) size data len r
  | .legacy => do
    let budget ← checkedSub maxPositions r.legacy.length
    let (consumed, low) ← deserializeRoaring32 size data len [] budget
    .ok (consumed, { r with legacy := r.legacy ++ low.map fun v => high ||| Int64.ofNat v })

/-- The loop over the bitmaps (puffin_reader.cpp:699-739): `roaring_len` and the
positions after it. -/
def parseBitmaps (path : String) :
    ℕ → List UInt8 → ℕ → DecodedPositions → Except DecodeFailure (ℕ × DecodedPositions)
  | 0, _, len, r => .ok (len, r)
  | n + 1, p, len, r =>
    if len < 4 then .error (.runtimeError "[puffin] Truncated bitmap key")
    else do
      let key ← readI32Le p
      let len ← checkedSub len 4
      if key < 0 then
        .error (.runtimeError ("[puffin] Bitmap key " ++ toString key.toInt ++ " in " ++ path ++
          " has bit 31 set, which would encode a row position at or above " ++
          "2^63; deletion-vector positions are non-negative"))
      else do
        let high := Int64.ofNat key.toUInt32.toNat <<< 32
        let (consumed, r) ← decodeBitmap size mode maxPositions (p.drop 4) len high r
        let len ← checkedSub len consumed
        parseBitmaps path n ((p.drop 4).drop consumed) len r

/-- The block for the positions (puffin_reader.cpp:694-697). -/
def reserve (allocate : ℕ → Option String) : Except DecodeFailure DecodedPositions :=
  if mode = .charged ∧ maxPositions ≠ 0 then
    match allocate (maxPositions * 8) with
    | some message => .error (.allocation message)
    | none => .ok ⟨[], maxPositions, [], 0⟩
  else .ok ⟨[], maxPositions, [], 0⟩

/-- The sort at the end (puffin_reader.cpp:743-751). -/
def finish (r : DecodedPositions) : DecodedPositions :=
  match mode with
  | .countOnly => r
  | .charged => { r with backing := r.backing.insertionSort (· ≤ ·) }
  | .legacy =>
    { r with legacy := r.legacy.insertionSort (· ≤ ·), count := r.legacy.length }

/-- `DV_MAGIC`. -/
def dvMagic : List UInt8 := [0xD1, 0xD3, 0x39, 0x64]

/-- The 64-bit Roaring vector after the checks of the frame (puffin_reader.cpp:678-754). -/
def parseVector (path : String) (exactPayload : Bool) (allocate : ℕ → Option String)
    (blob : List UInt8) (checksummedLen : ℕ) : Except DecodeFailure DecodedPositions := do
  let roaringLen ← checkedSub checksummedLen 4
  if roaringLen < 8 then .error (.runtimeError "[puffin] Roaring vector too small")
  else do
    let numBitmaps ← readI64Le (blob.drop 8)
    let roaringLen ← checkedSub roaringLen 8
    if numBitmaps < 0 then
      .error (.runtimeError ("[puffin] Negative bitmap count (" ++ toString numBitmaps.toInt ++
        ") in " ++ path))
    else do
      let r ← reserve mode maxPositions allocate
      let (left, r) ← parseBitmaps size mode maxPositions path numBitmaps.toInt.toNat
        (blob.drop 16) roaringLen r
      if exactPayload ∧ left ≠ 0 then
        .error (.runtimeError "[puffin] Unconsumed bytes inside deletion-vector bitmap")
      else .ok (finish mode r)

/-- `parse_deletion_vector_blob` (puffin_reader.cpp:624-754). -/
def parseDeletionVectorBlob (path : String) (exactPayload : Bool) (allocate : ℕ → Option String)
    (blob : List UInt8) : Except DecodeFailure DecodedPositions :=
  if blob.length < 12 then
    .error (.runtimeError ("[puffin] Blob too small (" ++ toString blob.length ++
      " bytes) to be a deletion-vector-v1"))
  else do
    let combinedLength ← readU32Be blob
    let magic ← readBytes 4 (blob.drop 4)
    if magic ≠ dvMagic then
      .error (.runtimeError ("[puffin] Deletion vector magic mismatch in " ++ path))
    else if combinedLength < 12 then
      .error (.runtimeError ("[puffin] combined_length=" ++ toString combinedLength ++
        " is too short to hold a deletion vector's magic and bitmap count"))
    else if blob.length < 4 + combinedLength + 4 then
      .error (.runtimeError ("[puffin] Blob size mismatch: combined_length=" ++
        toString combinedLength ++ " blob_size=" ++ toString blob.length))
    else if exactPayload ∧ 4 + combinedLength + 4 ≠ blob.length then
      .error (.runtimeError "[puffin] Trailing bytes after deletion-vector-v1 payload")
    else do
      let storedCrc ← readU32Be ((blob.drop 4).drop combinedLength)
      let checksummed ← readBytes combinedLength (blob.drop 4)
      let computedCrc := (computeCrc32 checksummed).toNat
      if storedCrc ≠ computedCrc then
        .error (.runtimeError ("[puffin] CRC-32 mismatch in " ++ path ++ ": stored=" ++
          toString storedCrc ++ " computed=" ++ toString computedCrc))
      else parseVector size mode maxPositions path exactPayload allocate blob combinedLength

end Parse

/-- `deletion_vector_decode_limits` (src/op/scan/puffin_reader.hpp:109-112). -/
structure DecodeLimits where
  maxPayloadBytes : ℕ
  maxPositions : ℕ
  deriving DecidableEq, Repr

/-- `kMaxDeletionVectorPayloadBytes`. -/
def maxDeletionVectorPayloadBytes : ℕ := 64 * 1024 * 1024

/-- `kMaxDeletionVectorPositions`. -/
def maxDeletionVectorPositions : ℕ := 32 * 1024 * 1024

/-- The limits a caller that passes none gets. -/
def DecodeLimits.default : DecodeLimits :=
  ⟨maxDeletionVectorPayloadBytes, maxDeletionVectorPositions⟩

/-- The expansion limit leaves as a resource error (puffin_reader.cpp:1082-1088). -/
def rethrow {α : Type} : Except DecodeFailure α → Except DecodeFailure α
  | .error (.expansionLimit message) => .error (.resourceError message true)
  | x => x

theorem rethrow_ok {α : Type} (a : α) : rethrow (.ok a) = .ok a := rfl

/-- `decode_deletion_vector_payload` (puffin_reader.cpp:1068-1094): a parse that counts,
one that writes into a block of that many cells, and `std::unique`. -/
def decodeDeletionVectorPayload (size : List UInt8 → ℕ) (allocate : ℕ → Option String)
    (payload : List UInt8) (limits : DecodeLimits) : Except DecodeFailure (List Int64) :=
  if maxDeletionVectorPayloadBytes < limits.maxPayloadBytes ∨
      maxDeletionVectorPositions < limits.maxPositions then
    .error (.invalidArgument "Deletion vector decode limits exceed the independent ceiling")
  else if limits.maxPayloadBytes < payload.length then
    .error (.resourceError "Deletion vector payload exceeds byte limit" true)
  else do
    let counted ← rethrow
      (parseDeletionVectorBlob size .countOnly limits.maxPositions "payload" true allocate payload)
    let decoded ←
      parseDeletionVectorBlob size .charged counted.count "payload" true allocate payload
    .ok (decoded.backing.destutter (· ≠ ·))

/-! ## Positions -/

/-- The position of a bitmap's value, as the code assembles it. -/
def position (key : ℕ) (value : ℕ) : Int64 := Int64.ofNat key <<< 32 ||| Int64.ofNat value

theorem toInt_position {key value : ℕ} (hkey : key < 2 ^ 31) (hvalue : value < 2 ^ 32) :
    (position key value).toInt = key * 2 ^ 32 + value := by
  have hor : key <<< 32 ||| value = key * 2 ^ 32 + value := by
    rw [← Nat.shiftLeft_add_eq_or_of_lt hvalue, Nat.shiftLeft_eq]
  have hshift : key <<< 32 < 2 ^ 64 := by
    rw [Nat.shiftLeft_eq]
    omega
  have hbv : (position key value).toBitVec = BitVec.ofNat 64 (key * 2 ^ 32 + value) := by
    apply BitVec.eq_of_toNat_eq
    rw [position, Int64.toBitVec_or, Int64.toBitVec_shiftLeft, BitVec.toNat_or]
    simp only [Int64.toBitVec_ofNat', BitVec.toNat_ofNat]
    rw [← hor]
    have hmod : (32 : Int64).toBitVec.smod 64 = 32#64 := by decide
    rw [hmod]
    simp only [BitVec.shiftLeft_eq', BitVec.toNat_shiftLeft, BitVec.toNat_ofNat]
    rw [Nat.mod_eq_of_lt (show key < 2 ^ 64 by omega),
      Nat.mod_eq_of_lt (show value < 2 ^ 64 by omega), Nat.mod_eq_of_lt (show 32 < 2 ^ 64 by omega),
      Nat.mod_eq_of_lt hshift, Nat.mod_eq_of_lt (by rw [hor]; omega)]
  have hnat : (BitVec.ofNat 64 (key * 2 ^ 32 + value)).toNat = key * 2 ^ 32 + value := by
    rw [BitVec.toNat_ofNat]
    omega
  rw [← Int64.toInt_toBitVec, hbv, BitVec.toInt_eq_toNat_of_lt (by omega), hnat]
  push_cast
  ring

/-- The high half of a non-negative key. -/
theorem toUInt32_lt_of_nonneg {key : Int32} (h : ¬key < 0) : key.toUInt32.toNat < 2 ^ 31 := by
  rw [Int32.lt_iff_toInt_lt, Int32.toInt_zero, not_lt] at h
  have hbv : 0 ≤ key.toBitVec.toInt := h
  have hlt := BitVec.toInt_lt (x := key.toBitVec)
  have heq := BitVec.toInt_eq_toNat_cond key.toBitVec
  have hnat : key.toUInt32.toNat = key.toBitVec.toNat := rfl
  split_ifs at heq <;> omega

/-! ## What the decoder keeps -/

theorem checkedSub_sound {a b : ℕ} (h : b ≤ a) : Sound (· = a - b) (checkedSub a b) := by
  rw [checkedSub, if_pos h]
  exact .ok rfl

theorem readBytes_sound (width : ℕ) {p : List UInt8} (h : width ≤ p.length) :
    Sound (fun _ => True) (readBytes width p) := by
  rw [readBytes, if_pos h]
  exact .ok trivial

theorem readU32Be_sound {p : List UInt8} (h : 4 ≤ p.length) :
    Sound (fun _ => True) (readU32Be p) :=
  (readBytes_sound 4 h).bind fun _ _ => .ok trivial

/-- What holds of the positions while the bitmaps are read. -/
def Budgeted (mode : Mode) (maxPositions : ℕ) (r : DecodedPositions) : Prop :=
  match mode with
  | .countOnly => r.count ≤ maxPositions
  | .charged => r.capacity = maxPositions ∧ r.count ≤ maxPositions ∧
      r.backing.length = r.count ∧ ∀ p ∈ r.backing, (0 : Int64) ≤ p
  | .legacy => r.legacy.length ≤ maxPositions ∧ ∀ p ∈ r.legacy, (0 : Int64) ≤ p

theorem position_nonneg {key value : ℕ} (hkey : key < 2 ^ 31) (hvalue : value < 2 ^ 32) :
    (0 : Int64) ≤ position key value := by
  rw [Int64.le_iff_toInt_le, toInt_position hkey hvalue, Int64.toInt_zero]
  positivity

section Budget

variable {size : List UInt8 → ℕ} (hsize : ∀ d, size d ≤ d.length) {maxPositions : ℕ}
  {data : List UInt8} {len key : ℕ} {r : DecodedPositions}
include hsize

theorem decodeBitmap_countOnly_sound (hlen : len ≤ data.length) (high : Int64)
    (hr : Budgeted .countOnly maxPositions r) :
    Sound (fun s => s.1 ≤ len ∧ Budgeted .countOnly maxPositions s.2)
      (decodeBitmap size .countOnly maxPositions data len high r) := by
  refine (checkedSub_sound hr).bind ?_
  rintro budget rfl
  -- after `t` values the count stands `t` above where the bitmap found it
  refine (walkRoaring32_ends hsize (I := fun t s => s.count = r.count + t) ?_ hlen rfl).mono ?_
  · intro t s v _ _ hs
    exact .ok (by simp only [hs, Nat.add_assoc])
  · rintro ⟨consumed, s⟩ ⟨hconsumed, t, ht, hs⟩
    simp only [Budgeted] at hr hs ⊢
    exact ⟨hconsumed, by omega⟩

theorem decodeBitmap_charged_sound (hlen : len ≤ data.length) (hkey : key < 2 ^ 31)
    (hr : Budgeted .charged maxPositions r) :
    Sound (fun s => s.1 ≤ len ∧ Budgeted .charged maxPositions s.2)
      (decodeBitmap size .charged maxPositions data len (Int64.ofNat key <<< 32) r) := by
  obtain ⟨hcapacity, hcount, hbacking, hnonneg⟩ := hr
  refine (checkedSub_sound (hcapacity ▸ hcount)).bind ?_
  rintro budget rfl
  refine (walkRoaring32_ends hsize
    (I := fun t s => s.count = r.count + t ∧ Budgeted .charged maxPositions s) ?_ hlen
    ⟨rfl, hcapacity, hcount, hbacking, hnonneg⟩).mono ?_
  · rintro t s v ht hv ⟨hs, hcapacity', hcount', hbacking', hnonneg'⟩
    have hroom : ¬s.capacity ≤ s.count := by omega
    rw [writeCharged, if_neg hroom]
    refine .ok ⟨by simp only [hs, Nat.add_assoc], hcapacity', by simp only; omega, by simpa, ?_⟩
    intro p hp
    rcases List.mem_append.mp hp with hp | hp
    · exact hnonneg' p hp
    · rw [List.mem_singleton.mp hp]
      exact position_nonneg hkey hv
  · rintro ⟨consumed, s⟩ ⟨hconsumed, t, _, _, hs⟩
    exact ⟨hconsumed, hs⟩

theorem decodeBitmap_legacy_sound (hlen : len ≤ data.length) (hkey : key < 2 ^ 31)
    (hr : Budgeted .legacy maxPositions r) :
    Sound (fun s => s.1 ≤ len ∧ Budgeted .legacy maxPositions s.2)
      (decodeBitmap size .legacy maxPositions data len (Int64.ofNat key <<< 32) r) := by
  obtain ⟨hlength, hnonneg⟩ := hr
  refine (checkedSub_sound hlength).bind ?_
  rintro budget rfl
  have hlow : Sound (fun s : ℕ × List ℕ => s.1 ≤ len ∧
      s.2.length ≤ maxPositions - r.legacy.length ∧ ∀ v ∈ s.2, v < 2 ^ 32)
      (deserializeRoaring32 size data len [] (maxPositions - r.legacy.length)) := by
    refine Ends.guard (by simp [DecodeFailure.IsFault]) fun _ => ?_
    refine (checkedSub_sound (Nat.zero_le _)).bind ?_
    rintro budget rfl
    refine (walkRoaring32_ends hsize
      (I := fun t (out : List ℕ) => out.length = t ∧ ∀ v ∈ out, v < 2 ^ 32) ?_ hlen
      ⟨rfl, by simp⟩).mono ?_
    · rintro t out v _ hv ⟨rfl, hout⟩
      refine .ok ⟨by simp, fun w hw => ?_⟩
      rcases List.mem_append.mp hw with hw | hw
      · exact hout w hw
      · rwa [List.mem_singleton.mp hw]
    · rintro ⟨consumed, out⟩ ⟨hconsumed, t, ht, hout, hvalues⟩
      exact ⟨hconsumed, by simpa [hout] using ht, hvalues⟩
  refine hlow.bind ?_
  rintro ⟨consumed, low⟩ ⟨hconsumed, hcount, hvalues⟩
  simp only at hcount
  refine .ok ⟨hconsumed, by simp only [List.length_append, List.length_map]; omega, ?_⟩
  intro p hp
  rcases List.mem_append.mp hp with hp | hp
  · exact hnonneg p hp
  · obtain ⟨v, hv, rfl⟩ := List.mem_map.mp hp
    exact position_nonneg hkey (hvalues v hv)

/-- One bitmap leaves the remaining length its bytes and the positions their budget. -/
theorem decodeBitmap_sound (mode : Mode) (hlen : len ≤ data.length) (hkey : key < 2 ^ 31)
    (hr : Budgeted mode maxPositions r) :
    Sound (fun s => s.1 ≤ len ∧ Budgeted mode maxPositions s.2)
      (decodeBitmap size mode maxPositions data len (Int64.ofNat key <<< 32) r) := by
  cases mode with
  | countOnly => exact decodeBitmap_countOnly_sound hsize hlen _ hr
  | charged => exact decodeBitmap_charged_sound hsize hlen hkey hr
  | legacy => exact decodeBitmap_legacy_sound hsize hlen hkey hr

theorem parseBitmaps_sound (mode : Mode) (path : String) (n : ℕ) {p : List UInt8}
    (hlen : len ≤ p.length) (hr : Budgeted mode maxPositions r) :
    Sound (fun s => Budgeted mode maxPositions s.2)
      (parseBitmaps size mode maxPositions path n p len r) := by
  induction n generalizing p len r with
  | zero => exact .ok hr
  | succ n ih =>
    rw [parseBitmaps]
    refine Ends.guard (by simp [DecodeFailure.IsFault]) fun hfour => ?_
    have hread : Sound (fun _ => True) (readI32Le p) :=
      (readLe_sound 4 (by omega)).bind fun _ _ => .ok trivial
    refine hread.bind fun key _ => ?_
    refine (checkedSub_sound (by omega)).bind ?_
    rintro left rfl
    refine Ends.guard (by simp [DecodeFailure.IsFault]) fun hkey => ?_
    have hdrop : len - 4 ≤ (p.drop 4).length := by
      rw [List.length_drop]
      omega
    refine (decodeBitmap_sound hsize mode hdrop (toUInt32_lt_of_nonneg hkey) hr).bind ?_
    rintro ⟨consumed, r'⟩ ⟨hconsumed, hr'⟩
    refine (checkedSub_sound hconsumed).bind ?_
    rintro left rfl
    refine ih ?_ hr'
    rw [List.length_drop]
    omega

/-- What a parse returns. -/
theorem parseVector_sound (mode : Mode) (path : String) (exactPayload : Bool)
    (allocate : ℕ → Option String) {blob : List UInt8} {checksummedLen : ℕ}
    (hmin : 12 ≤ checksummedLen) (hblob : 4 + checksummedLen + 4 ≤ blob.length) :
    Sound (fun s => ∃ r, Budgeted mode maxPositions r ∧ s = finish mode r)
      (parseVector size mode maxPositions path exactPayload allocate blob checksummedLen) := by
  refine (checkedSub_sound (by omega)).bind ?_
  rintro roaringLen rfl
  refine Ends.guard (by simp [DecodeFailure.IsFault]) fun height => ?_
  have hread : Sound (fun _ => True) (readI64Le (blob.drop 8)) :=
    (readLe_sound 8 (by rw [List.length_drop]; omega)).bind fun _ _ => .ok trivial
  refine hread.bind fun numBitmaps _ => ?_
  refine (checkedSub_sound (by omega)).bind ?_
  rintro roaringLen rfl
  refine Ends.guard (by simp [DecodeFailure.IsFault]) fun _ => ?_
  have hreserve : Sound (Budgeted mode maxPositions) (reserve mode maxPositions allocate) := by
    have hempty : Budgeted mode maxPositions ⟨[], maxPositions, [], 0⟩ := by
      cases mode <;> simp [Budgeted]
    refine Ends.ite (fun _ => ?_) fun _ => .ok hempty
    split
    · exact .error (by simp [DecodeFailure.IsFault])
    · exact .ok hempty
  refine hreserve.bind fun r hr => ?_
  refine (parseBitmaps_sound hsize mode path _ ?_ hr).bind ?_
  · rw [List.length_drop]
    omega
  · rintro ⟨left, r'⟩ hr'
    refine Ends.guard (by simp [DecodeFailure.IsFault]) fun _ => ?_
    exact .ok ⟨r', hr', rfl⟩

theorem parseDeletionVectorBlob_sound (mode : Mode) (path : String) (exactPayload : Bool)
    (allocate : ℕ → Option String) (blob : List UInt8) :
    Sound (fun s => ∃ r, Budgeted mode maxPositions r ∧ s = finish mode r)
      (parseDeletionVectorBlob size mode maxPositions path exactPayload allocate blob) := by
  refine Ends.guard (by simp [DecodeFailure.IsFault]) fun hsmall => ?_
  refine (readU32Be_sound (by omega)).bind fun combinedLength _ => ?_
  refine (readBytes_sound 4 (by rw [List.length_drop]; omega)).bind fun magic _ => ?_
  refine Ends.guard (by simp [DecodeFailure.IsFault]) fun _ => ?_
  refine Ends.guard (by simp [DecodeFailure.IsFault]) fun hmin => ?_
  refine Ends.guard (by simp [DecodeFailure.IsFault]) fun hblob => ?_
  refine Ends.guard (by simp [DecodeFailure.IsFault]) fun _ => ?_
  refine (readU32Be_sound (by simp only [List.length_drop]; omega)).bind fun storedCrc _ => ?_
  refine (readBytes_sound _ (by rw [List.length_drop]; omega)).bind fun checksummed _ => ?_
  refine Ends.guard (by simp [DecodeFailure.IsFault]) fun _ => ?_
  exact parseVector_sound hsize mode path exactPayload allocate (by omega) (by omega)

end Budget

/-! ## The decoder -/

theorem rethrow_sound {α : Type} {Q : α → Prop} {x : Except DecodeFailure α} (hx : Sound Q x) :
    Sound Q (rethrow x) := by
  cases hx with
  | ok h => exact .ok h
  | error h =>
    unfold rethrow
    split
    · exact .error (by simp [DecodeFailure.IsFault])
    · exact .error h

/-- `std::unique` after `std::sort`. -/
theorem unique_sorted (l : List Int64) :
    ((l.insertionSort (· ≤ ·)).destutter (· ≠ ·)).Pairwise (· < ·) := by
  have hsorted : ((l.insertionSort (· ≤ ·)).destutter (· ≠ ·)).Pairwise (· ≤ ·) :=
    (List.pairwise_insertionSort _ l).sublist (List.destutter_sublist _ _)
  have hne : ((l.insertionSort (· ≤ ·)).destutter (· ≠ ·)).IsChain (· ≠ ·) :=
    List.isChain_destutter _ _
  rw [List.isChain_iff_getElem] at hne
  rw [← List.isChain_iff_pairwise, List.isChain_iff_getElem]
  intro i hi
  exact Int64.lt_of_le_of_ne (List.isChain_iff_getElem.mp hsorted.isChain i hi) (hne i hi)

/-- **The decoder is total and safe on every payload.** Whatever the bytes, it reads only
inside the payload and no budget wraps (no `fault`), and it throws or returns strictly
increasing non-negative positions, at most `maxPositions` of them. Of CRoaring it needs
only that the size it reports lies inside the bytes it was given. -/
theorem decode_total (size : List UInt8 → ℕ) (hsize : ∀ d, size d ≤ d.length)
    (allocate : ℕ → Option String) (payload : List UInt8) (limits : DecodeLimits) :
    Sound (fun positions => positions.Pairwise (· < ·) ∧ (∀ p ∈ positions, (0 : Int64) ≤ p) ∧
        positions.length ≤ limits.maxPositions)
      (decodeDeletionVectorPayload size allocate payload limits) := by
  refine Ends.guard (by simp [DecodeFailure.IsFault]) fun _ => ?_
  refine Ends.guard (by simp [DecodeFailure.IsFault]) fun _ => ?_
  refine (rethrow_sound (parseDeletionVectorBlob_sound hsize .countOnly "payload" true allocate
    payload)).bind ?_
  rintro counted ⟨r, hr, rfl⟩
  refine (parseDeletionVectorBlob_sound hsize .charged "payload" true allocate payload).bind ?_
  rintro decoded ⟨d, ⟨-, hcount, hbacking, hnonneg⟩, rfl⟩
  have hsub := List.destutter_sublist (· ≠ ·) (d.backing.insertionSort (· ≤ ·))
  refine .ok ⟨unique_sorted d.backing, fun p hp => ?_, ?_⟩
  · exact hnonneg p ((List.mem_insertionSort _).mp (hsub.subset hp))
  · have hlength := hsub.length_le
    rw [List.length_insertionSort] at hlength
    exact hlength.trans (hbacking.le.trans (hcount.trans hr))

/-- A payload whose one bitmap holds `{1, 5}` in an array container. -/
def smallPayload : List UInt8 :=
  [0, 0, 0, 36, 0xD1, 0xD3, 0x39, 0x64, 1, 0, 0, 0, 0, 0, 0, 0, 0, 0, 0, 0, 0x3A, 0x30, 0, 0,
    1, 0, 0, 0, 0, 0, 1, 0, 16, 0, 0, 0, 1, 0, 5, 0, 62, 110, 48, 47]

theorem decode_total_small :
    decodeDeletionVectorPayload (fun d => min 20 d.length) (fun _ => none) smallPayload ⟨64, 2⟩ =
        .ok [1, 5] ∧
      Sound (fun positions => positions.Pairwise (· < ·) ∧ (∀ p ∈ positions, (0 : Int64) ≤ p) ∧
          positions.length ≤ 2)
        (decodeDeletionVectorPayload (fun d => min 20 d.length) (fun _ => none) smallPayload
          ⟨64, 2⟩) :=
  ⟨by decide +kernel, decode_total (fun d => min 20 d.length)
    (fun d => Nat.min_le_right 20 d.length) (fun _ => none) smallPayload ⟨64, 2⟩⟩

end Sirius.Scan.Puffin
