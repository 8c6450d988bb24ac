import Sirius.Scan.DeletionVector
import Sirius.Scan.RoaringFormat

/-!
# The decoder reads the format

A deletion-vector payload: bitmaps under 32-bit keys, framed by a length, a magic and a
CRC-32. The decoder of `Sirius.Scan.DeletionVector` returns exactly the positions such
a payload was written for.

* `computeCrc32_eq`: the table-driven checksum is the CRC-32 of the bytes.
* `decode_payload`: the positions of every serialized vector, in increasing order.
-/

namespace Sirius.Scan.Puffin

open Sirius.Common

/-! ## The format -/

/-- The big-endian bytes of a number. -/
def beBytes (width n : ℕ) : List UInt8 := (leBytes width n).reverse

/-- A 64-bit Roaring bitmap of non-negative positions: 32-bit bitmaps under the high
halves of their values. -/
structure PositionVector where
  bitmaps : List (ℕ × Bitmap)
  keys_sorted : bitmaps.Pairwise fun a b => a.1 < b.1
  keys_lt : ∀ b ∈ bitmaps, b.1 < 2 ^ 31

namespace PositionVector

def elements (v : PositionVector) : List ℕ :=
  v.bitmaps.flatMap fun b => b.2.elements.map (b.1 * 2 ^ 32 + ·)

def bitmapBytes (b : ℕ × Bitmap) : List UInt8 := leBytes 4 b.1 ++ b.2.bytes

def bytes (v : PositionVector) : List UInt8 :=
  leBytes 8 v.bitmaps.length ++ v.bitmaps.flatMap bitmapBytes

/-- The magic and the vector, which the checksum covers. -/
def body (v : PositionVector) : List UInt8 := dvMagic ++ v.bytes

/-- `[4B BE length][magic][vector][4B BE CRC-32]`. -/
def payload (v : PositionVector) : List UInt8 :=
  beBytes 4 v.body.length ++ (v.body ++ beBytes 4 (Crc32.crc32 v.body).toNat)

theorem elements_sorted (v : PositionVector) : v.elements.Pairwise (· < ·) := by
  unfold elements
  exact blocks_sorted Prod.fst (fun b => b.2.elements) v.keys_sorted
    (fun b _ => b.2.elements_sorted) (fun b _ => b.2.elements_lt)

theorem bitmaps_length (v : PositionVector) : v.bitmaps.length ≤ 2 ^ 31 := by
  have hlt : ∀ x ∈ v.bitmaps.map Prod.fst, x < 2 ^ 31 := by
    intro x hx
    obtain ⟨b, hb, rfl⟩ := List.mem_map.mp hx
    exact v.keys_lt b hb
  have hlen := length_le_of_sorted (List.pairwise_map.mpr v.keys_sorted) hlt
  rwa [List.length_map] at hlen

end PositionVector

/-! ## The frame -/

/-- The table-driven checksum is the CRC-32 of the bytes. -/
theorem computeCrc32_eq (data : List UInt8) : computeCrc32 data = Crc32.crc32 data := by
  rw [← Crc32.tableCrc_eq]
  rfl

theorem readBytes_append {width : ℕ} {bs : List UInt8} (h : bs.length = width)
    (rest : List UInt8) : readBytes width (bs ++ rest) = .ok bs := by
  subst h
  rw [readBytes, if_pos (by simp), List.take_left]

theorem readU32Be_beBytes {n : ℕ} (h : n < 2 ^ 32) (rest : List UInt8) :
    readU32Be (beBytes 4 n ++ rest) = .ok n := by
  rw [readU32Be, readBytes_append (by simp [beBytes]), ok_bind, beBytes, List.reverse_reverse,
    leValue_leBytes (by omega)]

theorem readI64Le_leBytes {n : ℕ} (h : n < 2 ^ 63) (rest : List UInt8) :
    ∃ i : Int64, readI64Le (leBytes 8 n ++ rest) = .ok i ∧ ¬i < 0 ∧ i.toInt.toNat = n := by
  have hint : (Int64.ofNat n).toInt = n := Int64.toInt_ofNat_of_lt h
  refine ⟨Int64.ofNat n, ?_, ?_, ?_⟩
  · rw [readI64Le, readLe_leBytes (by omega), ok_bind]
  · rw [Int64.lt_iff_toInt_lt, hint, Int64.toInt_zero]
    omega
  · rw [hint, Int.toNat_natCast]

theorem readI32Le_leBytes {n : ℕ} (h : n < 2 ^ 31) (rest : List UInt8) :
    ∃ i : Int32, readI32Le (leBytes 4 n ++ rest) = .ok i ∧ ¬i < 0 ∧ i.toUInt32.toNat = n := by
  have hint : (Int32.ofNat n).toInt = n := Int32.toInt_ofNat_of_lt h
  refine ⟨Int32.ofNat n, ?_, ?_, ?_⟩
  · rw [readI32Le, readLe_leBytes (by omega), ok_bind]
  · rw [Int32.lt_iff_toInt_lt, hint, Int32.toInt_zero]
    omega
  · have hnat : (Int32.ofNat n).toUInt32.toNat = n % 2 ^ 32 := by simp
    rw [hnat]
    omega

/-! ## One bitmap -/

/-- What a parse keeps of a bitmap's values under a key. -/
def recorded (mode : Mode) (key : ℕ) (values : List ℕ) (r : DecodedPositions) :
    DecodedPositions :=
  match mode with
  | .countOnly => { r with count := r.count + values.length }
  | .charged =>
    { r with
      backing := r.backing ++ values.map (position key)
      count := r.count + values.length }
  | .legacy => { r with legacy := r.legacy ++ values.map (position key) }

theorem count_foldlM (values : List ℕ) (r : DecodedPositions) :
    values.foldlM (fun (r : DecodedPositions) _ => Except.ok { r with count := r.count + 1 }) r =
      (.ok (recorded .countOnly 0 values r) : Except DecodeFailure _) := by
  induction values generalizing r with
  | nil => rfl
  | cons v values ih =>
    rw [List.foldlM_cons, ok_bind, ih]
    simp only [recorded, List.length_cons, Nat.add_assoc, Nat.add_comm 1]

theorem writeCharged_foldlM {key : ℕ} {values : List ℕ} {r : DecodedPositions}
    (hroom : r.count + values.length ≤ r.capacity) :
    values.foldlM (writeCharged (Int64.ofNat key <<< 32)) r =
      .ok (recorded .charged key values r) := by
  induction values generalizing r with
  | nil => simp [recorded, pure, Except.pure]
  | cons v values ih =>
    rw [List.length_cons] at hroom
    rw [List.foldlM_cons, writeCharged, if_neg (by omega), ok_bind, ih (by simp only; omega)]
    simp only [recorded, position, List.map_cons, List.length_cons, List.append_assoc,
      List.singleton_append, Nat.add_assoc, Nat.add_comm 1]

section Parse

variable {size : List UInt8 → ℕ} {maxPositions : ℕ}

/-- One bitmap of a payload. -/
theorem decodeBitmap_bytes {mode : Mode} (hmode : mode ≠ .legacy) {key : ℕ} {b : Bitmap}
    (hsize : ∀ rest, size (b.bytes ++ rest) = b.bytes.length) (rest : List UInt8) {len : ℕ}
    (hlen : b.bytes.length ≤ len) {r : DecodedPositions} (hcapacity : r.capacity = maxPositions)
    (hroom : r.count + b.elements.length ≤ maxPositions) :
    decodeBitmap size mode maxPositions (b.bytes ++ rest) len (Int64.ofNat key <<< 32) r =
      .ok (b.bytes.length, recorded mode key b.elements r) := by
  cases mode with
  | countOnly =>
    rw [decodeBitmap, checkedSub, if_pos (by omega), ok_bind]
    exact walkRoaring32_bytes b hsize rest hlen (by omega) (count_foldlM b.elements r)
  | charged =>
    rw [decodeBitmap, checkedSub, if_pos (by omega), ok_bind]
    exact walkRoaring32_bytes b hsize rest hlen (by omega) (writeCharged_foldlM (by omega))
  | legacy => exact absurd rfl hmode

/-- What a parse keeps of the bitmaps of a payload. -/
def recordedAll (mode : Mode) (bitmaps : List (ℕ × Bitmap)) (r : DecodedPositions) :
    DecodedPositions :=
  bitmaps.foldl (fun r b => recorded mode b.1 b.2.elements r) r

theorem parseBitmaps_bytes {mode : Mode} (hmode : mode ≠ .legacy) (path : String)
    {bitmaps : List (ℕ × Bitmap)} (hkeys : ∀ b ∈ bitmaps, b.1 < 2 ^ 31)
    (hsize : ∀ b ∈ bitmaps, ∀ rest, size (b.2.bytes ++ rest) = b.2.bytes.length)
    (rest : List UInt8) {r : DecodedPositions} (hcapacity : r.capacity = maxPositions)
    (hroom : r.count + (bitmaps.flatMap fun b => b.2.elements.map (b.1 * 2 ^ 32 + ·)).length ≤
      maxPositions) :
    parseBitmaps size mode maxPositions path bitmaps.length
        (bitmaps.flatMap PositionVector.bitmapBytes ++ rest)
        (bitmaps.flatMap PositionVector.bitmapBytes).length r =
      .ok (0, recordedAll mode bitmaps r) := by
  induction bitmaps generalizing r with
  | nil => rfl
  | cons b bitmaps ih =>
    obtain ⟨key, hkey, hsign, hnat⟩ := readI32Le_leBytes (hkeys b List.mem_cons_self)
      (b.2.bytes ++ (bitmaps.flatMap PositionVector.bitmapBytes ++ rest))
    rw [List.flatMap_cons, List.length_append, List.length_map] at hroom
    have hshape : ((b :: bitmaps).flatMap PositionVector.bitmapBytes ++ rest) =
        leBytes 4 b.1 ++ (b.2.bytes ++ (bitmaps.flatMap PositionVector.bitmapBytes ++ rest)) := by
      simp only [List.flatMap_cons, PositionVector.bitmapBytes, List.append_assoc]
    have hlength : ((b :: bitmaps).flatMap PositionVector.bitmapBytes).length =
        4 + (b.2.bytes.length + (bitmaps.flatMap PositionVector.bitmapBytes).length) := by
      simp only [List.flatMap_cons, PositionVector.bitmapBytes, List.length_append,
        length_leBytes, Nat.add_assoc]
    have hdrop : ∀ more : List UInt8, (leBytes 4 b.1 ++ more).drop 4 = more := fun more => by
      rw [List.drop_append_of_le_length (by simp), List.drop_of_length_le (by simp),
        List.nil_append]
    have hcount : (recorded mode b.1 b.2.elements r).count = r.count + b.2.elements.length ∧
        (recorded mode b.1 b.2.elements r).capacity = r.capacity := by
      cases mode with
      | countOnly => exact ⟨rfl, rfl⟩
      | charged => exact ⟨rfl, rfl⟩
      | legacy => exact absurd rfl hmode
    rw [List.length_cons, parseBitmaps, hshape, hlength, if_neg (by omega), hkey, ok_bind,
      checkedSub, if_pos (by omega), ok_bind, if_neg hsign]
    simp only [hnat, hdrop, Nat.add_sub_cancel_left]
    rw [decodeBitmap_bytes hmode (hsize b List.mem_cons_self) _ (by omega) hcapacity (by omega),
      ok_bind]
    simp only [checkedSub, if_pos (Nat.le_add_right _ _), ok_bind, List.drop_left,
      Nat.add_sub_cancel_left]
    exact ih (fun q hq => hkeys q (List.mem_cons_of_mem b hq))
      (fun q hq => hsize q (List.mem_cons_of_mem b hq)) (hcount.2.trans hcapacity)
      (by rw [hcount.1]; omega)

end Parse

/-! ## The whole payload -/

namespace PositionVector

/-- The positions of a vector, as the code assembles them. -/
def positions (v : PositionVector) : List Int64 :=
  v.bitmaps.flatMap fun b => b.2.elements.map (position b.1)

theorem positions_toInt (v : PositionVector) :
    v.positions.map Int64.toInt = v.elements.map (fun x : ℕ => (x : ℤ)) := by
  rw [positions, elements, List.map_flatMap, List.map_flatMap]
  refine List.flatMap_congr fun b hb => ?_
  rw [List.map_map, List.map_map]
  refine List.map_congr_left fun x hx => ?_
  have h := toInt_position (v.keys_lt b hb) (b.2.elements_lt x hx)
  rw [Function.comp_apply, Function.comp_apply, h]
  push_cast
  ring

theorem positions_sorted (v : PositionVector) : v.positions.Pairwise (· < ·) := by
  have hint : (v.positions.map Int64.toInt).Pairwise (· < ·) := by
    rw [positions_toInt]
    exact List.pairwise_map.mpr (v.elements_sorted.imp fun h => by exact_mod_cast h)
  exact (List.pairwise_map.mp hint).imp fun h => Int64.lt_iff_toInt_lt.mpr h

end PositionVector

theorem recordedAll_count (bitmaps : List (ℕ × Bitmap)) (r : DecodedPositions) :
    (recordedAll .countOnly bitmaps r).count =
      r.count + (bitmaps.flatMap fun b => b.2.elements.map (b.1 * 2 ^ 32 + ·)).length := by
  induction bitmaps generalizing r with
  | nil => rfl
  | cons b bitmaps ih =>
    have h := ih (recorded .countOnly b.1 b.2.elements r)
    simp only [recordedAll] at h
    rw [recordedAll, List.foldl_cons, h, List.flatMap_cons, List.length_append, List.length_map]
    exact Nat.add_assoc _ _ _

theorem recordedAll_backing (bitmaps : List (ℕ × Bitmap)) (r : DecodedPositions) :
    (recordedAll .charged bitmaps r).backing =
      r.backing ++ bitmaps.flatMap fun b => b.2.elements.map (position b.1) := by
  induction bitmaps generalizing r with
  | nil => exact (List.append_nil _).symm
  | cons b bitmaps ih =>
    have h := ih (recorded .charged b.1 b.2.elements r)
    simp only [recordedAll] at h
    rw [recordedAll, List.foldl_cons, h, List.flatMap_cons]
    exact List.append_assoc _ _ _

/-! The parts of a payload, where the parse looks for them. -/

namespace PositionVector

/-- The bytes after the bitmap count. -/
def tail (v : PositionVector) : List UInt8 :=
  v.bitmaps.flatMap bitmapBytes ++ beBytes 4 (Crc32.crc32 v.body).toNat

theorem length_beBytes (width n : ℕ) : (beBytes width n).length = width := by
  simp [beBytes]

theorem length_body (v : PositionVector) :
    v.body.length = 12 + (v.bitmaps.flatMap bitmapBytes).length := by
  simp only [body, bytes, dvMagic, List.length_append, length_leBytes, List.length_cons,
    List.length_nil]
  omega

theorem length_payload (v : PositionVector) : v.payload.length = 4 + v.body.length + 4 := by
  rw [payload, List.length_append, List.length_append, length_beBytes, length_beBytes]
  omega

theorem drop_left_of_length {bs rest : List UInt8} {n : ℕ} (h : bs.length = n) :
    (bs ++ rest).drop n = rest := by
  subst h
  exact List.drop_left

theorem payload_drop_four (v : PositionVector) :
    v.payload.drop 4 = v.body ++ beBytes 4 (Crc32.crc32 v.body).toNat := by
  rw [payload, drop_left_of_length (length_beBytes 4 _)]

theorem payload_drop_eight (v : PositionVector) :
    v.payload.drop 8 = leBytes 8 v.bitmaps.length ++ v.tail := by
  have hmagic : dvMagic.length = 4 := rfl
  calc v.payload.drop 8 = (v.payload.drop 4).drop 4 := by rw [List.drop_drop]
    _ = (dvMagic ++ (v.bytes ++ beBytes 4 (Crc32.crc32 v.body).toNat)).drop 4 := by
      rw [payload_drop_four, ← List.append_assoc, ← body]
    _ = leBytes 8 v.bitmaps.length ++ v.tail := by
      rw [drop_left_of_length hmagic, bytes, List.append_assoc, ← tail]

theorem payload_drop_sixteen (v : PositionVector) : v.payload.drop 16 = v.tail := by
  calc v.payload.drop 16 = (v.payload.drop 8).drop 8 := by rw [List.drop_drop]
    _ = v.tail := by rw [payload_drop_eight, drop_left_of_length (length_leBytes 8 _)]

end PositionVector

section Payload

variable {size : List UInt8 → ℕ} {maxPositions : ℕ} {allocate : ℕ → Option String}

theorem parseVector_payload (v : PositionVector) {mode : Mode} (hmode : mode ≠ .legacy)
    (path : String) (hsize : ∀ b ∈ v.bitmaps, ∀ rest, size (b.2.bytes ++ rest) = b.2.bytes.length)
    (hroom : v.elements.length ≤ maxPositions)
    (halloc : mode = .charged → maxPositions ≠ 0 → allocate (maxPositions * 8) = none) :
    parseVector size mode maxPositions path true allocate v.payload v.body.length =
      .ok (finish mode (recordedAll mode v.bitmaps ⟨[], maxPositions, [], 0⟩)) := by
  have hcount := v.bitmaps_length
  have hbody := v.length_body
  obtain ⟨n, hn, hsign, hnat⟩ := readI64Le_leBytes
    (show v.bitmaps.length < 2 ^ 63 by omega) v.tail
  have hreserve : reserve mode maxPositions allocate = .ok ⟨[], maxPositions, [], 0⟩ := by
    rw [reserve]
    split_ifs with h
    · rw [halloc h.1 h.2]
    · rfl
  have hleft : v.body.length - 4 - 8 =
      (v.bitmaps.flatMap PositionVector.bitmapBytes).length := by omega
  have hbitmaps : parseBitmaps size mode maxPositions path v.bitmaps.length v.tail
      (v.bitmaps.flatMap PositionVector.bitmapBytes).length ⟨[], maxPositions, [], 0⟩ =
        .ok (0, recordedAll mode v.bitmaps ⟨[], maxPositions, [], 0⟩) :=
    parseBitmaps_bytes hmode path v.keys_lt hsize _ rfl
      (by simpa [PositionVector.elements] using hroom)
  rw [parseVector, checkedSub, if_pos (by omega), ok_bind, if_neg (by omega),
    v.payload_drop_eight, hn, ok_bind, checkedSub, if_pos (by omega), ok_bind, if_neg hsign,
    hreserve, ok_bind, hnat, v.payload_drop_sixteen, hleft, hbitmaps, ok_bind]
  rfl

/-- A parse of a payload that the block has room for. -/
theorem parse_payload (v : PositionVector) {mode : Mode} (hmode : mode ≠ .legacy) (path : String)
    (hsize : ∀ b ∈ v.bitmaps, ∀ rest, size (b.2.bytes ++ rest) = b.2.bytes.length)
    (hlength : v.payload.length < 2 ^ 32) (hroom : v.elements.length ≤ maxPositions)
    (halloc : mode = .charged → maxPositions ≠ 0 → allocate (maxPositions * 8) = none) :
    parseDeletionVectorBlob size mode maxPositions path true allocate v.payload =
      .ok (finish mode (recordedAll mode v.bitmaps ⟨[], maxPositions, [], 0⟩)) := by
  have hbody := v.length_body
  have htotal := v.length_payload
  have hread : readU32Be v.payload = .ok v.body.length := by
    rw [PositionVector.payload]
    exact readU32Be_beBytes (by omega) _
  have hmagic : readBytes 4 (v.payload.drop 4) = .ok dvMagic := by
    rw [v.payload_drop_four, PositionVector.body, List.append_assoc]
    exact readBytes_append (show dvMagic.length = 4 from rfl) _
  have hcrc : readU32Be ((v.payload.drop 4).drop v.body.length) =
      .ok (Crc32.crc32 v.body).toNat := by
    rw [v.payload_drop_four, List.drop_left, ← List.append_nil (beBytes 4 _)]
    exact readU32Be_beBytes (Crc32.crc32 v.body).toNat_lt _
  have hsummed : readBytes v.body.length (v.payload.drop 4) = .ok v.body := by
    rw [v.payload_drop_four]
    exact readBytes_append rfl _
  rw [parseDeletionVectorBlob, if_neg (by omega), hread, ok_bind, hmagic, ok_bind,
    if_neg (by simp), if_neg (by omega), if_neg (by omega), if_neg (by simp [htotal]), hcrc,
    ok_bind, hsummed, ok_bind]
  simp only [computeCrc32_eq, ne_eq, not_true_eq_false, if_false]
  exact parseVector_payload v hmode path hsize hroom halloc

/-- **The decoder returns the positions of every serialized vector.** For a finite set `S`
of positions below `2^63` and any portable serialization of it, the decoder accepts the
payload and returns `S` in increasing order, when the payload is within the byte limit,
`S` within the position limit, both limits within their ceilings, and the allocator grants
the block for the positions. -/
theorem decode_payload (S : Finset ℕ) (v : PositionVector) (hS : ∀ x, x ∈ S ↔ x ∈ v.elements)
    (hsize : ∀ b ∈ v.bitmaps, ∀ rest, size (b.2.bytes ++ rest) = b.2.bytes.length)
    (limits : DecodeLimits) (hbytes : v.payload.length ≤ limits.maxPayloadBytes)
    (hceiling : limits.maxPayloadBytes ≤ maxDeletionVectorPayloadBytes)
    (hpositions : S.card ≤ limits.maxPositions)
    (hpositionCeiling : limits.maxPositions ≤ maxDeletionVectorPositions)
    (halloc : S.card ≠ 0 → allocate (S.card * 8) = none) :
    ∃ positions, decodeDeletionVectorPayload size allocate v.payload limits = .ok positions ∧
      positions.Pairwise (· < ·) ∧
      positions.map Int64.toInt = (S.sort (· ≤ ·)).map (fun x : ℕ => (x : ℤ)) := by
  have hnodup : v.elements.Nodup := v.elements_sorted.imp Nat.ne_of_lt
  have hset : S = v.elements.toFinset := by
    ext x
    rw [hS, List.mem_toFinset]
  have hcard : S.card = v.elements.length := by
    rw [hset, List.toFinset_card_of_nodup hnodup]
  have hsort : S.sort (· ≤ ·) = v.elements := by
    rw [hset, (List.toFinset_sort (· ≤ ·) hnodup).mpr (v.elements_sorted.imp Nat.le_of_lt)]
  have hlength : v.payload.length < 2 ^ 32 := by
    rw [maxDeletionVectorPayloadBytes] at hceiling
    omega
  have hcounted : parseDeletionVectorBlob size .countOnly limits.maxPositions "payload" true
      allocate v.payload =
        .ok (recordedAll .countOnly v.bitmaps ⟨[], limits.maxPositions, [], 0⟩) :=
    parse_payload v (by simp) "payload" hsize hlength (hcard ▸ hpositions) (by simp)
  have hcount : (recordedAll .countOnly v.bitmaps ⟨[], limits.maxPositions, [], 0⟩).count =
      v.elements.length := by
    rw [recordedAll_count]
    exact Nat.zero_add _
  have hdecoded : parseDeletionVectorBlob size .charged v.elements.length "payload" true
      allocate v.payload =
        .ok (finish .charged (recordedAll .charged v.bitmaps ⟨[], v.elements.length, [], 0⟩)) :=
    parse_payload v (by simp) "payload" hsize hlength le_rfl fun _ h => hcard ▸ halloc (hcard ▸ h)
  have hbacking : (recordedAll .charged v.bitmaps ⟨[], v.elements.length, [], 0⟩).backing =
      v.positions := recordedAll_backing v.bitmaps _
  -- the bitmaps come in order, so neither the sort nor `unique` changes anything
  have hsorted : v.positions.insertionSort (· ≤ ·) = v.positions :=
    (v.positions_sorted.imp Int64.le_of_lt).insertionSort_eq
  have hunique : v.positions.destutter (· ≠ ·) = v.positions :=
    List.destutter_of_isChain _ _ (v.positions_sorted.imp Int64.ne_of_lt).isChain
  refine ⟨v.positions, ?_, v.positions_sorted, ?_⟩
  · rw [decodeDeletionVectorPayload, if_neg (by omega), if_neg (by omega), hcounted,
      rethrow_ok, ok_bind, hcount, hdecoded, ok_bind, finish, hbacking, hsorted, hunique]
  · rw [v.positions_toInt, hsort]

end Payload

/-- The 32-bit bitmap of one array container. -/
def arrayBitmap (values : List ℕ) (h : (Container.array values).Valid) : Bitmap where
  runCookie := false
  entries := [(0, .array values)]
  keys_sorted := List.pairwise_singleton _ _
  keys_lt := by simp
  valid := by simpa using h
  run_flagged := by simp [Container.isRun]
  run_nonempty := by simp

/-- The bitmap `{1, 5}`. -/
def pairBitmap : Bitmap := arrayBitmap [1, 5] (by simp [Container.Valid])

/-- The bitmap `{0}`. -/
def zeroBitmap : Bitmap := arrayBitmap [0] (by simp [Container.Valid])

/-- A vector of the same bitmap under the keys below `n`. -/
def repeated (b : Bitmap) (n : ℕ) (hn : n ≤ 2 ^ 31) : PositionVector where
  bitmaps := (List.range n).map fun i => (i, b)
  keys_sorted := List.pairwise_map.mpr List.pairwise_lt_range
  keys_lt := by
    simp only [List.mem_map, List.mem_range]
    rintro _ ⟨i, hi, rfl⟩
    exact lt_of_lt_of_le hi hn

/-- The size of a bitmap where it stands at the front, as CRoaring reports it. -/
def sizeOf (b : Bitmap) (d : List UInt8) : ℕ :=
  if b.bytes.isPrefixOf d then b.bytes.length else 0

theorem sizeOf_bytes (b : Bitmap) (rest : List UInt8) :
    sizeOf b (b.bytes ++ rest) = b.bytes.length := by
  rw [sizeOf, if_pos (by simp)]

theorem sizeOf_repeated (b : Bitmap) (n : ℕ) (hn : n ≤ 2 ^ 31) :
    ∀ c ∈ (repeated b n hn).bitmaps, ∀ rest,
      sizeOf b (c.2.bytes ++ rest) = c.2.bytes.length := by
  intro c hc rest
  obtain ⟨i, _, rfl⟩ := List.mem_map.mp hc
  exact sizeOf_bytes b rest

theorem decode_payload_small :
    ∃ positions, decodeDeletionVectorPayload (sizeOf pairBitmap) (fun _ => none)
        (repeated pairBitmap 1 (by norm_num)).payload ⟨64, 2⟩ = .ok positions ∧
      positions.Pairwise (· < ·) ∧
      positions.map Int64.toInt = (({1, 5} : Finset ℕ).sort (· ≤ ·)).map (fun x : ℕ => (x : ℤ)) :=
  decode_payload {1, 5} _ (by simp [PositionVector.elements, repeated, pairBitmap, arrayBitmap,
      Bitmap.elements, Container.elements]) (sizeOf_repeated _ 1 _) ⟨64, 2⟩ (by decide +kernel)
    (by decide) (by decide) (by decide) (fun _ => rfl)

/-! ## The byte limit -/

/-- The payload of `n` positions, each alone under its key, takes 22 bytes for each. -/
theorem length_payload_repeated (n : ℕ) (hn : n ≤ 2 ^ 31) :
    (repeated zeroBitmap n hn).payload.length = 20 + n * 22 := by
  have hbitmap : zeroBitmap.bytes.length = 18 := by decide
  have hbytes : ∀ i : ℕ, (PositionVector.bitmapBytes (i, zeroBitmap)).length = 22 := by
    intro i
    rw [PositionVector.bitmapBytes, List.length_append, length_leBytes, hbitmap]
  rw [PositionVector.length_payload, PositionVector.length_body, repeated, List.flatMap_map,
    length_flatMap_of_length hbytes, List.length_range]
  omega

/-- Four million positions, each alone under its key, are within the position limit; the
decoder refuses their payload of 88 million bytes under its default limits. -/
theorem decode_payload_over_byte_limit :
    ¬∀ (S : Finset ℕ) (v : PositionVector) (size : List UInt8 → ℕ),
      (∀ x, x ∈ S ↔ x ∈ v.elements) → S.card ≤ DecodeLimits.default.maxPositions →
      (∀ b ∈ v.bitmaps, ∀ rest, size (b.2.bytes ++ rest) = b.2.bytes.length) →
      ∃ positions, decodeDeletionVectorPayload size (fun _ => none) v.payload .default =
          .ok positions ∧
        positions.Pairwise (· < ·) ∧
        positions.map Int64.toInt = (S.sort (· ≤ ·)).map (fun x : ℕ => (x : ℤ)) := by
  intro h
  have hlength := length_payload_repeated 4000000 (by norm_num)
  generalize hv : repeated zeroBitmap 4000000 (by norm_num) = v at hlength
  have hcount : v.elements.length = 4000000 := by
    rw [← hv, PositionVector.elements, repeated, List.flatMap_map,
      length_flatMap_of_length (w := 1) (fun _ => rfl), List.length_range]
  have hcard : v.elements.toFinset.card ≤ DecodeLimits.default.maxPositions := by
    have hle := v.elements.toFinset_card_le
    simp only [DecodeLimits.default, maxDeletionVectorPositions]
    omega
  obtain ⟨positions, hok, -, -⟩ := h v.elements.toFinset v (sizeOf zeroBitmap) (by simp) hcard
    (hv ▸ sizeOf_repeated _ 4000000 _)
  have hceiling : ¬(maxDeletionVectorPayloadBytes < DecodeLimits.default.maxPayloadBytes ∨
      maxDeletionVectorPositions < DecodeLimits.default.maxPositions) := by
    simp [DecodeLimits.default]
  have hover : DecodeLimits.default.maxPayloadBytes < v.payload.length := by
    rw [hlength, DecodeLimits.default, maxDeletionVectorPayloadBytes]
    norm_num
  rw [decodeDeletionVectorPayload, if_neg hceiling, if_pos hover] at hok
  cases hok

end Sirius.Scan.Puffin
