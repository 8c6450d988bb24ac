import Sirius.Scan.DeletionVector
import Sirius.Scan.RoaringValues

/-!
# The decodes of a deletion vector agree

A deletion vector is decoded three ways (src/op/scan/puffin_reader.cpp:624-754): only
counted, into a vector (the eager reader), or into a charged block. The two entries that
charge also remove repeated positions (puffin_reader.cpp:1068-1094, 1127-1165), the eager
one does not.

`blobPositions` reads a payload once, into its positions in the order of the bytes, with
the checks of the frame and of the bitmaps and without limits, modes or allocators.

* `parseDeletionVectorBlob_iff`: what a parse returns in each mode.
* `decodes_agree`: what the modes have in common, and what they differ in.
-/

namespace Sirius.Scan.Puffin

open Sirius.Common

/-! ## The readers of a manifest entry -/

/-- The fields of `DeletionVectorRef` that the decode reads. -/
structure DeletionVectorRef where
  puffinPath : String
  contentOffset : Int64
  referencedDataFile : String
  recordCount : Int64
  deriving DecidableEq, Repr

/-- The bound on the expansion, from the manifest (puffin_reader.cpp:803-818). -/
def checkRecordCount (ref : DeletionVectorRef) : Except DecodeFailure Unit :=
  if ref.recordCount < 0 then
    .error (.runtimeError ("[puffin] Manifest entry for the deletion vector at offset " ++
      toString ref.contentOffset.toInt ++ " in " ++ ref.puffinPath ++
      " carries no record_count, so neither its footer cardinality nor its decoded position " ++
      "count can be checked against anything, and nothing bounds how far the blob may expand"))
  else if (maxDeletionVectorPositions : ℤ) < ref.recordCount.toInt then
    .error (.runtimeError ("[puffin] Deletion vector at offset " ++
      toString ref.contentOffset.toInt ++ " in " ++ ref.puffinPath ++ " declares " ++
      toString ref.recordCount.toInt ++ " deleted positions, above the " ++
      toString maxDeletionVectorPositions ++ " this reader will materialize while planning"))
  else .ok ()

/-- `check_count` (puffin_reader.cpp:1116-1126). -/
def checkCount (ref : DeletionVectorRef) (count : ℕ) : Except DecodeFailure Unit :=
  if count ≠ ref.recordCount.toInt.toNat then
    .error (.runtimeError ("[iceberg] Deletion vector for data file '" ++ ref.referencedDataFile ++
      "' in '" ++ ref.puffinPath ++ "' decoded " ++ toString count ++
      " positions, but its manifest entry records " ++ toString ref.recordCount.toInt ++
      "; the blob at offset " ++ toString ref.contentOffset.toInt ++
      " is not the one this entry describes"))
  else .ok ()

section Readers

variable (size : List UInt8 → ℕ) (allocate : ℕ → Option String) (ref : DeletionVectorRef)
  (blob : List UInt8)

/-- `read_deletion_vector_impl` from the blob's bytes on (puffin_reader.cpp:788-878). -/
def readDeletionVectorImpl (mode : Mode) : Except DecodeFailure DecodedPositions := do
  checkRecordCount ref
  parseDeletionVectorBlob size mode ref.recordCount.toInt.toNat ref.puffinPath false allocate blob

/-- `read_deletion_vector` (puffin_reader.cpp:1096-1099). -/
def readDeletionVector : Except DecodeFailure (List Int64) := do
  let decoded ← readDeletionVectorImpl size allocate ref blob .legacy
  .ok decoded.legacy

/-- `read_deletion_vector_charged` (puffin_reader.cpp:1127-1165); a runtime error leaves it
under another type, with its text. -/
def readDeletionVectorCharged : Except DecodeFailure (List Int64) := do
  let decoded ← readDeletionVectorImpl size allocate ref blob .charged
  checkCount ref decoded.count
  .ok (decoded.backing.destutter (· ≠ ·))

end Readers

/-! ## The positions of a payload -/

/-- The positions of `n` bitmaps, with the bytes left after them. -/
def bitmapPositions (size : List UInt8 → ℕ) :
    ℕ → List UInt8 → ℕ → Option (ℕ × List Int64)
  | 0, _, len => some (len, [])
  | n + 1, p, len =>
    if len < 4 then none
    else do
      let key ← (readI32Le p).toOption
      if key < 0 then none
      else do
        let high := Int64.ofNat key.toUInt32.toNat <<< 32
        let (consumed, values) ← (roaringValues size (p.drop 4) (len - 4)).toOption
        if len - 4 < consumed then none
        else do
          let (left, rest) ← bitmapPositions size n ((p.drop 4).drop consumed) (len - 4 - consumed)
          some (left, values.map (fun v => high ||| Int64.ofNat v) ++ rest)

/-- The positions of the vector inside a frame. -/
def vectorPositions (size : List UInt8 → ℕ) (exactPayload : Bool) (blob : List UInt8)
    (checksummedLen : ℕ) : Option (List Int64) :=
  if checksummedLen < 12 then none
  else do
    let numBitmaps ← (readI64Le (blob.drop 8)).toOption
    if numBitmaps < 0 then none
    else do
      let (left, positions) ← bitmapPositions size numBitmaps.toInt.toNat (blob.drop 16)
        (checksummedLen - 4 - 8)
      if exactPayload ∧ left ≠ 0 then none else some positions

/-- The positions of a payload, in the order of its bytes. -/
def blobPositions (size : List UInt8 → ℕ) (exactPayload : Bool) (blob : List UInt8) :
    Option (List Int64) :=
  if blob.length < 12 then none
  else do
    let combinedLength ← (readU32Be blob).toOption
    let magic ← (readBytes 4 (blob.drop 4)).toOption
    if magic ≠ dvMagic ∨ combinedLength < 12 ∨ blob.length < 4 + combinedLength + 4 ∨
        (exactPayload ∧ 4 + combinedLength + 4 ≠ blob.length) then none
    else do
      let storedCrc ← (readU32Be ((blob.drop 4).drop combinedLength)).toOption
      let checksummed ← (readBytes combinedLength (blob.drop 4)).toOption
      if storedCrc ≠ (computeCrc32 checksummed).toNat then none
      else vectorPositions size exactPayload blob combinedLength

/-- What each mode keeps of the positions read so far. -/
def kept (mode : Mode) (maxPositions : ℕ) (positions : List Int64) : DecodedPositions :=
  match mode with
  | .countOnly => ⟨[], maxPositions, [], positions.length⟩
  | .charged => ⟨[], maxPositions, positions, positions.length⟩
  | .legacy => ⟨positions, maxPositions, [], 0⟩

/-! ## A parse reads the positions -/

theorem toOption_eq_some {α : Type} {x : Except DecodeFailure α} {a : α} :
    x.toOption = some a ↔ x = .ok a := by
  cases x <;> simp [Except.toOption]

theorem ite_none_eq_some {α : Type} {p : Prop} [Decidable p] {x : Option α} {a : α} :
    (if p then none else x) = some a ↔ ¬p ∧ x = some a := by
  split_ifs with hp <;> simp [hp]

theorem checkedSub_eq_ok {a b n : ℕ} : checkedSub a b = .ok n ↔ b ≤ a ∧ n = a - b := by
  rw [checkedSub]
  split_ifs with h
  · simp [h, eq_comm]
  · simp [h]

/-- A loop of writes that never throws. -/
theorem foldlM_count (vs : List ℕ) (r : DecodedPositions) :
    vs.foldlM (fun r _ => (.ok { r with count := r.count + 1 } :
      Except DecodeFailure DecodedPositions)) r = .ok { r with count := r.count + vs.length } := by
  induction vs generalizing r with
  | nil => rfl
  | cons v vs ih =>
    rw [List.foldlM_cons, ok_bind, ih, List.length_cons, Nat.add_assoc, Nat.add_comm 1]

theorem foldlM_push (vs out : List ℕ) :
    vs.foldlM (fun out v => (.ok (out ++ [v]) : Except DecodeFailure (List ℕ))) out =
      .ok (out ++ vs) := by
  induction vs generalizing out with
  | nil => rw [List.append_nil]; rfl
  | cons v vs ih => rw [List.foldlM_cons, ok_bind, ih, List.append_assoc, List.singleton_append]

variable {r : DecodedPositions}

/-- The writes into a block with room for them. -/
theorem foldlM_writeCharged (high : Int64) {vs : List ℕ}
    (hroom : r.count + vs.length ≤ r.capacity) :
    vs.foldlM (writeCharged high) r = .ok { r with
      backing := r.backing ++ vs.map fun v => high ||| Int64.ofNat v
      count := r.count + vs.length } := by
  induction vs generalizing r with
  | nil => rw [List.map_nil, List.append_nil]; rfl
  | cons v vs ih =>
    rw [List.length_cons] at hroom ⊢
    have hfree : ¬r.capacity ≤ r.count := by omega
    rw [List.foldlM_cons, writeCharged, if_neg hfree, ok_bind, ih (by simp only; omega)]
    simp only [List.append_assoc, List.singleton_append, List.map_cons, Nat.add_assoc,
      Nat.add_comm 1]

variable {maxPositions : ℕ} {mode : Mode}

theorem decodeBitmap_iff {size : List UInt8 → ℕ} {data : List UInt8} {len consumed : ℕ}
    {high : Int64} {ps : List Int64} :
    decodeBitmap size mode maxPositions data len high (kept mode maxPositions ps) =
        .ok (consumed, r) ↔
      ∃ vs, roaringValues size data len = .ok (consumed, vs) ∧
        ps.length + vs.length ≤ maxPositions ∧
        r = kept mode maxPositions (ps ++ vs.map fun v => high ||| Int64.ofNat v) := by
  cases mode with
  | countOnly =>
    simp only [decodeBitmap, kept, bind_eq_ok, checkedSub_eq_ok, walkRoaring32_iff, foldlM_count,
      Except.ok.injEq]
    constructor
    · rintro ⟨budget, ⟨hle, rfl⟩, vs, hvs, hfits, rfl⟩
      exact ⟨vs, hvs, by omega, by simp⟩
    · rintro ⟨vs, hvs, hfits, rfl⟩
      exact ⟨_, ⟨by omega, rfl⟩, vs, hvs, by omega, by simp⟩
  | charged =>
    simp only [decodeBitmap, kept, bind_eq_ok, checkedSub_eq_ok, walkRoaring32_iff]
    constructor
    · rintro ⟨budget, ⟨hle, rfl⟩, vs, hvs, hfits, hr⟩
      rw [foldlM_writeCharged high (by simp only; omega)] at hr
      obtain ⟨rfl⟩ := hr
      exact ⟨vs, hvs, by omega, by simp⟩
    · rintro ⟨vs, hvs, hfits, rfl⟩
      refine ⟨_, ⟨by omega, rfl⟩, vs, hvs, by omega, ?_⟩
      rw [foldlM_writeCharged high hfits]
      simp
  | legacy =>
    simp only [decodeBitmap, kept, deserializeRoaring32, bind_eq_ok, checkedSub_eq_ok,
      ite_error_eq_ok, Prod.exists, walkRoaring32_iff, foldlM_push, Except.ok.injEq,
      List.nil_append, List.length_nil, Nat.not_lt_zero, not_false_eq_true, true_and, Nat.zero_le,
      Nat.sub_zero, Prod.mk.injEq]
    constructor
    · rintro ⟨budget, ⟨hle, rfl⟩, _, _, ⟨_, rfl, vs, hvs, hfits, rfl⟩, rfl, rfl⟩
      exact ⟨vs, hvs, by omega, rfl⟩
    · rintro ⟨vs, hvs, hfits, rfl⟩
      exact ⟨_, ⟨by omega, rfl⟩, consumed, vs, ⟨_, rfl, vs, hvs, by omega, rfl⟩, rfl, rfl⟩

theorem parseBitmaps_iff {size : List UInt8 → ℕ} {path : String} {n : ℕ} {p : List UInt8}
    {len left : ℕ} {ps : List Int64} (hps : ps.length ≤ maxPositions) :
    parseBitmaps size mode maxPositions path n p len (kept mode maxPositions ps) =
        .ok (left, r) ↔
      ∃ qs, bitmapPositions size n p len = some (left, qs) ∧
        ps.length + qs.length ≤ maxPositions ∧ r = kept mode maxPositions (ps ++ qs) := by
  induction n generalizing p len ps with
  | zero =>
    simp only [parseBitmaps, bitmapPositions, Except.ok.injEq, Prod.mk.injEq, Option.some.injEq]
    constructor
    · rintro ⟨rfl, rfl⟩
      exact ⟨[], ⟨rfl, rfl⟩, hps, by rw [List.append_nil]⟩
    · rintro ⟨_, ⟨rfl, rfl⟩, -, rfl⟩
      exact ⟨rfl, by rw [List.append_nil]⟩
  | succ n ih =>
    simp only [parseBitmaps, bitmapPositions, ite_error_eq_ok, bind_eq_ok, checkedSub_eq_ok,
      Prod.exists, decodeBitmap_iff, ite_none_eq_some, Option.bind_eq_bind, Option.bind_eq_some_iff,
      toOption_eq_some, Option.some.injEq, Prod.mk.injEq]
    constructor
    · rintro ⟨hfour, key, hkey, _, ⟨-, rfl⟩, hsign, consumed, _, ⟨vs, hvs, hfits, rfl⟩, _,
        ⟨hconsumed, rfl⟩, hrest⟩
      have hfits' : (ps ++ vs.map fun v =>
          Int64.ofNat key.toUInt32.toNat <<< 32 ||| Int64.ofNat v).length ≤ maxPositions := by
        simpa using hfits
      obtain ⟨qs, hqs, htotal, rfl⟩ := (ih hfits').mp hrest
      simp only [List.length_append, List.length_map] at htotal
      refine ⟨_, ⟨hfour, key, hkey, hsign, consumed, vs, hvs, by omega, left, qs, hqs, rfl, rfl⟩,
        ?_, by rw [List.append_assoc]⟩
      simp only [List.length_append, List.length_map]
      omega
    · rintro ⟨_, ⟨hfour, key, hkey, hsign, consumed, vs, hvs, hconsumed, _, qs, hqs, rfl, rfl⟩,
        htotal, rfl⟩
      simp only [List.length_append, List.length_map] at htotal
      refine ⟨hfour, key, hkey, _, ⟨by omega, rfl⟩, hsign, consumed, _, ⟨vs, hvs, by omega, rfl⟩,
        _, ⟨by omega, rfl⟩, (ih ?_).mpr ⟨qs, hqs, ?_, by rw [List.append_assoc]⟩⟩
      · simp only [List.length_append, List.length_map]
        omega
      · simp only [List.length_append, List.length_map]
        omega

/-- The block that a mode asks for is granted. -/
def Granted (allocate : ℕ → Option String) (mode : Mode) (maxPositions : ℕ) : Prop :=
  mode = .charged ∧ maxPositions ≠ 0 → allocate (maxPositions * 8) = none

theorem reserve_iff {allocate : ℕ → Option String} :
    reserve mode maxPositions allocate = .ok r ↔
      Granted allocate mode maxPositions ∧ r = kept mode maxPositions [] := by
  have hempty : kept mode maxPositions [] = ⟨[], maxPositions, [], 0⟩ := by cases mode <;> rfl
  rw [reserve, hempty, Granted]
  split_ifs with hcharged
  · cases allocate (maxPositions * 8) with
    | none => simp [hcharged, eq_comm]
    | some message => simp [hcharged]
  · simp [hcharged, eq_comm]

theorem parseVector_iff {size : List UInt8 → ℕ} {path : String} {exactPayload : Bool}
    {allocate : ℕ → Option String} {blob : List UInt8} {checksummedLen : ℕ} :
    parseVector size mode maxPositions path exactPayload allocate blob checksummedLen = .ok r ↔
      ∃ ps, vectorPositions size exactPayload blob checksummedLen = some ps ∧
        ps.length ≤ maxPositions ∧ Granted allocate mode maxPositions ∧
        r = finish mode (kept mode maxPositions ps) := by
  simp only [parseVector, vectorPositions, bind_eq_ok, checkedSub_eq_ok, ite_error_eq_ok,
    reserve_iff, Prod.exists, ite_none_eq_some, Option.bind_eq_bind, Option.bind_eq_some_iff,
    toOption_eq_some, Option.some.injEq, Except.ok.injEq]
  constructor
  · rintro ⟨_, ⟨hfour, rfl⟩, height, numBitmaps, hbitmaps, _, ⟨-, rfl⟩, hsign, _,
      ⟨hgranted, rfl⟩, left, _, hparse, hexact, rfl⟩
    obtain ⟨ps, hps, hfits, rfl⟩ := (parseBitmaps_iff (Nat.zero_le _)).mp hparse
    rw [List.nil_append]
    refine ⟨ps, ⟨by omega, numBitmaps, hbitmaps, hsign, left, ps, hps, hexact, rfl⟩, ?_,
      hgranted, rfl⟩
    simpa using hfits
  · rintro ⟨_, ⟨hmin, numBitmaps, hbitmaps, hsign, left, ps, hps, hexact, rfl⟩, hfits, hgranted,
      rfl⟩
    refine ⟨_, ⟨by omega, rfl⟩, by omega, numBitmaps, hbitmaps, _, ⟨by omega, rfl⟩, hsign, _,
      ⟨hgranted, rfl⟩, left, _, (parseBitmaps_iff (Nat.zero_le _)).mpr ⟨ps, hps, ?_, rfl⟩, hexact,
      rfl⟩
    simpa using hfits

/-- What a parse returns in each mode: it accepts the payloads that have positions, within
the limit and if the block is granted, and keeps those positions. -/
theorem parseDeletionVectorBlob_iff {size : List UInt8 → ℕ} {path : String} {exactPayload : Bool}
    {allocate : ℕ → Option String} {blob : List UInt8} :
    parseDeletionVectorBlob size mode maxPositions path exactPayload allocate blob = .ok r ↔
      ∃ ps, blobPositions size exactPayload blob = some ps ∧ ps.length ≤ maxPositions ∧
        Granted allocate mode maxPositions ∧ r = finish mode (kept mode maxPositions ps) := by
  simp only [parseDeletionVectorBlob, blobPositions, bind_eq_ok, ite_error_eq_ok, parseVector_iff,
    ite_none_eq_some, Option.bind_eq_bind, Option.bind_eq_some_iff, toOption_eq_some, not_or]
  constructor
  · rintro ⟨hsmall, combinedLength, hcombined, magic, hmagic, hdv, hmin, hblob, htrailing,
      storedCrc, hstored, checksummed, hchecksummed, hcrc, ps, hps, hrest⟩
    exact ⟨ps, ⟨hsmall, combinedLength, hcombined, magic, hmagic, ⟨hdv, hmin, hblob, htrailing⟩,
      storedCrc, hstored, checksummed, hchecksummed, hcrc, hps⟩, hrest⟩
  · rintro ⟨ps, ⟨hsmall, combinedLength, hcombined, magic, hmagic, ⟨hdv, hmin, hblob, htrailing⟩,
      storedCrc, hstored, checksummed, hchecksummed, hcrc, hps⟩, hrest⟩
    exact ⟨hsmall, combinedLength, hcombined, magic, hmagic, hdv, hmin, hblob, htrailing,
      storedCrc, hstored, checksummed, hchecksummed, hcrc, ps, hps, hrest⟩

/-! ## The agreement -/

theorem length_finish_kept (mode : Mode) (maxPositions : ℕ) (ps : List Int64) :
    (finish mode (kept mode maxPositions ps)).count = ps.length := by
  cases mode <;> rfl

variable {positions : List Int64}

theorem decodeDeletionVectorPayload_iff {size : List UInt8 → ℕ} {allocate : ℕ → Option String}
    {payload : List UInt8} {limits : DecodeLimits} :
    decodeDeletionVectorPayload size allocate payload limits = .ok positions ↔
      limits.maxPayloadBytes ≤ maxDeletionVectorPayloadBytes ∧
        limits.maxPositions ≤ maxDeletionVectorPositions ∧
        payload.length ≤ limits.maxPayloadBytes ∧
        ∃ ps, blobPositions size true payload = some ps ∧ ps.length ≤ limits.maxPositions ∧
          Granted allocate .charged ps.length ∧
          positions = (ps.insertionSort (· ≤ ·)).destutter (· ≠ ·) := by
  have hcounted : ∀ r, rethrow (parseDeletionVectorBlob size .countOnly limits.maxPositions
      "payload" true allocate payload) = .ok r ↔ parseDeletionVectorBlob size .countOnly
        limits.maxPositions "payload" true allocate payload = .ok r := by
    intro r
    rcases parseDeletionVectorBlob size .countOnly limits.maxPositions "payload" true allocate
      payload with e | a
    · cases e <;> simp [rethrow]
    · rw [rethrow_ok]
  simp only [decodeDeletionVectorPayload, ite_error_eq_ok, bind_eq_ok, hcounted,
    parseDeletionVectorBlob_iff, Except.ok.injEq, not_or, not_lt, and_assoc]
  constructor
  · rintro ⟨hbytes, hpositions, hlength, _, ⟨ps, hps, hfits, -, rfl⟩, _,
      ⟨qs, hqs, -, hgranted, rfl⟩, rfl⟩
    obtain rfl : ps = qs := Option.some.inj (hps.symm.trans hqs)
    rw [length_finish_kept] at hgranted
    exact ⟨hbytes, hpositions, hlength, ps, hps, hfits, hgranted, rfl⟩
  · rintro ⟨hbytes, hpositions, hlength, ps, hps, hfits, hgranted, rfl⟩
    refine ⟨hbytes, hpositions, hlength, _, ⟨ps, hps, hfits, by simp [Granted], rfl⟩, _,
      ⟨ps, hps, ?_, ?_, rfl⟩, rfl⟩
    · rw [length_finish_kept]
    · rwa [length_finish_kept]

theorem readDeletionVector_iff {size : List UInt8 → ℕ} {allocate : ℕ → Option String}
    {ref : DeletionVectorRef} {blob : List UInt8} :
    readDeletionVector size allocate ref blob = .ok positions ↔
      checkRecordCount ref = .ok () ∧ ∃ ps, blobPositions size false blob = some ps ∧
        ps.length ≤ ref.recordCount.toInt.toNat ∧ positions = ps.insertionSort (· ≤ ·) := by
  simp only [readDeletionVector, readDeletionVectorImpl, bind_eq_ok, parseDeletionVectorBlob_iff,
    Except.ok.injEq]
  constructor
  · rintro ⟨_, ⟨_, hcount, ps, hps, hfits, -, rfl⟩, rfl⟩
    exact ⟨hcount, ps, hps, hfits, rfl⟩
  · rintro ⟨hcount, ps, hps, hfits, rfl⟩
    exact ⟨_, ⟨(), hcount, ps, hps, hfits, by simp [Granted], rfl⟩, rfl⟩

theorem readDeletionVectorCharged_iff {size : List UInt8 → ℕ} {allocate : ℕ → Option String}
    {ref : DeletionVectorRef} {blob : List UInt8} :
    readDeletionVectorCharged size allocate ref blob = .ok positions ↔
      checkRecordCount ref = .ok () ∧ ∃ ps, blobPositions size false blob = some ps ∧
        ps.length = ref.recordCount.toInt.toNat ∧ Granted allocate .charged ps.length ∧
        positions = (ps.insertionSort (· ≤ ·)).destutter (· ≠ ·) := by
  simp only [readDeletionVectorCharged, readDeletionVectorImpl, bind_eq_ok,
    parseDeletionVectorBlob_iff, checkCount, ite_error_eq_ok, Except.ok.injEq]
  constructor
  · rintro ⟨_, ⟨_, hcount, ps, hps, -, hgranted, rfl⟩, _, ⟨hlength, -⟩, rfl⟩
    rw [length_finish_kept, not_not] at hlength
    exact ⟨hcount, ps, hps, hlength, hlength ▸ hgranted, rfl⟩
  · rintro ⟨hcount, ps, hps, hlength, hgranted, rfl⟩
    refine ⟨_, ⟨(), hcount, ps, hps, hlength.le, hlength ▸ hgranted, rfl⟩, (), ⟨?_, trivial⟩, rfl⟩
    rw [length_finish_kept, not_not]
    exact hlength

/-- **The decodes of a deletion vector agree.** On every payload:

* under one limit the count, the eager decode and, if its block is granted, the charged
  decode accept the same payloads, whatever the path in their messages;
* the count is the number of positions that the eager decode returns, and the charged
  decode into a block of that many cells, which never fails if the block is granted,
  writes the same list;
* the two-pass decode accepts, within its ceilings, what the eager decode accepts of the
  payloads without stray bytes, and returns the eager list without its repetitions;
* the charged reader of a manifest entry accepts what the eager one accepts with as many
  positions as the entry records, and returns its list without the repetitions. -/
theorem decodes_agree (size : List UInt8 → ℕ) (allocate : ℕ → Option String) (path path' : String)
    (exactPayload : Bool) (payload : List UInt8) (maxPositions : ℕ) (limits : DecodeLimits)
    (ref : DeletionVectorRef) :
    ((∃ r, parseDeletionVectorBlob size .countOnly maxPositions path exactPayload allocate
        payload = .ok r) ↔
      ∃ e, parseDeletionVectorBlob size .legacy maxPositions path' exactPayload allocate
        payload = .ok e) ∧
    ((∃ c, parseDeletionVectorBlob size .charged maxPositions path exactPayload allocate
        payload = .ok c) ↔
      Granted allocate .charged maxPositions ∧
        ∃ e, parseDeletionVectorBlob size .legacy maxPositions path' exactPayload allocate
          payload = .ok e) ∧
    (∀ r e, parseDeletionVectorBlob size .countOnly maxPositions path exactPayload allocate
        payload = .ok r →
      parseDeletionVectorBlob size .legacy maxPositions path' exactPayload allocate
        payload = .ok e →
      r.count = e.legacy.length ∧
        (Granted allocate .charged r.count →
          ∃ c, parseDeletionVectorBlob size .charged r.count path exactPayload allocate
            payload = .ok c ∧ c.backing = e.legacy ∧ c.count = r.count)) ∧
    (∀ positions, decodeDeletionVectorPayload size allocate payload limits = .ok positions ↔
      limits.maxPayloadBytes ≤ maxDeletionVectorPayloadBytes ∧
        limits.maxPositions ≤ maxDeletionVectorPositions ∧
        payload.length ≤ limits.maxPayloadBytes ∧
        ∃ e, parseDeletionVectorBlob size .legacy limits.maxPositions path' true allocate
            payload = .ok e ∧
          Granted allocate .charged e.legacy.length ∧
          positions = e.legacy.destutter (· ≠ ·)) ∧
    ∀ positions, readDeletionVectorCharged size allocate ref payload = .ok positions ↔
      ∃ e, readDeletionVector size allocate ref payload = .ok e ∧
        e.length = ref.recordCount.toInt.toNat ∧ Granted allocate .charged e.length ∧
        positions = e.destutter (· ≠ ·) := by
  simp only [parseDeletionVectorBlob_iff, decodeDeletionVectorPayload_iff, readDeletionVector_iff,
    readDeletionVectorCharged_iff]
  refine ⟨?_, ?_, ?_, fun positions => ?_, fun positions => ?_⟩
  · constructor
    · rintro ⟨_, ps, hps, hfits, -, rfl⟩
      exact ⟨_, ps, hps, hfits, by simp [Granted], rfl⟩
    · rintro ⟨_, ps, hps, hfits, -, rfl⟩
      exact ⟨_, ps, hps, hfits, by simp [Granted], rfl⟩
  · constructor
    · rintro ⟨_, ps, hps, hfits, hgranted, rfl⟩
      exact ⟨hgranted, _, ps, hps, hfits, by simp [Granted], rfl⟩
    · rintro ⟨hgranted, _, ps, hps, hfits, -, rfl⟩
      exact ⟨_, ps, hps, hfits, hgranted, rfl⟩
  · rintro _ _ ⟨ps, hps, -, -, rfl⟩ ⟨qs, hqs, -, -, rfl⟩
    obtain rfl : ps = qs := Option.some.inj (hps.symm.trans hqs)
    rw [length_finish_kept]
    refine ⟨(List.length_insertionSort _ ps).symm, fun hgranted => ?_⟩
    exact ⟨_, ⟨ps, hps, le_rfl, hgranted, rfl⟩, rfl, rfl⟩
  · constructor
    · rintro ⟨hbytes, hpositions, hlength, ps, hps, hfits, hgranted, rfl⟩
      refine ⟨hbytes, hpositions, hlength, _, ⟨ps, hps, hfits, by simp [Granted], rfl⟩, ?_, rfl⟩
      rwa [← List.length_insertionSort (· ≤ ·) ps] at hgranted
    · rintro ⟨hbytes, hpositions, hlength, _, ⟨ps, hps, hfits, -, rfl⟩, hgranted, rfl⟩
      refine ⟨hbytes, hpositions, hlength, ps, hps, hfits, ?_, rfl⟩
      rwa [← List.length_insertionSort (· ≤ ·) ps]
  · constructor
    · rintro ⟨hcount, ps, hps, hlength, hgranted, rfl⟩
      refine ⟨_, ⟨hcount, ps, hps, hlength.le, rfl⟩, ?_, ?_, rfl⟩
      · rwa [List.length_insertionSort]
      · rwa [List.length_insertionSort]
    · rintro ⟨_, ⟨hcount, ps, hps, -, rfl⟩, hlength, hgranted, rfl⟩
      rw [List.length_insertionSort] at hlength hgranted
      exact ⟨hcount, ps, hps, hlength, hgranted, rfl⟩

/-- A payload of two bitmaps under the key 0, both `{5}`. -/
def repeatedKeyPayload : List UInt8 :=
  [0, 0, 0, 56, 0xD1, 0xD3, 0x39, 0x64, 2, 0, 0, 0, 0, 0, 0, 0, 0, 0, 0, 0, 0x3A, 0x30, 0, 0,
    1, 0, 0, 0, 0, 0, 0, 0, 16, 0, 0, 0, 5, 0, 0, 0, 0, 0, 0x3A, 0x30, 0, 0,
    1, 0, 0, 0, 0, 0, 0, 0, 16, 0, 0, 0, 5, 0, 197, 198, 108, 121]

/-- The eager decode keeps the position that a repeated key repeats, the two-pass decode
has it once. -/
theorem repeated_key_lists_differ :
    (parseDeletionVectorBlob (fun d => min 18 d.length) .legacy 2 "payload" true (fun _ => none)
        repeatedKeyPayload).map (·.legacy) = .ok [5, 5] ∧
      decodeDeletionVectorPayload (fun d => min 18 d.length) (fun _ => none) repeatedKeyPayload
        ⟨64, 2⟩ = .ok [5] :=
  ⟨by decide +kernel, by decide +kernel⟩

end Sirius.Scan.Puffin
