import Sirius.Common.Checked
import Sirius.Common.Bytes

/-!
# The metadata of a Puffin container

Model of `read_footer_bounds` and `validate_container_metadata`
(`src/op/scan/puffin_reader.cpp`). A footer is the JSON value that yyjson returns: integers are
stored in 64 bits, with or without a sign. A sum of two `int64_t` that leaves the range is an
error of its own, `overflow`, which the source does not check for.

* `validateContainerMetadata`: the checks, in the order of the source.
* `container_blobs_separate`: what an accepted footer says about its blobs.
* `container_blobs_in_file`: the same with the footer that `read_footer_bounds` finds.
-/

namespace Sirius.Scan.Puffin

open Sirius.Common

/-- The value that yyjson returns. -/
inductive Json where
  | null
  | bool (b : Bool)
  | uint (n : UInt64)
  | sint (n : Int64)
  | real
  | str (s : String)
  | arr (elements : List Json)
  | obj (members : List (String × Json))

/-- A `std::runtime_error`, a `preparation_resource_error`, a failed read, and signed overflow. -/
inductive Error where
  | malformed (message : String)
  | overLimit (message : String)
  | readerIo (message : String)
  | overflow
  deriving DecidableEq, Repr

/-! ## The footer -/

/-- `puffin_byte_source`: whether a seek succeeds, and the bytes of a read at an offset. -/
structure ByteSource where
  seek : ℤ → Bool
  read : ℤ → ℕ → Option (List UInt8)

/-- `puffin_footer_bounds`. -/
structure FooterBounds where
  start : ℤ
  payloadSize : ℕ
  deriving DecidableEq, Repr

/-- `static_cast<int32_t>(read_u32_le(tail))`. -/
def readI32 (bytes : List UInt8) : ℤ :=
  let n := leValue (bytes.take 4)
  if n < 2 ^ 31 then n else n - 2 ^ 32

/-- `read_footer_bounds` (lines 519–558). -/
def readFooterBounds (source : ByteSource) (fileSize : Int64) (path : String)
    (puffinMagic : List UInt8) (strictFlags : Bool) : Except Error FooterBounds :=
  if fileSize.toInt < 12 + 8 then
    .error (.malformed ("[puffin] File too small to hold a footer: " ++ path))
  else if !source.seek (fileSize.toInt - 12) then
    .error (.readerIo ("[puffin] Cannot seek to footer tail of " ++ path))
  else match source.read (fileSize.toInt - 12) 12 with
  | none => .error (.readerIo ("[puffin] Cannot read footer tail of " ++ path))
  | some tail =>
    let payloadSize := readI32 tail
    if payloadSize < 0 ∨ payloadSize + 12 + 4 > fileSize.toInt then
      .error (.malformed ("[puffin] Footer payload size " ++ toString payloadSize ++
        " does not fit in " ++ path))
    else if (tail.getD 4 0) &&& 1 ≠ 0 then
      .error (.malformed ("[puffin] Footer of " ++ path ++
        " is compressed, so its blob descriptors cannot be checked"))
    else if strictFlags ∧ ((tail.drop 4).take 4).any (· ≠ 0) then
      .error (.malformed ("[puffin] Unsupported footer flags in " ++ path))
    else
      let footerStart := fileSize.toInt - 12 - payloadSize - 4
      if !source.seek footerStart then
        .error (.readerIo ("[puffin] Cannot seek to footer magic of " ++ path))
      else if source.read footerStart 4 ≠ some puffinMagic then
        .error (.malformed ("[puffin] Missing footer magic in " ++ path))
      else .ok ⟨footerStart, payloadSize.toNat⟩

/-- The footer ends the file, so that its offset is an `int64_t`, and starts with its magic. -/
theorem readFooterBounds_start {source : ByteSource} {fileSize : Int64} {path : String}
    {puffinMagic : List UInt8} {strictFlags : Bool} {bounds : FooterBounds}
    (h : readFooterBounds source fileSize path puffinMagic strictFlags = .ok bounds) :
    0 ≤ bounds.start ∧ bounds.start + bounds.payloadSize + 16 = fileSize.toInt ∧
      source.read bounds.start 4 = some puffinMagic := by
  unfold readFooterBounds at h
  simp only [ite_error_eq_ok] at h
  obtain ⟨-, -, h⟩ := h
  split at h
  · cases h
  · simp only [ite_error_eq_ok, Except.ok.injEq, not_or, not_lt] at h
    obtain ⟨⟨hnonneg, hfits⟩, -, -, -, hmagic, rfl⟩ := h
    refine ⟨?_, ?_, not_not.mp hmagic⟩
    · show 0 ≤ fileSize.toInt - 12 - _ - 4
      omega
    · show fileSize.toInt - 12 - _ - 4 + ((readI32 _).toNat : ℤ) + 16 = _
      rw [Int.toNat_of_nonneg hnonneg]
      omega

/-! ## Metadata -/

/-- `json_member`: the first member with the key. -/
def jsonMember (object : Json) (key : String) : Option Json :=
  match object with
  | .obj members => members.lookup key
  | _ => none

/-- `validate_metadata_object`. The member that `json_member` finds for a key is another one exactly
    if the key was there before. -/
def validateMetadataObject : Json → Except Error Unit
  | .obj members =>
    if members.length > 128 then
      .error (.overLimit "Puffin metadata object exceeds key limit")
    else if ¬ (members.map Prod.fst).Nodup then
      .error (.malformed "[puffin] Duplicate metadata key")
    else .ok ()
  | _ => .error (.malformed "[puffin] Metadata entry is not an object")

def Json.isStr : Json → Bool
  | .str _ => true
  | _ => false

def Json.isNull : Json → Bool
  | .null => true
  | _ => false

/-- The members that `yyjson_obj_foreach` visits. -/
def Json.members : Json → List (String × Json)
  | .obj members => members
  | _ => []

/-- `validate_properties`. -/
def validateProperties : Option Json → Except Error Unit
  | none => .ok ()
  | some properties => do
    validateMetadataObject properties
    if properties.members.any fun member => !member.2.isStr then
      .error (.malformed "[puffin] Property is not a string")
    else .ok ()

/-- `metadata_integer`. -/
def metadataInteger : Option Json → Except Error ℤ
  | some (.uint n) =>
    if n.toNat > 2 ^ 63 - 1 then
      .error (.malformed "[puffin] Metadata integer is missing or out of range")
    else .ok n.toNat
  | some (.sint n) => .ok n.toInt
  | _ => .error (.malformed "[puffin] Metadata integer is missing or out of range")

/-- The sum of two `int64_t`. -/
def addI64 (a b : ℤ) : Except Error ℤ :=
  if a + b < -2 ^ 63 ∨ 2 ^ 63 ≤ a + b then .error .overflow else .ok (a + b)

/-- The condition of lines 973 and 974. -/
def overlaps (offset length otherOffset otherLength : ℤ) : Except Error Bool :=
  if offset = otherOffset then .ok true
  else do
    let otherEnd ← addI64 otherOffset otherLength
    if offset < otherEnd then
      let blobEnd ← addI64 offset length
      .ok (otherOffset < blobEnd)
    else .ok false

/-- One round of the inner loop (lines 970–975). -/
def checkOther (offset length : ℤ) (other : Json) : Except Error Unit := do
  let otherOffset ← metadataInteger (jsonMember other "offset")
  let otherLength ← metadataInteger (jsonMember other "length")
  let overlap ← overlaps offset length otherOffset otherLength
  if overlap then .error (.malformed "[puffin] Blob descriptors overlap or repeat an offset")
  else .ok ()

/-- The checks of a blob alone (lines 945–965), with its offset and its length. -/
def validateBlob (footerStart : ℤ) (blob : Json) : Except Error (ℤ × ℤ) := do
  validateMetadataObject blob
  if ((jsonMember blob "type").map Json.isStr).getD false = false then
    .error (.malformed "[puffin] Blob has no string type")
  else
    let offset ← metadataInteger (jsonMember blob "offset")
    let length ← metadataInteger (jsonMember blob "length")
    if offset < 4 ∨ offset > footerStart ∨ length < 0 ∨ length > footerStart - offset then
      .error (.malformed "[puffin] Blob lies outside the container data section")
    else
      let _ ← metadataInteger (jsonMember blob "snapshot-id")
      let _ ← metadataInteger (jsonMember blob "sequence-number")
      match jsonMember blob "fields" with
      | some (.arr fields) =>
        if fields.length > 4096 then
          .error (.overLimit "Puffin field list exceeds limit")
        else
          let _ ← fields.mapM fun field => metadataInteger (some field)
          if ((jsonMember blob "compression-codec").map fun codec =>
              codec.isNull || codec.isStr).getD true = false then
            .error (.malformed "[puffin] Blob compression codec is not a string or null")
          else
            validateProperties (jsonMember blob "properties")
            .ok (offset, length)
      | _ => .error (.malformed "[puffin] Blob fields is not an integer array")

/-- The loop over the blobs; `before` are those with a smaller index. -/
def validateBlobs (footerStart : ℤ) : List Json → List Json → Except Error Unit
  | _, [] => .ok ()
  | before, blob :: rest => do
    let (offset, length) ← validateBlob footerStart blob
    let _ ← before.mapM (checkOther offset length)
    validateBlobs footerStart (before ++ [blob]) rest

/-- `validate_container_metadata` (lines 932–979). -/
def validateContainerMetadata (root : Json) (footerStart : ℤ) (maxBlobs : ℕ) :
    Except Error Unit := do
  validateMetadataObject root
  validateProperties (jsonMember root "properties")
  match jsonMember root "blobs" with
  | some (.arr blobs) =>
    if blobs.length > maxBlobs then
      .error (.overLimit "Puffin metadata exceeds blob limit")
    else validateBlobs footerStart [] blobs
  | _ => .error (.malformed "[puffin] Footer has no blobs array")

/-! ## Accepted containers -/

/-- The offset and the length of a blob, as the source reads them. -/
def extent (blob : Json) : Except Error (ℤ × ℤ) := do
  let offset ← metadataInteger (jsonMember blob "offset")
  let length ← metadataInteger (jsonMember blob "length")
  .ok (offset, length)

/-- The blob lies in the bytes from 4 up to the footer. -/
def InSection (footerStart : ℤ) (e : ℤ × ℤ) : Prop :=
  4 ≤ e.1 ∧ 0 ≤ e.2 ∧ e.1 + e.2 ≤ footerStart

/-- One blob ends before the other begins. -/
def Apart (a b : ℤ × ℤ) : Prop := a.1 + a.2 ≤ b.1 ∨ b.1 + b.2 ≤ a.1

/-- Signed overflow. -/
def Overflows (e : Error) : Prop := e = .overflow

theorem ends_validateMetadataObject (object : Json) :
    Ends Overflows (fun _ => True) (validateMetadataObject object) := by
  cases object with
  | obj members =>
    unfold validateMetadataObject
    exact .guard nofun fun _ => .guard nofun fun _ => .ok trivial
  | _ => exact .error nofun

theorem ends_validateProperties (properties : Option Json) :
    Ends Overflows (fun _ => True) (validateProperties properties) := by
  cases properties with
  | none => exact .ok trivial
  | some properties =>
    unfold validateProperties
    refine (ends_validateMetadataObject properties).bind fun _ _ => ?_
    exact .guard nofun fun _ => .ok trivial

theorem ends_metadataInteger (value : Option Json) :
    Ends Overflows (fun n => metadataInteger value = .ok n) (metadataInteger value) := by
  refine .self fun e he => ?_
  unfold metadataInteger at he
  split at he
  · split_ifs at he
    cases he
    exact nofun
  · cases he
  · cases he
    exact nofun

variable {footerStart : ℤ}

theorem ends_validateBlob (blob : Json) :
    Ends Overflows (fun e => extent blob = .ok e ∧ InSection footerStart e)
      (validateBlob footerStart blob) := by
  unfold validateBlob
  refine (ends_validateMetadataObject blob).bind fun _ _ => ?_
  refine .guard nofun fun _ => ?_
  refine (ends_metadataInteger _).bind fun offset hoffset => ?_
  refine (ends_metadataInteger _).bind fun length hlength => ?_
  refine .guard nofun fun hrange => ?_
  refine (ends_metadataInteger _).bind fun _ _ => ?_
  refine (ends_metadataInteger _).bind fun _ _ => ?_
  split
  · refine .guard nofun fun _ => ?_
    refine (Ends.mapM fun field _ => ends_metadataInteger (some field)).bind fun _ _ => ?_
    refine .guard nofun fun _ => ?_
    refine (ends_validateProperties _).bind fun _ _ => .ok ⟨?_, ?_⟩
    · rw [extent, hoffset, ok_bind, hlength, ok_bind]
    · unfold InSection
      omega
  · exact .error nofun

/-- The sums of two blobs inside the section do not overflow. -/
theorem ends_overlaps {footerStart offset length otherOffset otherLength : ℤ}
    (hstart : footerStart < 2 ^ 63) (h : InSection footerStart (offset, length))
    (ho : InSection footerStart (otherOffset, otherLength)) :
    Ends Overflows (fun overlap => overlap = false → Apart (otherOffset, otherLength)
      (offset, length)) (overlaps offset length otherOffset otherLength) := by
  obtain ⟨h1, h2, h3⟩ := h
  obtain ⟨ho1, ho2, ho3⟩ := ho
  dsimp only at h1 h2 h3 ho1 ho2 ho3
  have hadd : addI64 offset length = .ok (offset + length) := if_neg (by omega)
  have hother : addI64 otherOffset otherLength = .ok (otherOffset + otherLength) :=
    if_neg (by omega)
  unfold overlaps
  refine .ite (fun _ => .ok nofun) fun hne => ?_
  rw [hother, ok_bind]
  refine .ite (fun hlt => ?_) fun hge => .ok fun _ => .inl (by dsimp only; omega)
  rw [hadd, ok_bind]
  refine .ok fun hfalse => .inr ?_
  simpa using hfalse

theorem ends_checkOther {e other : ℤ × ℤ} {blob : Json} (hstart : footerStart < 2 ^ 63)
    (h : InSection footerStart e) (ho : InSection footerStart other)
    (hextent : extent blob = .ok other) :
    Ends Overflows (fun _ => Apart other e) (checkOther e.1 e.2 blob) := by
  simp only [extent, bind_eq_ok, Except.ok.injEq] at hextent
  obtain ⟨otherOffset, hoffset, otherLength, hlength, rfl⟩ := hextent
  unfold checkOther
  rw [hoffset, ok_bind, hlength, ok_bind]
  refine (ends_overlaps hstart h ho).bind fun overlap hoverlap => ?_
  refine .guard nofun fun hfalse => .ok ?_
  exact hoverlap (by simpa using hfalse)

/-- The blobs of an array with their extents. -/
def HasExtents : List Json → List (ℤ × ℤ) → Prop :=
  List.Forall₂ fun blob e => extent blob = .ok e

theorem ends_checkOthers {e : ℤ × ℤ} {before : List Json} {extents : List (ℤ × ℤ)}
    (hstart : footerStart < 2 ^ 63) (h : InSection footerStart e)
    (hextents : HasExtents before extents) (hall : ∀ x ∈ extents, InSection footerStart x) :
    Ends Overflows (fun _ => ∀ x ∈ extents, Apart x e) (before.mapM (checkOther e.1 e.2)) := by
  induction hextents with
  | nil => exact .ok nofun
  | @cons blob x before extents hx _ ih =>
    rw [List.mapM_cons]
    refine (ends_checkOther hstart h (hall x List.mem_cons_self) hx).bind fun _ hfirst => ?_
    refine (ih fun y hy => hall y (List.mem_cons_of_mem x hy)).bind fun _ hrest => .ok ?_
    exact List.forall_mem_cons.mpr ⟨hfirst, hrest⟩

/-- The loop keeps the blobs that it has passed apart. -/
theorem ends_validateBlobs (hstart : footerStart < 2 ^ 63) {before rest : List Json}
    {extents : List (ℤ × ℤ)} (hextents : HasExtents before extents)
    (hall : ∀ e ∈ extents, InSection footerStart e) (hapart : extents.Pairwise Apart) :
    Ends Overflows (fun _ => ∃ extents', HasExtents (before ++ rest) extents' ∧
        (∀ e ∈ extents', InSection footerStart e) ∧ extents'.Pairwise Apart)
      (validateBlobs footerStart before rest) := by
  induction rest generalizing before extents with
  | nil =>
    refine .ok ⟨extents, ?_, hall, hapart⟩
    rwa [List.append_nil]
  | cons blob rest ih =>
    unfold validateBlobs
    refine (ends_validateBlob blob).bind fun e he => ?_
    refine (ends_checkOthers hstart he.2 hextents hall).bind fun _ hothers => ?_
    have hpassed : HasExtents (before ++ [blob]) (extents ++ [e]) :=
      List.rel_append hextents (.cons he.1 .nil)
    have hnext := ih hpassed ?_ ?_
    · rwa [List.append_assoc] at hnext
    · intro x hx
      rcases List.mem_append.mp hx with hx | hx
      · exact hall x hx
      · rw [List.mem_singleton.mp hx]
        exact he.2
    · refine List.pairwise_append.mpr ⟨hapart, List.pairwise_singleton _ _, fun x hx y hy => ?_⟩
      rw [List.mem_singleton.mp hy]
      exact hothers x hx

/-- What the extents of an accepted container are. -/
def Separate (root : Json) (footerStart : ℤ) : Prop :=
  ∃ blobs extents, jsonMember root "blobs" = some (.arr blobs) ∧ HasExtents blobs extents ∧
    (∀ e ∈ extents, InSection footerStart e) ∧ extents.Pairwise Apart

theorem ends_validateContainerMetadata (root : Json) (hstart : footerStart < 2 ^ 63)
    (maxBlobs : ℕ) :
    Ends Overflows (fun _ => Separate root footerStart)
      (validateContainerMetadata root footerStart maxBlobs) := by
  unfold validateContainerMetadata
  refine (ends_validateMetadataObject root).bind fun _ _ => ?_
  refine (ends_validateProperties _).bind fun _ _ => ?_
  split
  · next blobs hblobs =>
    refine .guard nofun fun _ => ?_
    have hloop : Ends Overflows _ (validateBlobs footerStart [] blobs) :=
      ends_validateBlobs hstart .nil nofun .nil
    exact hloop.mono fun _ ⟨extents, hextents, hall, hapart⟩ =>
      ⟨blobs, extents, hblobs, hextents, hall, hapart⟩
  · exact .error nofun

/-- **The check of a container never overflows, and when it accepts, every blob lies between byte 4
    and the footer and no two of them overlap**, for every JSON value and every footer offset. -/
theorem container_blobs_separate (root : Json) (footerStart : Int64) (maxBlobs : ℕ) :
    validateContainerMetadata root footerStart.toInt maxBlobs ≠ .error .overflow ∧
      (validateContainerMetadata root footerStart.toInt maxBlobs = .ok () →
        Separate root footerStart.toInt) := by
  have hends := ends_validateContainerMetadata root footerStart.toInt_lt maxBlobs
  refine ⟨fun herror => ?_, fun hok => hends.of_eq_ok hok⟩
  rw [herror] at hends
  cases hends with
  | error hbad => exact hbad rfl

/-- A deletion vector and an empty blob right after it. -/
def twoBlobs : Json :=
  let blob (offset length : UInt64) : Json := .obj [("type", .str "deletion-vector-v1"),
    ("offset", .uint offset), ("length", .uint length), ("snapshot-id", .sint (-1)),
    ("sequence-number", .sint (-1)), ("fields", .arr [.uint 2147483546])]
  .obj [("blobs", .arr [blob 44 0, blob 4 40])]

theorem two_blobs_separate :
    validateContainerMetadata twoBlobs 44 16 = .ok () ∧ Separate twoBlobs 44 := by
  have hok : validateContainerMetadata twoBlobs 44 16 = .ok () := by rfl
  exact ⟨hok, (container_blobs_separate twoBlobs 44 16).2 hok⟩

/-- **The parts of a Puffin file.** In a file whose footer `read_footer_bounds` found and whose
    metadata is accepted, the blobs lie apart between byte 4 and the footer, which starts with
    the magic inside the file and, with the magic, the payload and the last 12 bytes, ends it. -/
theorem container_blobs_in_file {source : ByteSource} {fileSize : Int64} {path : String}
    {puffinMagic : List UInt8} {strictFlags : Bool} {bounds : FooterBounds} {root : Json}
    {maxBlobs : ℕ} (h : readFooterBounds source fileSize path puffinMagic strictFlags = .ok bounds)
    (hok : validateContainerMetadata root bounds.start maxBlobs = .ok ()) :
    Separate root bounds.start ∧ 0 ≤ bounds.start ∧
      bounds.start + bounds.payloadSize + 16 = fileSize.toInt ∧
      source.read bounds.start 4 = some puffinMagic := by
  have hbounds := readFooterBounds_start h
  have hsize := fileSize.toInt_lt
  refine ⟨(ends_validateContainerMetadata root ?_ maxBlobs).of_eq_ok hok, hbounds⟩
  omega

/-- A file of 63 bytes with a payload of three bytes. -/
def sixtyThreeBytes : ByteSource where
  seek _ := true
  read offset _ := some (if offset = 51 then 3 :: List.replicate 11 0 else [80, 70, 65, 49])

theorem container_blobs_in_sixtyThreeBytes :
    readFooterBounds sixtyThreeBytes 63 "f" [80, 70, 65, 49] true = .ok ⟨44, 3⟩ ∧
      Separate twoBlobs 44 ∧ 44 + (3 : ℕ) + 16 = (63 : Int64).toInt := by
  have hbounds : readFooterBounds sixtyThreeBytes 63 "f" [80, 70, 65, 49] true =
      .ok ⟨44, 3⟩ := by rfl
  have hok : validateContainerMetadata twoBlobs 44 16 = .ok () := by rfl
  obtain ⟨hseparate, -, hsize, -⟩ := container_blobs_in_file hbounds hok
  exact ⟨hbounds, hseparate, hsize⟩

end Sirius.Scan.Puffin
