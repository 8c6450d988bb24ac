import Sirius.Common.Bytes
import Sirius.Common.Checked

/-!
# The walker of a 32-bit portable Roaring bitmap

The model of `walk_roaring32` (src/op/scan/puffin_reader.cpp:206-311). A pointer into
the payload is the bytes from it to the end of the payload, and a read that goes past
that end is a `fault`. `end - p` is kept beside the pointer. Widths of 16 and 32 bits
are natural numbers: no sum here reaches `2^32`.

`roaring_bitmap_portable_deserialize_size` is a function of the bytes it is given and
stays a parameter, `size`.

* `walkRoaring32_ends`: whatever the bytes are, the walk reads inside the payload,
  leaves the remaining length its bytes, and calls `emit` at most `maxOut` times.
-/

namespace Sirius.Scan.Puffin

open Sirius.Common

/-- How a decode ends without a result. `fault` is what the language does not define:
a read outside the payload, an unsigned budget below zero, a write past the output. -/
inductive DecodeFailure where
  | runtimeError (message : String)
  | expansionLimit (message : String)
  | invalidArgument (message : String)
  | resourceError (message : String) (boundExceeded : Bool)
  | allocation (message : String)
  | fault
  deriving DecidableEq, Repr

/-- The failure that must not happen. -/
def DecodeFailure.IsFault (e : DecodeFailure) : Prop := e = .fault

/-- A fixed-width little-endian read (`read_u32_le`, `u16`, and the bytes of a word). -/
def readLe (width : ℕ) (p : List UInt8) : Except DecodeFailure ℕ :=
  if width ≤ p.length then .ok (leValue (p.take width)) else .error .fault

/-- `fail` (puffin_reader.cpp:219-222). -/
def inconsistent (reason : String) : DecodeFailure :=
  .runtimeError ("roaring: inconsistent bitmap in the deletion vector: " ++ reason)

/-- The pointer `p` and the distance `end - p`. -/
structure Cursor where
  p : List UInt8
  left : ℕ
  deriving DecidableEq, Repr

/-- `take` (puffin_reader.cpp:230-235). -/
def Cursor.take (c : Cursor) (bytes : ℕ) : Except DecodeFailure (List UInt8 × Cursor) :=
  if c.left < bytes then .error (inconsistent "container exceeds bitmap bounds")
  else .ok (c.p, ⟨c.p.drop bytes, c.left - bytes⟩)

/-! ## The header -/

/-- What the walker keeps of the header (puffin_reader.cpp:236-242). -/
structure Layout where
  containers : ℕ
  runBits : Option (List UInt8)
  headers : List UInt8
  payload : Cursor
  deriving DecidableEq, Repr

/-- The container count: in the run cookie, or in a word of its own. -/
def readContainers (cookie : ℕ) (c : Cursor) : Except DecodeFailure (ℕ × Cursor) :=
  if cookie &&& 0xffff = 12347 then .ok ((cookie >>> 16) + 1, c)
  else do
    let (q, c) ← c.take 4
    let containers ← readLe 4 q
    .ok (containers, c)

/-- The run flags, of a bitmap with the run cookie. -/
def readRunBits (cookie containers : ℕ) (c : Cursor) :
    Except DecodeFailure (Option (List UInt8) × Cursor) :=
  if cookie &&& 0xffff = 12347 then do
    let (bits, c) ← c.take ((containers + 7) / 8)
    .ok (some bits, c)
  else .ok (none, c)

/-- The offset header is skipped where the format has one. -/
def skipOffsets (cookie containers : ℕ) (c : Cursor) : Except DecodeFailure Cursor :=
  if cookie &&& 0xffff = 12347 ∧ containers < 4 then .ok c
  else do
    let (_, c) ← c.take (containers * 4)
    .ok c

def readLayout (c : Cursor) : Except DecodeFailure Layout := do
  let (q, c) ← c.take 4
  let cookie ← readLe 4 q
  let (containers, c) ← readContainers cookie c
  let (runBits, c) ← readRunBits cookie containers c
  let (headers, c) ← c.take (containers * 4)
  let c ← skipOffsets cookie containers c
  .ok ⟨containers, runBits, headers, c⟩

/-- One turn of the key check (puffin_reader.cpp:244-245). -/
def checkKey (headers : List UInt8) (_ : Unit) (i : ℕ) : Except DecodeFailure Unit := do
  let key ← readLe 2 (headers.drop (i * 4))
  let previous ← readLe 2 (headers.drop ((i - 1) * 4))
  if key ≤ previous then .error (inconsistent "keys not strictly increasing")
  else .ok ()

def checkKeys (l : Layout) : Except DecodeFailure Unit :=
  (List.range' 1 (l.containers - 1)).foldlM (checkKey l.headers) ()

/-! ## The containers -/

/-- `total`, and what `emit` has made of the values. -/
structure Tally (σ : Type) where
  total : ℕ
  out : σ
  deriving DecidableEq, Repr

section Walk

variable {σ : Type} (maxOut : ℕ) (emit : σ → ℕ → Except DecodeFailure σ) (materialize : Bool)

/-- `append` (puffin_reader.cpp:253-257). -/
def append (key : ℕ) (t : Tally σ) (low : ℕ) : Except DecodeFailure (Tally σ) :=
  if maxOut ≤ t.total then
    .error (inconsistent "decoded positions exceed the declared budget")
  else do
    let out ← emit t.out (key <<< 16 ||| low)
    .ok ⟨t.total + 1, out⟩

/-- The state of the loop over the runs of a container. -/
structure RunState (σ : Type) where
  cursor : Cursor
  tally : Tally σ
  previousEnd : ℕ

/-- One run of a run container (puffin_reader.cpp:262-275). -/
def walkRun (key : ℕ) (s : RunState σ) (_ : ℕ) : Except DecodeFailure (RunState σ) := do
  let (run, c) ← s.cursor.take 4
  let first ← readLe 2 run
  let length ← readLe 2 (run.drop 2)
  let stop := first + length + 1
  if 65536 < stop then .error (inconsistent "run start + length too large")
  else if first < s.previousEnd then .error (inconsistent "run start less than last end")
  else if first = s.previousEnd ∧ s.previousEnd ≠ 0 then
    .error (inconsistent "run start equal to last end, should have combined")
  else if materialize then do
    let t ← (List.range' first (stop - first)).foldlM (append maxOut emit key) s.tally
    .ok ⟨c, t, stop⟩
  else .ok ⟨c, ⟨s.tally.total + (stop - first), s.tally.out⟩, stop⟩

/-- A run container (puffin_reader.cpp:258-276). -/
def walkRuns (key : ℕ) (c : Cursor) (t : Tally σ) : Except DecodeFailure (Cursor × Tally σ) := do
  let (q, c) ← c.take 2
  let n ← readLe 2 q
  if n = 0 then .error (inconsistent "zero run count")
  else do
    let s ← (List.range n).foldlM (walkRun maxOut emit materialize key) ⟨c, t, 0⟩
    .ok (s.cursor, s.tally)

/-- The elements of an array container rise (puffin_reader.cpp:281-282). -/
def checkRising (values : List UInt8) (j value : ℕ) : Except DecodeFailure Unit :=
  if j = 0 then .ok ()
  else do
    let previous ← readLe 2 (values.drop ((j - 1) * 2))
    if value ≤ previous then .error (inconsistent "array elements not strictly increasing")
    else .ok ()

/-- One element of an array container. -/
def walkElement (key : ℕ) (values : List UInt8) (t : Tally σ) (j : ℕ) :
    Except DecodeFailure (Tally σ) := do
  let value ← readLe 2 (values.drop (j * 2))
  checkRising values j value
  if materialize then append maxOut emit key t value else .ok t

/-- An array container (puffin_reader.cpp:277-286). -/
def walkArray (key cardinality : ℕ) (c : Cursor) (t : Tally σ) :
    Except DecodeFailure (Cursor × Tally σ) := do
  let (values, c) ← c.take (cardinality * 2)
  let t ← (List.range cardinality).foldlM (walkElement maxOut emit materialize key values) t
  .ok (c, if materialize then t else ⟨t.total + cardinality, t.out⟩)

/-- `while (word)`: append the lowest set bit of the word and clear it
(puffin_reader.cpp:294-298). -/
def appendBits (key j : ℕ) (word : ℕ) (t : Tally σ) : Except DecodeFailure (Tally σ) :=
  if h : word = 0 then .ok t
  else do
    let t ← append maxOut emit key t (j * 64 + lowestSet 64 word)
    appendBits key j (word &&& (word - 1)) t
termination_by word
decreasing_by
  have hle : word &&& (word - 1) ≤ word - 1 := Nat.and_le_right
  omega

/-- The set bits of a word, in the walk that emits. -/
def visitWord (key j word : ℕ) (t : Tally σ) : Except DecodeFailure (Tally σ) :=
  if materialize then appendBits maxOut emit key j word t else .ok t

/-- One word of a bitmap container; the first part of the state is `actual`. -/
def walkWord (key : ℕ) (words : List UInt8) (s : ℕ × Tally σ) (j : ℕ) :
    Except DecodeFailure (ℕ × Tally σ) := do
  let word ← readLe 8 (words.drop (j * 8))
  let t ← visitWord maxOut emit materialize key j word s.2
  .ok (s.1 + (setBits 64 word).length, t)

/-- A bitmap container (puffin_reader.cpp:287-303). -/
def walkBitmap (key cardinality : ℕ) (c : Cursor) (t : Tally σ) :
    Except DecodeFailure (Cursor × Tally σ) := do
  let (words, c) ← c.take 8192
  let s ← (List.range 1024).foldlM (walkWord maxOut emit materialize key words) (0, t)
  if s.1 ≠ cardinality then .error (inconsistent "cardinality is incorrect")
  else .ok (c, if materialize then s.2 else ⟨s.2.total + s.1, s.2.out⟩)

/-- `run_bits && (run_bits[i / 8] & (1u << (i % 8)))`. -/
def isRun (runBits : Option (List UInt8)) (i : ℕ) : Except DecodeFailure Bool :=
  match runBits with
  | none => .ok false
  | some bits => do
    let b ← readLe 1 (bits.drop (i / 8))
    .ok (b.testBit (i % 8))

/-- One container (puffin_reader.cpp:250-304). -/
def walkContainer (l : Layout) (s : Cursor × Tally σ) (i : ℕ) :
    Except DecodeFailure (Cursor × Tally σ) := do
  let key ← readLe 2 (l.headers.drop (i * 4))
  let count ← readLe 2 (l.headers.drop (i * 4 + 2))
  let run ← isRun l.runBits i
  if run then walkRuns maxOut emit materialize key s.1 s.2
  else if count + 1 ≤ 4096 then walkArray maxOut emit materialize key (count + 1) s.1 s.2
  else walkBitmap maxOut emit materialize key (count + 1) s.1 s.2

/-- `walk` (puffin_reader.cpp:247-306). -/
def walk (l : Layout) (out : σ) : Except DecodeFailure (Cursor × Tally σ) :=
  (List.range l.containers).foldlM (walkContainer maxOut emit materialize l) (l.payload, ⟨0, out⟩)

/-- `walk_roaring32` (puffin_reader.cpp:206-311): the bytes consumed, after a walk that
counts and a walk that emits. -/
def walkRoaring32 (size : List UInt8 → ℕ) (data : List UInt8) (len : ℕ) (out : σ) :
    Except DecodeFailure (ℕ × σ) :=
  let consumed := size (data.take len)
  if consumed = 0 then
    .error (.runtimeError ("roaring: no valid portable-Roaring bitmap in the remaining " ++
      toString len ++ " bytes; the deletion vector is truncated or corrupt"))
  else do
    let l ← readLayout ⟨data, consumed⟩
    checkKeys l
    let counted ← walk maxOut emit false l out
    if maxOut < counted.2.total then
      .error (.expansionLimit ("roaring: decoded positions exceed the configured limit of " ++
        toString maxOut))
    else do
      let walked ← walk maxOut emit true l out
      .ok (consumed, walked.2.out)

end Walk

/-! ## Reads stay inside the payload -/

/-- A computation that returns a value meeting `Q` or throws, without a fault. -/
abbrev Sound {α : Type} (Q : α → Prop) (x : Except DecodeFailure α) : Prop :=
  Ends DecodeFailure.IsFault Q x

theorem inconsistent_not_fault (reason : String) : ¬(inconsistent reason).IsFault := by
  simp [inconsistent, DecodeFailure.IsFault]

/-- `end` is inside the payload. -/
def Cursor.Within (c : Cursor) : Prop := c.left ≤ c.p.length

theorem readLe_sound (width : ℕ) {p : List UInt8} (h : width ≤ p.length) :
    Sound (· < 256 ^ width) (readLe width p) := by
  rw [readLe, if_pos h]
  refine .ok ?_
  have hlt := leValue_lt (p.take width)
  rwa [List.length_take_of_le h] at hlt

variable {c : Cursor}

theorem take_sound (hc : c.Within) (bytes : ℕ) :
    Sound (fun r => bytes ≤ r.1.length ∧ r.2.Within) (c.take bytes) := by
  refine Ends.guard (inconsistent_not_fault _) fun hle => ?_
  simp only [Cursor.Within] at hc
  refine .ok ?_
  simp only [Cursor.Within, List.length_drop]
  omega

/-- The header's tables lie inside the payload. -/
structure Layout.Within (l : Layout) : Prop where
  headers : l.containers * 4 ≤ l.headers.length
  runBits : ∀ bits, l.runBits = some bits → (l.containers + 7) / 8 ≤ bits.length
  payload : l.payload.Within

theorem readContainers_sound {cookie : ℕ} (hc : c.Within) :
    Sound (fun r => r.2.Within) (readContainers cookie c) := by
  refine Ends.ite (fun _ => .ok hc) fun _ => ?_
  refine (take_sound hc 4).bind fun r hr => ?_
  exact (readLe_sound 4 hr.1).bind fun n _ => .ok hr.2

theorem readRunBits_sound {cookie containers : ℕ} (hc : c.Within) :
    Sound (fun r => (∀ bits, r.1 = some bits → (containers + 7) / 8 ≤ bits.length) ∧ r.2.Within)
      (readRunBits cookie containers c) := by
  refine Ends.ite (fun _ => ?_) fun _ => .ok ⟨by simp, hc⟩
  refine (take_sound hc _).bind fun r hr => .ok ⟨?_, hr.2⟩
  rintro bits ⟨rfl⟩
  exact hr.1

theorem skipOffsets_sound {cookie containers : ℕ} (hc : c.Within) :
    Sound Cursor.Within (skipOffsets cookie containers c) := by
  refine Ends.ite (fun _ => .ok hc) fun _ => ?_
  exact (take_sound hc _).bind fun r hr => .ok hr.2

theorem readLayout_sound (hc : c.Within) : Sound Layout.Within (readLayout c) := by
  refine (take_sound hc 4).bind fun q hq => ?_
  refine (readLe_sound 4 hq.1).bind fun cookie _ => ?_
  refine (readContainers_sound hq.2).bind fun n hn => ?_
  refine (readRunBits_sound hn).bind fun bits hbits => ?_
  refine (take_sound hbits.2 _).bind fun h hh => ?_
  refine (skipOffsets_sound hh.2).bind fun c' hc' => ?_
  exact .ok ⟨hh.1, hbits.1, hc'⟩

theorem checkKeys_sound {l : Layout} (hl : l.Within) : Sound (fun _ => True) (checkKeys l) := by
  refine Ends.foldlM (fun _ i hi _ => ?_) trivial
  have hbound : i < l.containers := by
    have := List.mem_range'_1.mp hi
    omega
  have hheaders := hl.headers
  have hkey : 2 ≤ (l.headers.drop (i * 4)).length := by
    rw [List.length_drop]
    omega
  have hprevious : 2 ≤ (l.headers.drop ((i - 1) * 4)).length := by
    rw [List.length_drop]
    omega
  refine (readLe_sound 2 hkey).bind fun key _ => ?_
  refine (readLe_sound 2 hprevious).bind fun previous _ => ?_
  exact Ends.guard (inconsistent_not_fault _) fun _ => .ok trivial

/-! ## The walk keeps what `emit` keeps

`K` is what holds of the tally. A walk that emits needs it of `append` on the low
halves it can read, a walk that counts needs it of the count. -/

section Keeps

variable {σ : Type} {maxOut : ℕ} {emit : σ → ℕ → Except DecodeFailure σ} {materialize : Bool}
  {K : Tally σ → Prop}

/-- The tally keeps `K` whichever of the two walks runs. -/
structure Keeps (maxOut : ℕ) (emit : σ → ℕ → Except DecodeFailure σ) (materialize : Bool)
    (K : Tally σ → Prop) : Prop where
  append : materialize = true → ∀ key < 65536, ∀ low < 65536, ∀ t, K t →
    Sound K (append maxOut emit key t low)
  count : materialize = false → ∀ t n, K t → K ⟨t.total + n, t.out⟩

variable {t : Tally σ}

theorem Keeps.foldlM (hK : Keeps maxOut emit materialize K) (hm : materialize = true) {key : ℕ}
    (hkey : key < 65536) {lows : List ℕ} (hlows : ∀ low ∈ lows, low < 65536)
    (ht : K t) : Sound K (lows.foldlM (Puffin.append maxOut emit key) t) :=
  Ends.foldlM (fun t low hlow ht => hK.append hm key hkey low (hlows low hlow) t ht) ht

theorem walkRun_sound (hK : Keeps maxOut emit materialize K) {key : ℕ} (hkey : key < 65536)
    {s : RunState σ} {j : ℕ} (hs : s.cursor.Within ∧ K s.tally) :
    Sound (fun s' => s'.cursor.Within ∧ K s'.tally) (walkRun maxOut emit materialize key s j) := by
  refine (take_sound hs.1 4).bind fun r hr => ?_
  refine (readLe_sound 2 (by omega)).bind fun first _ => ?_
  refine (readLe_sound 2 (by rw [List.length_drop]; omega)).bind fun length _ => ?_
  refine Ends.guard (inconsistent_not_fault _) fun hstop => ?_
  refine Ends.guard (inconsistent_not_fault _) fun _ => ?_
  refine Ends.guard (inconsistent_not_fault _) fun _ => ?_
  refine Ends.ite (fun hm => ?_) fun hm => ?_
  · refine (hK.foldlM hm hkey (fun low hlow => ?_) hs.2).bind fun t ht => .ok ⟨hr.2, ht⟩
    have := List.mem_range'_1.mp hlow
    omega
  · exact .ok ⟨hr.2, hK.count (by simpa using hm) _ _ hs.2⟩

theorem walkRuns_sound (hK : Keeps maxOut emit materialize K) {key : ℕ} (hkey : key < 65536)
    {c : Cursor} (hc : c.Within) (ht : K t) :
    Sound (fun s => s.1.Within ∧ K s.2) (walkRuns maxOut emit materialize key c t) := by
  refine (take_sound hc 2).bind fun r hr => ?_
  refine (readLe_sound 2 hr.1).bind fun n _ => ?_
  refine Ends.guard (inconsistent_not_fault _) fun _ => ?_
  refine (Ends.foldlM (I := fun s : RunState σ => s.cursor.Within ∧ K s.tally)
    (fun s j _ hs => walkRun_sound hK hkey hs) ⟨hr.2, ht⟩).bind fun s hs => ?_
  exact .ok hs

theorem walkArray_sound (hK : Keeps maxOut emit materialize K) {key cardinality : ℕ}
    (hkey : key < 65536) {c : Cursor} (hc : c.Within) (ht : K t) :
    Sound (fun s => s.1.Within ∧ K s.2) (walkArray maxOut emit materialize key cardinality c t) := by
  refine (take_sound hc _).bind fun r hr => ?_
  have hread : ∀ j < cardinality, 2 ≤ (r.1.drop (j * 2)).length := by
    intro j hj
    rw [List.length_drop]
    omega
  refine (Ends.foldlM (I := K) (fun t j hj ht => ?_) ht).bind fun t ht => .ok ⟨hr.2, ?_⟩
  · have hj := List.mem_range.mp hj
    refine (readLe_sound 2 (hread j hj)).bind fun value hvalue => ?_
    have hrising : Sound (fun _ => True) (checkRising r.1 j value) := by
      refine Ends.ite (fun _ => .ok trivial) fun _ => ?_
      refine (readLe_sound 2 (hread (j - 1) (by omega))).bind fun previous _ => ?_
      exact Ends.guard (inconsistent_not_fault _) fun _ => .ok trivial
    refine hrising.bind fun _ _ => ?_
    exact Ends.ite (fun hm => hK.append hm key hkey value hvalue t ht) fun _ => .ok ht
  · cases hm : materialize with
    | true => exact ht
    | false => exact hK.count hm _ _ ht

theorem lowestSet_lt {word : ℕ} (h : word ≠ 0) (hword : word < 2 ^ 64) :
    lowestSet 64 word < 64 := by
  have hmem : lowestSet 64 word ∈ setBits 64 word := by
    rw [setBits_eq_cons h hword]
    exact List.mem_cons_self
  exact (mem_setBits.mp hmem).1

theorem appendBits_sound (hK : Keeps maxOut emit materialize K) (hm : materialize = true)
    {key j : ℕ} (hkey : key < 65536) (hj : j < 1024) {word : ℕ} (hword : word < 2 ^ 64) (ht : K t) :
    Sound K (appendBits maxOut emit key j word t) := by
  induction word using Nat.strong_induction_on generalizing t with
  | _ word ih =>
    rw [appendBits]
    split_ifs with h
    · exact .ok ht
    · have hlow := lowestSet_lt h hword
      have hle : word &&& (word - 1) ≤ word - 1 := Nat.and_le_right
      refine (hK.append hm key hkey _ (by omega) t ht).bind fun t' ht' => ?_
      exact ih _ (by omega) (by omega) ht'

theorem walkWords_sound (hK : Keeps maxOut emit materialize K) {key n : ℕ} (hkey : key < 65536)
    (hn : n ≤ 1024) {words : List UInt8} (hwords : n * 8 ≤ words.length) {s : ℕ × Tally σ}
    (hs : K s.2) :
    Sound (fun s => K s.2)
      ((List.range n).foldlM (walkWord maxOut emit materialize key words) s) := by
  refine Ends.foldlM (fun s j hj hs => ?_) hs
  have hj := List.mem_range.mp hj
  refine (readLe_sound 8 (by rw [List.length_drop]; omega)).bind fun word hword => ?_
  have hbits : Sound K (visitWord maxOut emit materialize key j word s.2) :=
    Ends.ite (fun hm => appendBits_sound hK hm hkey (by omega) (by simpa using hword) hs)
      fun _ => .ok hs
  exact hbits.bind fun t' ht' => .ok ht'

theorem walkBitmap_sound (hK : Keeps maxOut emit materialize K) {key cardinality : ℕ}
    (hkey : key < 65536) {c : Cursor} (hc : c.Within) (ht : K t) :
    Sound (fun s => s.1.Within ∧ K s.2)
      (walkBitmap maxOut emit materialize key cardinality c t) := by
  unfold walkBitmap
  refine (take_sound hc 8192).bind ?_
  rintro ⟨words, c'⟩ ⟨hlen, hc'⟩
  refine (walkWords_sound hK hkey le_rfl hlen ht).bind fun s hs => ?_
  refine Ends.guard (inconsistent_not_fault _) fun _ => .ok ⟨hc', ?_⟩
  cases hm : materialize with
  | true => exact hs
  | false => exact hK.count hm _ _ hs

theorem walkContainer_sound (hK : Keeps maxOut emit materialize K) {l : Layout} (hl : l.Within)
    {s : Cursor × Tally σ} {i : ℕ} (hi : i < l.containers) (hs : s.1.Within ∧ K s.2) :
    Sound (fun s' => s'.1.Within ∧ K s'.2) (walkContainer maxOut emit materialize l s i) := by
  have hheaders := hl.headers
  refine (readLe_sound 2 (by rw [List.length_drop]; omega)).bind fun key hkey => ?_
  refine (readLe_sound 2 (by rw [List.length_drop]; omega)).bind fun count _ => ?_
  have hrun : Sound (fun _ => True) (isRun l.runBits i) := by
    cases hbits : l.runBits with
    | none => exact .ok trivial
    | some bits =>
      have hlen := hl.runBits bits hbits
      exact (readLe_sound 1 (by rw [List.length_drop]; omega)).bind fun _ _ => .ok trivial
  refine hrun.bind fun run _ => ?_
  refine Ends.ite (fun _ => walkRuns_sound hK hkey hs.1 hs.2) fun _ => ?_
  exact Ends.ite (fun _ => walkArray_sound hK hkey hs.1 hs.2)
    fun _ => walkBitmap_sound hK hkey hs.1 hs.2

theorem walk_sound (hK : Keeps maxOut emit materialize K) {l : Layout} (hl : l.Within) {out : σ}
    (hout : K ⟨0, out⟩) :
    Sound (fun s => s.1.Within ∧ K s.2) (walk maxOut emit materialize l out) :=
  Ends.foldlM (fun _ _ hi hs => walkContainer_sound hK hl (List.mem_range.mp hi) hs)
    ⟨hl.payload, hout⟩

end Keeps

/-- **The walk of arbitrary bytes.** With `I t out` kept by `emit` below the budget, the
walk throws or consumes part of its `len` bytes and leaves `I` after the values it
emitted, at most `maxOut`. -/
theorem walkRoaring32_ends {σ : Type} {maxOut : ℕ} {emit : σ → ℕ → Except DecodeFailure σ}
    {size : List UInt8 → ℕ} (hsize : ∀ d, size d ≤ d.length) {I : ℕ → σ → Prop}
    (hemit : ∀ t out v, t < maxOut → v < 2 ^ 32 → I t out → Sound (I (t + 1)) (emit out v))
    {data : List UInt8} {len : ℕ} (hlen : len ≤ data.length) {out : σ} (hout : I 0 out) :
    Sound (fun r => r.1 ≤ len ∧ ∃ t, t ≤ maxOut ∧ I t r.2)
      (walkRoaring32 maxOut emit size data len out) := by
  have hconsumed : size (data.take len) ≤ len := by
    have := hsize (data.take len)
    rwa [List.length_take_of_le hlen] at this
  refine Ends.guard (by simp [DecodeFailure.IsFault]) fun _ => ?_
  have hc : Cursor.Within ⟨data, size (data.take len)⟩ := hconsumed.trans hlen
  refine (readLayout_sound hc).bind fun l hl => ?_
  refine (checkKeys_sound hl).bind fun _ _ => ?_
  have hcount : Keeps maxOut emit false fun _ => True := ⟨by simp, fun _ _ _ _ => trivial⟩
  refine (walk_sound hcount hl trivial).bind fun counted _ => ?_
  refine Ends.guard (by simp [DecodeFailure.IsFault]) fun _ => ?_
  have hkeep : Keeps maxOut emit true fun t => t.total ≤ maxOut ∧ I t.total t.out := by
    refine ⟨fun _ key hkey low hlow t ht => ?_, by simp⟩
    refine Ends.guard (inconsistent_not_fault _) fun hbudget => ?_
    have hvalue : key <<< 16 ||| low < 2 ^ 32 :=
      Nat.or_lt_two_pow (by rw [Nat.shiftLeft_eq]; omega) (by omega)
    refine (hemit t.total t.out _ (by omega) hvalue ht.2).bind fun out' hout' => ?_
    exact .ok ⟨by simp only; omega, hout'⟩
  refine (walk_sound hkeep hl ⟨Nat.zero_le _, hout⟩).bind fun walked hwalked => ?_
  exact .ok ⟨hconsumed, walked.2.total, hwalked.2⟩

end Sirius.Scan.Puffin
