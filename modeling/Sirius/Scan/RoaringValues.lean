import Sirius.Common.Gather
import Sirius.Scan.RoaringFormat

/-!
# The values of a 32-bit Roaring bitmap

`walk_roaring32` (src/op/scan/puffin_reader.cpp:206-311) goes over a bitmap twice, once
to count and once to emit. Here the bitmap is read once, into the list of its values:
`roaringValues` has the checks of the walk and neither its budget nor its output.

* `walk_iff`: a walk that counts adds the number of values, a walk that emits appends
  them in order, and each returns only where the reader does.
* `walkRoaring32_iff`: the whole walk returns exactly when the reader does, the values
  fit the budget and `emit` takes them.
-/

namespace Sirius.Scan.Puffin

open Sirius.Common

/-! ## The reader -/

/-- One run: the cursor and the end of the run after it, and the run's values. -/
def readRun (key : ℕ) (s : Cursor × ℕ) (_ : ℕ) :
    Except DecodeFailure ((Cursor × ℕ) × List ℕ) := do
  let (run, c) ← s.1.take 4
  let first ← readLe 2 run
  let length ← readLe 2 (run.drop 2)
  let stop := first + length + 1
  if 65536 < stop then .error (inconsistent "run start + length too large")
  else if first < s.2 then .error (inconsistent "run start less than last end")
  else if first = s.2 ∧ s.2 ≠ 0 then
    .error (inconsistent "run start equal to last end, should have combined")
  else .ok ((c, stop), (List.range' first (stop - first)).map (key <<< 16 ||| ·))

/-- A run container. -/
def readRuns (key : ℕ) (c : Cursor) : Except DecodeFailure (Cursor × List ℕ) := do
  let (q, c) ← c.take 2
  let n ← readLe 2 q
  if n = 0 then .error (inconsistent "zero run count")
  else do
    let (s, values) ← gather (readRun key) (c, 0) (List.range n)
    .ok (s.1, values)

/-- One element of an array container. -/
def readElement (key : ℕ) (values : List UInt8) (_ : Unit) (j : ℕ) :
    Except DecodeFailure (Unit × List ℕ) := do
  let value ← readLe 2 (values.drop (j * 2))
  checkRising values j value
  .ok ((), [key <<< 16 ||| value])

/-- An array container. -/
def readArray (key cardinality : ℕ) (c : Cursor) : Except DecodeFailure (Cursor × List ℕ) := do
  let (values, c) ← c.take (cardinality * 2)
  let (_, values) ← gather (readElement key values) () (List.range cardinality)
  .ok (c, values)

/-- One word of a bitmap container, with the count of the bits so far. -/
def readWord (key : ℕ) (words : List UInt8) (actual j : ℕ) :
    Except DecodeFailure (ℕ × List ℕ) := do
  let word ← readLe 8 (words.drop (j * 8))
  .ok (actual + (setBits 64 word).length,
    ((setBits 64 word).map (j * 64 + ·)).map (key <<< 16 ||| ·))

/-- A bitmap container, whose bits must be as many as its header says. -/
def readBitmap (key cardinality : ℕ) (c : Cursor) : Except DecodeFailure (Cursor × List ℕ) := do
  let (words, c) ← c.take 8192
  let (actual, values) ← gather (readWord key words) 0 (List.range 1024)
  if actual ≠ cardinality then .error (inconsistent "cardinality is incorrect")
  else .ok (c, values)

/-- The container `i`, by its flag and its cardinality. -/
def readContainer (l : Layout) (c : Cursor) (i : ℕ) : Except DecodeFailure (Cursor × List ℕ) := do
  let key ← readLe 2 (l.headers.drop (i * 4))
  let count ← readLe 2 (l.headers.drop (i * 4 + 2))
  let run ← isRun l.runBits i
  if run then readRuns key c
  else if count + 1 ≤ 4096 then readArray key (count + 1) c
  else readBitmap key (count + 1) c

/-- The values of a bitmap, with the bytes it takes. -/
def roaringValues (size : List UInt8 → ℕ) (data : List UInt8) (len : ℕ) :
    Except DecodeFailure (ℕ × List ℕ) :=
  let consumed := size (data.take len)
  if consumed = 0 then
    .error (.runtimeError ("roaring: no valid portable-Roaring bitmap in the remaining " ++
      toString len ++ " bytes; the deletion vector is truncated or corrupt"))
  else do
    let l ← readLayout ⟨data, consumed⟩
    checkKeys l
    let (_, values) ← gather (readContainer l) l.payload (List.range l.containers)
    .ok (consumed, values)

/-! ## What a walk does with the values -/

section Put

variable {σ : Type} (maxOut : ℕ) (emit : σ → ℕ → Except DecodeFailure σ) (materialize : Bool)

/-- The effect of a walk over the values `vs`. -/
def put (vs : List ℕ) (t : Tally σ) : Except DecodeFailure (Tally σ) :=
  if materialize then vs.foldlM (append maxOut emit 0) t
  else .ok ⟨t.total + vs.length, t.out⟩

/-- The effect inside a container that is counted only at its end. -/
def putLate (vs : List ℕ) (t : Tally σ) : Except DecodeFailure (Tally σ) :=
  if materialize then vs.foldlM (append maxOut emit 0) t else .ok t

variable {maxOut emit materialize}

theorem puts_put : Puts (put maxOut emit materialize) := by
  cases materialize with
  | true => exact .foldlM _
  | false =>
    refine ⟨fun t => rfl, fun vs ws t => ?_⟩
    simp only [put, Bool.false_eq_true, if_false, ok_bind, List.length_append, Nat.add_assoc]

theorem puts_putLate : Puts (putLate maxOut emit materialize) := by
  cases materialize with
  | true => exact .foldlM _
  | false => exact ⟨fun t => rfl, fun vs ws t => rfl⟩

/-- The key of a container is the high half of its values. -/
theorem foldlM_append_key (key : ℕ) (lows : List ℕ) (t : Tally σ) :
    lows.foldlM (append maxOut emit key) t =
      (lows.map (key <<< 16 ||| ·)).foldlM (append maxOut emit 0) t := by
  rw [List.foldlM_map]
  congr 1
  funext t low
  simp only [append, Nat.zero_shiftLeft, Nat.zero_or]

variable {c : Cursor}

variable {n key j : ℕ} {t : Tally σ}

/-- The walk that emits, from an empty tally. -/
theorem put_true_eq_ok {vs : List ℕ} {out : σ} (hn : n + vs.length ≤ maxOut) :
    put maxOut emit true vs ⟨n, out⟩ = .ok t ↔
      ∃ out', vs.foldlM emit out = .ok out' ∧ t = ⟨n + vs.length, out'⟩ := by
  simp only [put, if_true]
  induction vs generalizing n out with
  | nil =>
    constructor
    · rintro ⟨rfl⟩
      exact ⟨out, rfl, rfl⟩
    · rintro ⟨out', ⟨rfl⟩, rfl⟩
      rfl
  | cons v vs ih =>
    rw [List.length_cons] at hn ⊢
    have hroom : ¬maxOut ≤ n := by omega
    have hv : append maxOut emit 0 ⟨n, out⟩ v =
        emit out v >>= fun out' => .ok ⟨n + 1, out'⟩ := by
      simp only [append, if_neg hroom, Nat.zero_shiftLeft, Nat.zero_or]
    simp only [List.foldlM_cons, hv, bind_eq_ok, Except.ok.injEq]
    constructor
    · rintro ⟨_, ⟨out₁, hemit, rfl⟩, hrest⟩
      obtain ⟨out', hout', rfl⟩ := (ih (by omega)).mp hrest
      exact ⟨out', ⟨out₁, hemit, hout'⟩, by rw [Nat.add_assoc, Nat.add_comm 1]⟩
    · rintro ⟨out', ⟨out₁, hemit, hout'⟩, rfl⟩
      refine ⟨_, ⟨out₁, hemit, rfl⟩, (ih (by omega)).mpr ⟨out', hout', ?_⟩⟩
      rw [Nat.add_assoc, Nat.add_comm 1]

/-! ## Each loop of the walk -/

theorem walkRun_iff {previousEnd : ℕ} {x : RunState σ} :
    walkRun maxOut emit materialize key ⟨c, t, previousEnd⟩ j = .ok x ↔
      ∃ s vs t', readRun key (c, previousEnd) j = .ok (s, vs) ∧
        put maxOut emit materialize vs t = .ok t' ∧ x = ⟨s.1, t', s.2⟩ := by
  simp only [walkRun, readRun, bind_eq_ok, ite_error_eq_ok, Except.ok.injEq, Prod.mk.injEq]
  constructor
  · rintro ⟨q, hq, first, hfirst, length, hlength, hstop, hprev, hequal, h⟩
    refine ⟨(q.2, first + length + 1),
      (List.range' first (first + length + 1 - first)).map (key <<< 16 ||| ·), ?_⟩
    cases materialize with
    | true =>
      obtain ⟨t', ht, ⟨rfl⟩⟩ := bind_eq_ok.mp h
      rw [foldlM_append_key] at ht
      exact ⟨t', ⟨q, hq, first, hfirst, length, hlength, hstop, hprev, hequal, rfl, rfl⟩, ht, rfl⟩
    | false =>
      obtain ⟨rfl⟩ := h
      refine ⟨_, ⟨q, hq, first, hfirst, length, hlength, hstop, hprev, hequal, rfl, rfl⟩, rfl, ?_⟩
      simp only [List.length_map, List.length_range']
  · rintro ⟨_, _, t', ⟨q, hq, first, hfirst, length, hlength, hstop, hprev, hequal, rfl, rfl⟩, ht,
      rfl⟩
    refine ⟨q, hq, first, hfirst, length, hlength, hstop, hprev, hequal, ?_⟩
    cases materialize with
    | true =>
      rw [if_pos rfl, foldlM_append_key, bind_eq_ok]
      exact ⟨t', ht, rfl⟩
    | false =>
      obtain ⟨rfl⟩ := ht
      simp only [Bool.false_eq_true, if_false, List.length_map, List.length_range']

variable {x : Cursor × Tally σ}

theorem walkRuns_iff :
    walkRuns maxOut emit materialize key c t = .ok x ↔
      ∃ c' vs t', readRuns key c = .ok (c', vs) ∧ put maxOut emit materialize vs t = .ok t' ∧
        x = (c', t') := by
  have hloop : ∀ (c : Cursor) (n : ℕ) (x : RunState σ),
      (List.range n).foldlM (walkRun maxOut emit materialize key) ⟨c, t, 0⟩ = .ok x ↔
        ∃ s vs t', gather (readRun key) (c, 0) (List.range n) = .ok (s, vs) ∧
          put maxOut emit materialize vs t = .ok t' ∧ x = ⟨s.1, t', s.2⟩ := fun c n x =>
    foldlM_gather puts_put (fun s t => ⟨s.1, t, s.2⟩) (walkRun maxOut emit materialize key)
      (fun _ _ _ _ _ => walkRun_iff) (c, 0) t
  simp only [walkRuns, readRuns, bind_eq_ok, ite_error_eq_ok, Except.ok.injEq, Prod.mk.injEq,
    hloop]
  constructor
  · rintro ⟨q, hq, n, hn, hpos, _, ⟨s, vs, t', hgather, ht, rfl⟩, rfl⟩
    exact ⟨s.1, vs, t', ⟨q, hq, n, hn, hpos, (s, vs), hgather, rfl, rfl⟩, ht, rfl⟩
  · rintro ⟨_, _, t', ⟨q, hq, n, hn, hpos, r, hgather, rfl, rfl⟩, ht, rfl⟩
    exact ⟨q, hq, n, hn, hpos, _, ⟨r.1, r.2, t', hgather, ht, rfl⟩, rfl⟩

theorem walkElement_iff {values : List UInt8} {t x : Tally σ} :
    walkElement maxOut emit materialize key values t j = .ok x ↔
      ∃ s vs t', readElement key values () j = .ok (s, vs) ∧
        putLate maxOut emit materialize vs t = .ok t' ∧ x = t' := by
  have hput : ∀ value, putLate maxOut emit materialize [key <<< 16 ||| value] t =
      if materialize then append maxOut emit key t value else .ok t := by
    intro value
    cases materialize with
    | true =>
      have hone : [value].foldlM (append maxOut emit key) t = _ := foldlM_append_key key [value] t
      simp only [List.foldlM_cons, List.foldlM_nil, bind_pure] at hone
      simpa [putLate] using hone.symm
    | false => rfl
  simp only [walkElement, readElement, bind_eq_ok, Except.ok.injEq, Prod.mk.injEq]
  constructor
  · rintro ⟨value, hvalue, u, hrising, h⟩
    exact ⟨(), _, x, ⟨value, hvalue, u, hrising, trivial, rfl⟩, (hput value).trans h, rfl⟩
  · rintro ⟨_, _, _, ⟨value, hvalue, u, hrising, -, rfl⟩, h, rfl⟩
    exact ⟨value, hvalue, u, hrising, (hput value).symm.trans h⟩

/-- The elements of an array container are as many as its header says. -/
theorem length_of_readElements {values : List UInt8} {js vs : List ℕ} {u : Unit}
    (h : gather (readElement key values) () js = .ok (u, vs)) : vs.length = js.length := by
  refine gather_rel (R := fun _ js vs _ => vs.length = js.length) (fun _ => rfl) ?_ h
  intro _ j js _ vs ws _ hread hrest
  simp only [readElement, bind_eq_ok, Except.ok.injEq, Prod.mk.injEq] at hread
  obtain ⟨_, _, _, _, -, rfl⟩ := hread
  simp only [List.singleton_append, List.length_cons, hrest]

/-- A container that is counted at its end. -/
theorem put_eq_ok_iff_putLate {vs : List ℕ} (hn : vs.length = n) {t t' : Tally σ} :
    put maxOut emit materialize vs t = .ok t' ↔
      ∃ t₁, putLate maxOut emit materialize vs t = .ok t₁ ∧
        t' = if materialize then t₁ else ⟨t₁.total + n, t₁.out⟩ := by
  cases materialize with
  | true => simp [put, putLate]
  | false => simp [put, putLate, hn, eq_comm]

theorem walkArray_iff {key cardinality : ℕ} :
    walkArray maxOut emit materialize key cardinality c t = .ok x ↔
      ∃ c' vs t', readArray key cardinality c = .ok (c', vs) ∧
        put maxOut emit materialize vs t = .ok t' ∧ x = (c', t') := by
  have hloop : ∀ (values : List UInt8) (x : Tally σ),
      (List.range cardinality).foldlM (walkElement maxOut emit materialize key values) t = .ok x ↔
        ∃ s vs t', gather (readElement key values) () (List.range cardinality) = .ok (s, vs) ∧
          putLate maxOut emit materialize vs t = .ok t' ∧ x = t' := fun values x =>
    foldlM_gather puts_putLate (fun _ t => t) (walkElement maxOut emit materialize key values)
      (fun _ _ _ _ _ => walkElement_iff) () t
  simp only [walkArray, readArray, bind_eq_ok, Except.ok.injEq, Prod.mk.injEq, hloop]
  constructor
  · rintro ⟨q, hq, t', ⟨u, vs, _, hgather, ht, rfl⟩, rfl⟩
    have hlength := (length_of_readElements hgather).trans List.length_range
    exact ⟨q.2, vs, _, ⟨q, hq, (u, vs), hgather, rfl, rfl⟩,
      (put_eq_ok_iff_putLate hlength).mpr ⟨t', ht, rfl⟩, rfl⟩
  · rintro ⟨_, _, t', ⟨q, hq, r, hgather, rfl, rfl⟩, ht, rfl⟩
    have hlength := (length_of_readElements hgather).trans List.length_range
    obtain ⟨t₁, ht₁, rfl⟩ := (put_eq_ok_iff_putLate hlength).mp ht
    exact ⟨q, hq, _, ⟨r.1, r.2, t₁, hgather, ht₁, rfl⟩, rfl⟩

theorem readLe_lt {width : ℕ} {p : List UInt8} (h : readLe width p = .ok n) : n < 256 ^ width := by
  rw [readLe] at h
  split_ifs at h with hlength
  obtain ⟨rfl⟩ := h
  have hlt := leValue_lt (p.take width)
  rwa [List.length_take_of_le hlength] at hlt

theorem walkWord_iff {words : List UInt8} {actual j : ℕ} {x : ℕ × Tally σ} :
    walkWord maxOut emit materialize key words (actual, t) j = .ok x ↔
      ∃ actual' vs t', readWord key words actual j = .ok (actual', vs) ∧
        putLate maxOut emit materialize vs t = .ok t' ∧ x = (actual', t') := by
  have hvisit : ∀ word, readLe 8 (words.drop (j * 8)) = .ok word →
      visitWord maxOut emit materialize key j word t =
        putLate maxOut emit materialize
          (((setBits 64 word).map (j * 64 + ·)).map (key <<< 16 ||| ·)) t := by
    intro word hword
    cases materialize with
    | true =>
      have hbound : word < 2 ^ 64 := readLe_lt hword
      simp only [visitWord, putLate, if_true, appendBits_eq hbound]
      exact foldlM_append_key key _ t
    | false => rfl
  simp only [walkWord, readWord, bind_eq_ok, Except.ok.injEq, Prod.mk.injEq]
  constructor
  · rintro ⟨word, hword, t', ht, rfl⟩
    exact ⟨_, _, t', ⟨word, hword, rfl, rfl⟩, (hvisit word hword).symm.trans ht, rfl⟩
  · rintro ⟨_, _, t', ⟨word, hword, rfl, rfl⟩, ht, rfl⟩
    exact ⟨word, hword, t', (hvisit word hword).trans ht, rfl⟩

/-- `actual` counts the values of a bitmap container. -/
theorem length_of_readWords {words : List UInt8} {actual actual' : ℕ} {js vs : List ℕ}
    (h : gather (readWord key words) actual js = .ok (actual', vs)) :
    actual' = actual + vs.length := by
  refine gather_rel (R := fun actual _ vs actual' => actual' = actual + vs.length)
    (fun _ => rfl) ?_ h
  intro _ j js _ vs ws _ hread hrest
  simp only [readWord, bind_eq_ok, Except.ok.injEq, Prod.mk.injEq] at hread
  obtain ⟨_, _, rfl, rfl⟩ := hread
  simp only [hrest, List.length_append, List.length_map, Nat.add_assoc]

theorem walkBitmap_iff {key cardinality : ℕ} :
    walkBitmap maxOut emit materialize key cardinality c t = .ok x ↔
      ∃ c' vs t', readBitmap key cardinality c = .ok (c', vs) ∧
        put maxOut emit materialize vs t = .ok t' ∧ x = (c', t') := by
  have hloop : ∀ (words : List UInt8) (x : ℕ × Tally σ),
      (List.range 1024).foldlM (walkWord maxOut emit materialize key words) (0, t) = .ok x ↔
        ∃ actual vs t', gather (readWord key words) 0 (List.range 1024) = .ok (actual, vs) ∧
          putLate maxOut emit materialize vs t = .ok t' ∧ x = (actual, t') := fun words x =>
    foldlM_gather puts_putLate Prod.mk (walkWord maxOut emit materialize key words)
      (fun _ _ _ _ _ => walkWord_iff) 0 t
  simp only [walkBitmap, readBitmap, bind_eq_ok, ite_error_eq_ok, Except.ok.injEq, Prod.mk.injEq,
    hloop]
  constructor
  · rintro ⟨q, hq, _, ⟨actual, vs, t', hgather, ht, rfl⟩, hactual, rfl⟩
    have hlength : vs.length = actual := by rw [length_of_readWords hgather, Nat.zero_add]
    exact ⟨q.2, vs, _, ⟨q, hq, (actual, vs), hgather, hactual, rfl, rfl⟩,
      (put_eq_ok_iff_putLate hlength).mpr ⟨t', ht, rfl⟩, rfl⟩
  · rintro ⟨_, _, t', ⟨q, hq, r, hgather, hactual, rfl, rfl⟩, ht, rfl⟩
    have hlength : r.2.length = r.1 := by rw [length_of_readWords hgather, Nat.zero_add]
    obtain ⟨t₁, ht₁, rfl⟩ := (put_eq_ok_iff_putLate hlength).mp ht
    exact ⟨q, hq, _, ⟨r.1, r.2, t₁, hgather, ht₁, rfl⟩, hactual, rfl⟩

theorem walkContainer_iff {l : Layout} {i : ℕ} :
    walkContainer maxOut emit materialize l (c, t) i = .ok x ↔
      ∃ c' vs t', readContainer l c i = .ok (c', vs) ∧
        put maxOut emit materialize vs t = .ok t' ∧ x = (c', t') := by
  have hkind : ∀ key count (run : Bool),
      (if run then walkRuns maxOut emit materialize key c t
        else if count + 1 ≤ 4096 then walkArray maxOut emit materialize key (count + 1) c t
        else walkBitmap maxOut emit materialize key (count + 1) c t) = .ok x ↔
      ∃ c' vs t', (if run then readRuns key c
        else if count + 1 ≤ 4096 then readArray key (count + 1) c
        else readBitmap key (count + 1) c) = .ok (c', vs) ∧
        put maxOut emit materialize vs t = .ok t' ∧ x = (c', t') := by
    intro key count run
    split_ifs
    · exact walkRuns_iff
    · exact walkArray_iff
    · exact walkBitmap_iff
  simp only [walkContainer, readContainer, bind_eq_ok, hkind]
  constructor
  · rintro ⟨key, hkey, count, hcount, run, hrun, c', vs, t', hread, ht, rfl⟩
    exact ⟨c', vs, t', ⟨key, hkey, count, hcount, run, hrun, hread⟩, ht, rfl⟩
  · rintro ⟨c', vs, t', ⟨key, hkey, count, hcount, run, hrun, hread⟩, ht, rfl⟩
    exact ⟨key, hkey, count, hcount, run, hrun, c', vs, t', hread, ht, rfl⟩

/-- A walk that counts adds the number of values, a walk that emits appends them in
order, and each returns only where the reader does. -/
theorem walk_iff {l : Layout} {out : σ} :
    walk maxOut emit materialize l out = .ok x ↔
      ∃ c vs t, gather (readContainer l) l.payload (List.range l.containers) = .ok (c, vs) ∧
        put maxOut emit materialize vs ⟨0, out⟩ = .ok t ∧ x = (c, t) :=
  foldlM_gather puts_put Prod.mk (walkContainer maxOut emit materialize l)
    (fun _ _ _ _ _ => walkContainer_iff) l.payload ⟨0, out⟩

end Put

/-- **The two walks of a bitmap agree.** The whole walk returns exactly when the reader
does, the values fit the budget and `emit` takes them in order: what the first walk
accepts and counts is what the second one emits. -/
theorem walkRoaring32_iff {σ : Type} {maxOut : ℕ} {emit : σ → ℕ → Except DecodeFailure σ}
    {size : List UInt8 → ℕ} {data : List UInt8} {len : ℕ} {out out' : σ} {consumed : ℕ} :
    walkRoaring32 maxOut emit size data len out = .ok (consumed, out') ↔
      ∃ vs, roaringValues size data len = .ok (consumed, vs) ∧ vs.length ≤ maxOut ∧
        vs.foldlM emit out = .ok out' := by
  simp only [walkRoaring32, roaringValues, ite_error_eq_ok, bind_eq_ok, walk_iff,
    Except.ok.injEq, Prod.mk.injEq]
  constructor
  · rintro ⟨hpos, l, hl, u, hkeys, _, ⟨c, vs, _, hvs, ⟨rfl⟩, rfl⟩, hfits, _,
      ⟨c', vs', t', hvs', ht', rfl⟩, rfl, rfl⟩
    obtain ⟨rfl, rfl⟩ : c = c' ∧ vs = vs' := by simpa [hvs] using hvs'
    have hlength : vs.length ≤ maxOut := by simpa using hfits
    obtain ⟨out', hout', rfl⟩ := (put_true_eq_ok (by simpa using hlength)).mp ht'
    exact ⟨vs, ⟨hpos, l, hl, u, hkeys, (c, vs), hvs, rfl, rfl⟩, hlength, hout'⟩
  · rintro ⟨_, ⟨hpos, l, hl, u, hkeys, r, hvs, rfl, rfl⟩, hlength, hout'⟩
    have hemits : put maxOut emit true r.2 ⟨0, out⟩ = .ok ⟨0 + r.2.length, out'⟩ :=
      (put_true_eq_ok (by simpa using hlength)).mpr ⟨out', hout', rfl⟩
    exact ⟨hpos, l, hl, u, hkeys, _, ⟨r.1, r.2, _, hvs, rfl, rfl⟩, by simpa using hlength, _,
      ⟨r.1, r.2, _, hvs, hemits, rfl⟩, rfl, rfl⟩

end Sirius.Scan.Puffin
