import Sirius.Scan.Roaring

/-!
# The portable Roaring format

A 32-bit bitmap in the portable serialization, with its containers, its run flags, its
descriptive header and its offset header, and what the walker makes of those bytes.

* `walkRoaring32_bytes`: the walk of a bitmap's bytes emits its elements in order and
  consumes exactly those bytes.
-/

namespace Sirius.Scan.Puffin

open Sirius.Common

/-! ## The format -/

/-- A container of 16-bit values: a sorted array, 1024 words of bits, or runs of a first
value and the number of values after it. -/
inductive Container where
  | array (values : List ℕ)
  | bitmap (words : List ℕ)
  | run (runs : List (ℕ × ℕ))
  deriving DecidableEq, Repr

namespace Container

/-- The values of a container. -/
def elements : Container → List ℕ
  | array values => values
  | bitmap words => words.zipIdx.flatMap fun w => (setBits 64 w.1).map (w.2 * 64 + ·)
  | run runs => runs.flatMap fun r => List.range' r.1 (r.2 + 1)

/-- It holds runs. -/
def isRun : Container → Bool
  | run _ => true
  | _ => false

/-- What the format asks of a container. -/
def Valid : Container → Prop
  | array values => values ≠ [] ∧ values.length ≤ 4096 ∧ values.Pairwise (· < ·) ∧
      ∀ v ∈ values, v < 65536
  | bitmap words => words.length = 1024 ∧ (∀ w ∈ words, w < 2 ^ 64) ∧
      4096 < (bitmap words).elements.length
  | run runs => runs ≠ [] ∧ runs.length < 65536 ∧ (∀ r ∈ runs, r.1 + r.2 < 65536) ∧
      runs.Pairwise fun a b => a.1 + a.2 + 1 < b.1

/-- A run as it is written. -/
def runBytes (r : ℕ × ℕ) : List UInt8 := leBytes 2 r.1 ++ leBytes 2 r.2

/-- A container as it is written. -/
def bytes : Container → List UInt8
  | array values => values.flatMap (leBytes 2)
  | bitmap words => words.flatMap (leBytes 8)
  | run runs => leBytes 2 runs.length ++ runs.flatMap runBytes

end Container

/-- A 32-bit bitmap: its containers under their 16-bit keys, written with the run cookie
or without it. -/
structure Bitmap where
  runCookie : Bool
  entries : List (ℕ × Container)
  keys_sorted : entries.Pairwise fun a b => a.1 < b.1
  keys_lt : ∀ e ∈ entries, e.1 < 65536
  valid : ∀ e ∈ entries, e.2.Valid
  run_flagged : runCookie = false → ∀ e ∈ entries, e.2.isRun = false
  run_nonempty : runCookie = true → entries ≠ []

namespace Bitmap

/-- The values of a bitmap. -/
def elements (b : Bitmap) : List ℕ :=
  b.entries.flatMap fun e => e.2.elements.map (e.1 * 65536 + ·)

/-- The cookie with the number of containers. -/
def cookieBytes (b : Bitmap) : List UInt8 :=
  if b.runCookie then leBytes 4 (12347 + (b.entries.length - 1) * 65536)
  else leBytes 4 12346 ++ leBytes 4 b.entries.length

/-- One byte of the run flags. -/
def flagByte (b : Bitmap) (i : ℕ) : List UInt8 :=
  leBytes 1 (Nat.ofBits fun k : Fin 8 =>
    match b.entries[i * 8 + k]? with
    | some e => e.2.isRun
    | none => false)

/-- The run flags, one bit for each container. -/
def flagBytes (b : Bitmap) : List UInt8 :=
  if b.runCookie then (List.range ((b.entries.length + 7) / 8)).flatMap b.flagByte else []

/-- An entry of the descriptive header: the key and the cardinality less one. -/
def headerBytes (e : ℕ × Container) : List UInt8 :=
  leBytes 2 e.1 ++ leBytes 2 (e.2.elements.length - 1)

/-- The places of the containers, from the start of the bitmap. -/
def offsetBytes : ℕ → List (ℕ × Container) → List UInt8
  | _, [] => []
  | offset, e :: es => leBytes 4 offset ++ offsetBytes (offset + e.2.bytes.length) es

/-- The bitmap has an offset header. -/
def hasOffsets (b : Bitmap) : Bool := !b.runCookie || decide (4 ≤ b.entries.length)

/-- What stands before the offset header. -/
def preamble (b : Bitmap) : List UInt8 :=
  b.cookieBytes ++ (b.flagBytes ++ b.entries.flatMap headerBytes)

/-- The offset header. -/
def offsets (b : Bitmap) : List UInt8 :=
  if b.hasOffsets then offsetBytes (b.preamble.length + b.entries.length * 4) b.entries else []

/-- The containers, one after the other. -/
def containerBytes (b : Bitmap) : List UInt8 := b.entries.flatMap fun e => e.2.bytes

/-- A bitmap as it is written. -/
def bytes (b : Bitmap) : List UInt8 := b.preamble ++ (b.offsets ++ b.containerBytes)

end Bitmap

/-! ## Elements are sorted -/

namespace Container

theorem elements_lt {c : Container} (hc : c.Valid) : ∀ x ∈ c.elements, x < 65536 := by
  cases c with
  | array values => exact hc.2.2.2
  | bitmap words =>
    intro x hx
    obtain ⟨w, hw, hx⟩ := List.mem_flatMap.mp hx
    obtain ⟨i, hi, rfl⟩ := List.mem_map.mp hx
    have hbit := (mem_setBits.mp hi).1
    have hindex := List.snd_lt_of_mem_zipIdx hw
    rw [hc.1] at hindex
    omega
  | run runs =>
    intro x hx
    obtain ⟨r, hr, hx⟩ := List.mem_flatMap.mp hx
    have hlast := hc.2.2.1 r hr
    have hrange := List.mem_range'_1.mp hx
    omega

theorem elements_sorted {c : Container} (hc : c.Valid) : c.elements.Pairwise (· < ·) := by
  cases c with
  | array values => exact hc.2.2.1
  | bitmap words =>
    refine blocks_sorted Prod.snd (fun w => setBits 64 w.1) ?_
      (fun w _ => setBits_sorted 64 w.1) (fun w _ x hx => (mem_setBits.mp hx).1)
    rw [List.pairwise_iff_getElem]
    intro i j hi hj hij
    simpa using hij
  | run runs =>
    refine List.pairwise_flatMap.mpr ⟨fun r _ => List.pairwise_lt_range', ?_⟩
    refine hc.2.2.2.imp ?_
    intro a b hab x hx y hy
    have hx' := List.mem_range'_1.mp hx
    have hy' := List.mem_range'_1.mp hy
    omega

theorem elements_length {c : Container} (hc : c.Valid) :
    0 < c.elements.length ∧ c.elements.length ≤ 65536 := by
  refine ⟨?_, length_le_of_sorted (elements_sorted hc) (elements_lt hc)⟩
  cases c with
  | array values => exact List.length_pos_iff.mpr hc.1
  | bitmap words => exact lt_trans (by norm_num) hc.2.2
  | run runs =>
    obtain ⟨r, rs, rfl⟩ := List.exists_cons_of_ne_nil hc.1
    simp only [elements, List.flatMap_cons, List.length_append, List.length_range']
    omega

end Container

namespace Bitmap

theorem elements_lt (b : Bitmap) : ∀ x ∈ b.elements, x < 2 ^ 32 := by
  intro x hx
  obtain ⟨e, he, hx⟩ := List.mem_flatMap.mp hx
  obtain ⟨i, hi, rfl⟩ := List.mem_map.mp hx
  have hlow := Container.elements_lt (b.valid e he) i hi
  have hkey := b.keys_lt e he
  omega

theorem elements_sorted (b : Bitmap) : b.elements.Pairwise (· < ·) := by
  unfold elements
  exact blocks_sorted Prod.fst (fun e => e.2.elements) b.keys_sorted
    (fun e he => Container.elements_sorted (b.valid e he))
    (fun e he => Container.elements_lt (b.valid e he))

theorem entries_length (b : Bitmap) : b.entries.length ≤ 65536 := by
  have hlt : ∀ x ∈ b.entries.map Prod.fst, x < 65536 := by
    intro x hx
    obtain ⟨e, he, rfl⟩ := List.mem_map.mp hx
    exact b.keys_lt e he
  have hlen := length_le_of_sorted (List.pairwise_map.mpr b.keys_sorted) hlt
  rwa [List.length_map] at hlen

end Bitmap

/-! ## Reading back what the format wrote -/

theorem readLe_leBytes {width n : ℕ} (h : n < 256 ^ width) (rest : List UInt8) :
    readLe width (leBytes width n ++ rest) = .ok n := by
  have hle : width ≤ (leBytes width n ++ rest).length := by simp
  have htake : (leBytes width n ++ rest).take width = leBytes width n := by
    rw [List.take_append_of_le_length (by simp), List.take_of_length_le (by simp)]
  rw [readLe, if_pos hle, htake, leValue_leBytes h]

theorem take_append {bs rest : List UInt8} {left n : ℕ} (hn : bs.length = n) (h : n ≤ left) :
    Cursor.take ⟨bs ++ rest, left⟩ n = .ok (bs ++ rest, ⟨rest, left - n⟩) := by
  rw [Cursor.take, if_neg (by simpa using h), List.drop_append_of_le_length hn.ge,
    List.drop_of_length_le hn.le, List.nil_append]

/-! ## The containers

`deliver` is what a container's elements come to: emitted one by one, or counted. -/

section Deliver

variable {σ : Type} {maxOut : ℕ} {emit : σ → ℕ → Except DecodeFailure σ} {materialize : Bool}

/-- The low halves of a container, emitted or counted. -/
def deliver (maxOut : ℕ) (emit : σ → ℕ → Except DecodeFailure σ) (materialize : Bool) (key : ℕ)
    (lows : List ℕ) (t : Tally σ) : Except DecodeFailure (Tally σ) :=
  if materialize then lows.foldlM (append maxOut emit key) t
  else .ok ⟨t.total + lows.length, t.out⟩

theorem deliver_append (key : ℕ) (as bs : List ℕ) (t : Tally σ) :
    deliver maxOut emit materialize key (as ++ bs) t =
      deliver maxOut emit materialize key as t >>=
        deliver maxOut emit materialize key bs := by
  cases materialize with
  | true => exact List.foldlM_append
  | false =>
    simp only [deliver, Bool.false_eq_true, if_false, ok_bind, List.length_append, Nat.add_assoc]

theorem deliver_nil (key : ℕ) (t : Tally σ) :
    deliver maxOut emit materialize key [] t = .ok t := by
  cases materialize <;> rfl

variable {key left : ℕ} {t t' : Tally σ}

theorem deliver_flatMap_cons {α : Type} {f : α → List ℕ} {a : α} {l : List α}
    (h : deliver maxOut emit materialize key ((a :: l).flatMap f) t = .ok t') :
    ∃ s, deliver maxOut emit materialize key (f a) t = .ok s ∧
      deliver maxOut emit materialize key (l.flatMap f) s = .ok t' := by
  rw [List.flatMap_cons, deliver_append] at h
  exact bind_eq_ok.mp h

/-! ### Runs -/

variable {rest : List UInt8}

/-- One run leaves the cursor behind its four bytes. -/
theorem walkRun_bytes {r : ℕ × ℕ} (hr : r.1 + r.2 < 65536) {left previousEnd : ℕ}
    (hleft : 4 ≤ left) (hprev : previousEnd ≠ 0 → previousEnd < r.1)
    (ht : deliver maxOut emit materialize key (List.range' r.1 (r.2 + 1)) t = .ok t') (j : ℕ) :
    walkRun maxOut emit materialize key ⟨⟨Container.runBytes r ++ rest, left⟩, t, previousEnd⟩ j =
      .ok ⟨⟨rest, left - 4⟩, t', r.1 + r.2 + 1⟩ := by
  have hfirst : readLe 2 (Container.runBytes r ++ rest) = .ok r.1 := by
    rw [Container.runBytes, List.append_assoc]
    exact readLe_leBytes (by omega) _
  have hsecond : readLe 2 ((Container.runBytes r ++ rest).drop 2) = .ok r.2 := by
    rw [Container.runBytes, List.append_assoc, List.drop_append_of_le_length (by simp),
      List.drop_of_length_le (by simp), List.nil_append]
    exact readLe_leBytes (by omega) _
  have hbetween : r.1 + r.2 + 1 - r.1 = r.2 + 1 := by omega
  rw [walkRun, take_append (by simp [Container.runBytes]) hleft, ok_bind]
  simp only [hfirst, hsecond, ok_bind, hbetween]
  rw [if_neg (by omega), if_neg (by omega), if_neg (by omega)]
  cases materialize with
  | true =>
    have hfold : (List.range' r.1 (r.2 + 1)).foldlM (append maxOut emit key) t = .ok t' := ht
    rw [if_pos rfl, hfold, ok_bind]
  | false =>
    simp only [deliver, Bool.false_eq_true, if_false, List.length_range', Except.ok.injEq] at ht
    simp only [Bool.false_eq_true, if_false, ht]

theorem walkRun_foldlM_bytes {runs : List (ℕ × ℕ)}
    (hruns : ∀ r ∈ runs, r.1 + r.2 < 65536) (hsorted : runs.Pairwise fun a b => a.1 + a.2 + 1 < b.1)
    (rest : List UInt8) (left previousEnd : ℕ) (hleft : runs.length * 4 ≤ left)
    (hprev : ∀ r ∈ runs, previousEnd ≠ 0 → previousEnd < r.1)
    (ht : deliver maxOut emit materialize key
      (runs.flatMap fun r => List.range' r.1 (r.2 + 1)) t = .ok t')
    (js : List ℕ) (hjs : js.length = runs.length) :
    ∃ stop, js.foldlM (walkRun maxOut emit materialize key)
      ⟨⟨runs.flatMap Container.runBytes ++ rest, left⟩, t, previousEnd⟩ =
        .ok ⟨⟨rest, left - runs.length * 4⟩, t', stop⟩ := by
  induction runs generalizing left previousEnd t js with
  | nil =>
    rw [List.length_eq_zero_iff.mp hjs]
    rw [List.flatMap_nil, deliver_nil] at ht
    obtain ⟨rfl⟩ := ht
    exact ⟨previousEnd, by simp [pure, Except.pure]⟩
  | cons r runs ih =>
    obtain ⟨j, js, rfl⟩ : ∃ j js', js = j :: js' :=
      List.exists_cons_of_length_eq_add_one hjs
    obtain ⟨s, hs, ht⟩ := deliver_flatMap_cons ht
    rw [List.length_cons] at hleft
    rw [List.foldlM_cons, List.flatMap_cons, List.append_assoc,
      walkRun_bytes (hruns r List.mem_cons_self) (by omega) (hprev r List.mem_cons_self) hs,
      ok_bind]
    obtain ⟨stop, hstop⟩ := ih (fun q hq => hruns q (List.mem_cons_of_mem r hq))
      (List.pairwise_cons.mp hsorted).2 (left - 4) (r.1 + r.2 + 1) (by omega)
      (fun q hq _ => (List.pairwise_cons.mp hsorted).1 q hq) ht js (by simpa using hjs)
    refine ⟨stop, ?_⟩
    rw [hstop, List.length_cons]
    congr 3
    omega

theorem walkRuns_bytes {runs : List (ℕ × ℕ)} (hvalid : (Container.run runs).Valid)
    (hleft : (Container.run runs).bytes.length ≤ left)
    (ht : deliver maxOut emit materialize key (Container.run runs).elements t = .ok t') :
    walkRuns maxOut emit materialize key ⟨(Container.run runs).bytes ++ rest, left⟩ t =
      .ok (⟨rest, left - (Container.run runs).bytes.length⟩, t') := by
  obtain ⟨hne, hcount, hruns, hsorted⟩ := hvalid
  have hlength : (Container.run runs).bytes.length = 2 + runs.length * 4 := by
    rw [Container.bytes, List.length_append, length_leBytes,
      length_flatMap_of_length (f := Container.runBytes) (w := 4) (by simp [Container.runBytes])]
  rw [hlength] at hleft ⊢
  rw [walkRuns, Container.bytes, List.append_assoc, take_append (length_leBytes 2 _) (by omega),
    ok_bind]
  simp only [readLe_leBytes (show runs.length < 256 ^ 2 by omega), ok_bind]
  rw [if_neg (by simpa using hne)]
  obtain ⟨stop, hstop⟩ := walkRun_foldlM_bytes hruns hsorted rest (left - 2) 0 (by omega)
    (by simp) ht (List.range runs.length) (by simp)
  rw [hstop, ok_bind, Nat.sub_sub]

/-! ### Arrays -/

theorem checkRising_values {values : List ℕ} (hsorted : values.Pairwise (· < ·))
    (hvalues : ∀ v ∈ values, v < 65536) (rest : List UInt8) {j : ℕ} (hj : j < values.length) :
    checkRising (values.flatMap (leBytes 2) ++ rest) j values[j] = .ok () := by
  rw [checkRising]
  split_ifs with h
  · rfl
  · have hprev : j - 1 < values.length := by omega
    have hlt : values[j - 1] < values[j] :=
      List.pairwise_iff_getElem.mp hsorted (j - 1) j hprev hj (by omega)
    rw [drop_table (length_leBytes 2) hprev, readLe_leBytes
      (hvalues _ (List.getElem_mem hprev)), ok_bind, if_neg (by omega)]

theorem walkArray_bytes {values : List ℕ} (hvalid : (Container.array values).Valid)
    (hleft : (Container.array values).bytes.length ≤ left)
    (ht : deliver maxOut emit materialize key (Container.array values).elements t = .ok t') :
    walkArray maxOut emit materialize key values.length
        ⟨(Container.array values).bytes ++ rest, left⟩ t =
      .ok (⟨rest, left - (Container.array values).bytes.length⟩, t') := by
  obtain ⟨_, _, hsorted, hvalues⟩ := hvalid
  have hlength : (Container.array values).bytes.length = values.length * 2 :=
    length_flatMap_of_length (length_leBytes 2) values
  have helement : ∀ (s : Tally σ) (j : ℕ) (hj : j < values.length),
      walkElement maxOut emit materialize key ((Container.array values).bytes ++ rest) s j =
        if materialize then append maxOut emit key s values[j] else .ok s := by
    intro s j hj
    rw [walkElement, Container.bytes, drop_table (length_leBytes 2) hj,
      readLe_leBytes (hvalues _ (List.getElem_mem hj)), ok_bind,
      checkRising_values hsorted hvalues rest hj, ok_bind]
  rw [hlength] at hleft ⊢
  have hloop : (List.range values.length).foldlM
      (walkElement maxOut emit materialize key ((Container.array values).bytes ++ rest)) t =
        values.foldlM (fun s v => if materialize then append maxOut emit key s v else .ok s) t :=
    foldlM_range_eq helement t
  rw [walkArray, take_append hlength hleft, ok_bind]
  simp only [hloop]
  cases materialize with
  | true =>
    have hfold : values.foldlM (append maxOut emit key) t = .ok t' := ht
    simp only [if_true]
    rw [hfold, ok_bind]
  | false =>
    have hnone : values.foldlM (fun (s : Tally σ) _ => Except.ok s) t =
        (.ok t : Except DecodeFailure _) := by
      rw [foldlM_eq_ok (g := fun s _ => s) (fun _ _ _ => rfl), List.foldl_fixed]
    simp only [deliver, Container.elements, Bool.false_eq_true, if_false, Except.ok.injEq] at ht
    simp only [Bool.false_eq_true, if_false, hnone, ok_bind, ht]

/-! ### Bitmaps -/

theorem appendBits_eq {key j word : ℕ} (hword : word < 2 ^ 64) (t : Tally σ) :
    appendBits maxOut emit key j word t =
      ((setBits 64 word).map (j * 64 + ·)).foldlM (append maxOut emit key) t := by
  induction word using Nat.strong_induction_on generalizing t with
  | _ word ih =>
    rw [appendBits]
    split_ifs with h
    · subst h
      rw [setBits_zero]
      rfl
    · have hle : word &&& (word - 1) ≤ word - 1 := Nat.and_le_right
      rw [setBits_eq_cons h hword, List.map_cons, List.foldlM_cons]
      congr 1
      funext t'
      exact ih _ (by omega) (by omega) t'

/-- The words of a bitmap container, with the count of their bits. -/
theorem walkWords_bytes {words : List (ℕ × ℕ)} (hwords : ∀ w ∈ words, w.1 < 2 ^ 64)
    {n : ℕ}
    (ht : materialize = true → (words.flatMap fun w => (setBits 64 w.1).map (w.2 * 64 + ·)).foldlM
      (append maxOut emit key) t = .ok t') (hkeep : materialize = false → t' = t) :
    words.foldlM (fun (s : ℕ × Tally σ) w => do
        let t ← visitWord maxOut emit materialize key w.2 w.1 s.2
        .ok (s.1 + (setBits 64 w.1).length, t)) (n, t) =
      .ok (n + (words.flatMap fun w => (setBits 64 w.1).map (w.2 * 64 + ·)).length, t') := by
  induction words generalizing n t with
  | nil =>
    cases hm : materialize with
    | true =>
      obtain ⟨rfl⟩ := ht hm
      rfl
    | false =>
      rw [hkeep hm]
      rfl
  | cons w words ih =>
    have hcount : (((w :: words).flatMap fun w => (setBits 64 w.1).map (w.2 * 64 + ·))).length =
        (setBits 64 w.1).length +
          (words.flatMap fun w => (setBits 64 w.1).map (w.2 * 64 + ·)).length := by
      rw [List.flatMap_cons, List.length_append, List.length_map]
    have hrest : ∀ q ∈ words, q.1 < 2 ^ 64 := fun q hq => hwords q (List.mem_cons_of_mem w hq)
    rw [List.foldlM_cons, hcount, ← Nat.add_assoc]
    cases hm : materialize with
    | true =>
      have hfold := ht hm
      rw [List.flatMap_cons, List.foldlM_append, bind_eq_ok] at hfold
      obtain ⟨s, hs, hfold⟩ := hfold
      have hvisit : visitWord maxOut emit true key w.2 w.1 t = .ok s := by
        rw [visitWord, if_pos rfl, appendBits_eq (hwords w List.mem_cons_self)]
        exact hs
      simp only [hvisit, ok_bind]
      subst hm
      exact ih hrest (fun _ => hfold) (by simp)
    | false =>
      have hvisit : visitWord maxOut emit false key w.2 w.1 t = .ok t := rfl
      simp only [hvisit, ok_bind]
      subst hm
      exact ih hrest (by simp) hkeep

theorem walkBitmap_bytes {words : List ℕ} (hvalid : (Container.bitmap words).Valid)
    (hleft : (Container.bitmap words).bytes.length ≤ left)
    (ht : deliver maxOut emit materialize key (Container.bitmap words).elements t = .ok t') :
    walkBitmap maxOut emit materialize key (Container.bitmap words).elements.length
        ⟨(Container.bitmap words).bytes ++ rest, left⟩ t =
      .ok (⟨rest, left - (Container.bitmap words).bytes.length⟩, t') := by
  obtain ⟨hcount, hwords, -⟩ := hvalid
  have hlength : (Container.bitmap words).bytes.length = 8192 := by
    rw [Container.bytes, length_flatMap_of_length (length_leBytes 8), hcount]
  have hzip : words.zipIdx.length = 1024 := by rw [List.length_zipIdx, hcount]
  have hword : ∀ (s : ℕ × Tally σ) (j : ℕ) (hj : j < words.zipIdx.length),
      walkWord maxOut emit materialize key ((Container.bitmap words).bytes ++ rest) s j =
        (do
          let t ← visitWord maxOut emit materialize key words.zipIdx[j].2 words.zipIdx[j].1 s.2
          .ok (s.1 + (setBits 64 words.zipIdx[j].1).length, t)) := by
    intro s j hj
    have hj' : j < words.length := by simpa using hj
    rw [walkWord, Container.bytes, drop_table (length_leBytes 8) hj',
      readLe_leBytes (hwords _ (List.getElem_mem hj')), ok_bind, List.getElem_zipIdx]
    simp
  rw [hlength] at hleft ⊢
  have hloop : (List.range 1024).foldlM
      (walkWord maxOut emit materialize key ((Container.bitmap words).bytes ++ rest)) (0, t) =
        words.zipIdx.foldlM (fun (s : ℕ × Tally σ) w => do
          let t ← visitWord maxOut emit materialize key w.2 w.1 s.2
          .ok (s.1 + (setBits 64 w.1).length, t)) (0, t) := by
    rw [← hzip]
    exact foldlM_range_eq hword (0, t)
  have hbound : ∀ w ∈ words.zipIdx, w.1 < 2 ^ 64 := fun w hw =>
    hwords w.1 (List.mem_of_getElem? (List.mem_zipIdx_iff_getElem?.mp hw))
  rw [walkBitmap, take_append hlength hleft, ok_bind]
  simp only [hloop]
  cases hm : materialize with
  | true =>
    subst hm
    rw [walkWords_bytes hbound (fun _ => ht) (by simp), ok_bind, Nat.zero_add,
      if_neg (by simp [Container.elements]), if_pos rfl]
  | false =>
    subst hm
    simp only [deliver, Bool.false_eq_true, if_false, Except.ok.injEq] at ht
    rw [walkWords_bytes hbound (by simp) (fun _ => (rfl : t = t)), ok_bind, Nat.zero_add,
      if_neg (by simp [Container.elements]), if_neg Bool.false_ne_true]
    rw [← ht]
    rfl

/-! ### One container -/

/-- The walk of a container, by what its header says. -/
def walkEntry (maxOut : ℕ) (emit : σ → ℕ → Except DecodeFailure σ) (materialize : Bool)
    (s : Cursor × Tally σ) (e : ℕ × Container) : Except DecodeFailure (Cursor × Tally σ) :=
  if e.2.isRun then walkRuns maxOut emit materialize e.1 s.1 s.2
  else if e.2.elements.length ≤ 4096 then
    walkArray maxOut emit materialize e.1 e.2.elements.length s.1 s.2
  else walkBitmap maxOut emit materialize e.1 e.2.elements.length s.1 s.2

theorem walkEntry_bytes {e : ℕ × Container} (hvalid : e.2.Valid) (hleft : e.2.bytes.length ≤ left)
    (ht : deliver maxOut emit materialize e.1 e.2.elements t = .ok t') :
    walkEntry maxOut emit materialize (⟨e.2.bytes ++ rest, left⟩, t) e =
      .ok (⟨rest, left - e.2.bytes.length⟩, t') := by
  obtain ⟨key, c⟩ := e
  cases c with
  | array values =>
    have hsmall : (Container.array values).elements.length ≤ 4096 := hvalid.2.1
    rw [walkEntry, if_neg (by simp [Container.isRun]), if_pos hsmall]
    exact walkArray_bytes hvalid hleft ht
  | bitmap words =>
    rw [walkEntry, if_neg (by simp [Container.isRun]), if_neg (Nat.not_le.mpr hvalid.2.2)]
    exact walkBitmap_bytes hvalid hleft ht
  | run runs =>
    have hrun : (Container.run runs).isRun = true := rfl
    rw [walkEntry, if_pos hrun]
    exact walkRuns_bytes hvalid hleft ht

/-- The elements of containers, emitted or counted in turn. -/
def deliverAll (maxOut : ℕ) (emit : σ → ℕ → Except DecodeFailure σ) (materialize : Bool)
    (entries : List (ℕ × Container)) (t : Tally σ) : Except DecodeFailure (Tally σ) :=
  entries.foldlM (fun t e => deliver maxOut emit materialize e.1 e.2.elements t) t

theorem walkEntry_foldlM_bytes {entries : List (ℕ × Container)}
    (hvalid : ∀ e ∈ entries, e.2.Valid)
    (hleft : (entries.flatMap fun e => e.2.bytes).length ≤ left)
    (ht : deliverAll maxOut emit materialize entries t = .ok t') :
    entries.foldlM (walkEntry maxOut emit materialize)
        (⟨(entries.flatMap fun e => e.2.bytes) ++ rest, left⟩, t) =
      .ok (⟨rest, left - (entries.flatMap fun e => e.2.bytes).length⟩, t') := by
  induction entries generalizing left t with
  | nil =>
    obtain ⟨rfl⟩ := ht
    rfl
  | cons e entries ih =>
    rw [deliverAll, List.foldlM_cons, bind_eq_ok] at ht
    obtain ⟨s, hs, ht⟩ := ht
    rw [List.flatMap_cons, List.length_append] at hleft ⊢
    rw [List.foldlM_cons, List.append_assoc,
      walkEntry_bytes (hvalid e List.mem_cons_self) (by omega) hs, ok_bind,
      ih (fun q hq => hvalid q (List.mem_cons_of_mem e hq)) (by omega) ht, Nat.sub_sub]

end Deliver

/-! ## The header -/

namespace Bitmap

theorem length_headerBytes (e : ℕ × Container) : (headerBytes e).length = 4 := by
  simp [headerBytes]

theorem length_offsetBytes (offset : ℕ) (es : List (ℕ × Container)) :
    (offsetBytes offset es).length = es.length * 4 := by
  induction es generalizing offset with
  | nil => rfl
  | cons e es ih =>
    rw [offsetBytes, List.length_append, length_leBytes, ih, List.length_cons]
    ring

theorem length_flagByte (b : Bitmap) (i : ℕ) : (b.flagByte i).length = 1 :=
  length_leBytes 1 _

theorem length_flagBytes (b : Bitmap) (h : b.runCookie = true) :
    b.flagBytes.length = (b.entries.length + 7) / 8 := by
  rw [flagBytes, if_pos h, length_flatMap_of_length b.length_flagByte, List.length_range, mul_one]

/-- The cookie of the bitmap, as a number. -/
def cookie (b : Bitmap) : ℕ :=
  if b.runCookie then 12347 + (b.entries.length - 1) * 65536 else 12346

theorem cookie_lt (b : Bitmap) : b.cookie < 256 ^ 4 := by
  have hlen := b.entries_length
  rw [cookie]
  split_ifs <;> omega

theorem cookie_low (b : Bitmap) : b.cookie &&& 0xffff = 12347 ↔ b.runCookie = true := by
  have hmod : b.cookie &&& 0xffff = b.cookie % 65536 := Nat.and_two_pow_sub_one_eq_mod _ 16
  rw [hmod, cookie]
  cases b.runCookie with
  | true =>
    simp only [if_true, iff_true]
    omega
  | false => simp

end Bitmap

/-- What the walker keeps of a bitmap's header. -/
def Bitmap.layout (b : Bitmap) (rest : List UInt8) : Layout where
  containers := b.entries.length
  runBits :=
    if b.runCookie then
      some (b.flagBytes ++ (b.entries.flatMap Bitmap.headerBytes ++ (b.offsets ++
        (b.containerBytes ++ rest))))
    else none
  headers := b.entries.flatMap Bitmap.headerBytes ++ (b.offsets ++ (b.containerBytes ++ rest))
  payload := ⟨b.containerBytes ++ rest, b.containerBytes.length⟩

theorem take_front {bs rest : List UInt8} {left n : ℕ} (hn : bs.length = n) :
    Cursor.take ⟨bs ++ rest, n + left⟩ n = .ok (bs ++ rest, ⟨rest, left⟩) := by
  rw [take_append hn (Nat.le_add_right n left), Nat.add_sub_cancel_left]

/-- The count of containers after the cookie, of a bitmap without the run cookie. -/
def Bitmap.countBytes (b : Bitmap) : List UInt8 :=
  if b.runCookie then [] else leBytes 4 b.entries.length

theorem Bitmap.cookieBytes_eq (b : Bitmap) : b.cookieBytes = leBytes 4 b.cookie ++ b.countBytes := by
  rw [cookieBytes, cookie, countBytes]
  cases b.runCookie <;> simp

theorem readContainers_bytes (b : Bitmap) (rest : List UInt8) (left : ℕ) :
    readContainers b.cookie ⟨b.countBytes ++ rest, b.countBytes.length + left⟩ =
      .ok (b.entries.length, ⟨rest, left⟩) := by
  have hlen := b.entries_length
  rw [readContainers, Bitmap.countBytes]
  cases hb : b.runCookie with
  | true =>
    have hne : b.entries.length ≠ 0 := by simpa using b.run_nonempty hb
    rw [if_pos (b.cookie_low.mpr hb), Bitmap.cookie, if_pos hb, Nat.shiftRight_eq_div_pow]
    simp only [if_true, List.nil_append, List.length_nil, Nat.zero_add]
    congr 2
    omega
  | false =>
    rw [if_neg (by rw [b.cookie_low, hb]; exact Bool.false_ne_true)]
    simp only [Bool.false_eq_true, if_false]
    rw [length_leBytes, take_front (length_leBytes 4 _), ok_bind]
    simp only [readLe_leBytes (show b.entries.length < 256 ^ 4 by omega), ok_bind]

theorem readRunBits_bytes (b : Bitmap) (rest : List UInt8) (left : ℕ) :
    readRunBits b.cookie b.entries.length ⟨b.flagBytes ++ rest, b.flagBytes.length + left⟩ =
      .ok (if b.runCookie then some (b.flagBytes ++ rest) else none, ⟨rest, left⟩) := by
  rw [readRunBits]
  cases hb : b.runCookie with
  | true =>
    have hflags := b.length_flagBytes hb
    rw [if_pos (b.cookie_low.mpr hb), hflags, take_front hflags, ok_bind, if_pos rfl]
  | false =>
    rw [if_neg (by rw [b.cookie_low, hb]; exact Bool.false_ne_true), if_neg Bool.false_ne_true,
      Bitmap.flagBytes, if_neg (by rw [hb]; exact Bool.false_ne_true)]
    simp

theorem skipOffsets_bytes (b : Bitmap) (rest : List UInt8) (left : ℕ) :
    skipOffsets b.cookie b.entries.length ⟨b.offsets ++ rest, b.offsets.length + left⟩ =
      .ok ⟨rest, left⟩ := by
  rw [skipOffsets, Bitmap.offsets, Bitmap.hasOffsets]
  by_cases h : b.runCookie = true ∧ b.entries.length < 4
  · rw [if_pos (by rwa [b.cookie_low]), h.1, if_neg (by simpa using h.2)]
    simp
  · have hskip : (!b.runCookie || decide (4 ≤ b.entries.length)) = true := by
      rw [Bool.or_eq_true, decide_eq_true_eq]
      by_cases hb : b.runCookie = true
      · exact .inr (Nat.not_lt.mp fun hlt => h ⟨hb, hlt⟩)
      · exact .inl (by simpa using hb)
    rw [if_neg (by rwa [b.cookie_low]), if_pos hskip, Bitmap.length_offsetBytes,
      take_front (Bitmap.length_offsetBytes _ _), ok_bind]

theorem Bitmap.bytes_append (b : Bitmap) (rest : List UInt8) :
    b.bytes ++ rest = leBytes 4 b.cookie ++ (b.countBytes ++ (b.flagBytes ++
      (b.entries.flatMap headerBytes ++ (b.offsets ++ (b.containerBytes ++ rest))))) := by
  simp only [bytes, preamble, cookieBytes_eq, List.append_assoc]

theorem Bitmap.length_bytes (b : Bitmap) :
    b.bytes.length = 4 + (b.countBytes.length + (b.flagBytes.length +
      (b.entries.length * 4 + (b.offsets.length + b.containerBytes.length)))) := by
  have h := congrArg List.length (b.bytes_append [])
  simpa only [List.append_nil, List.length_append, length_leBytes,
    length_flatMap_of_length length_headerBytes] using h

/-- The header of a bitmap, read from its bytes. -/
theorem readLayout_bytes (b : Bitmap) (rest : List UInt8) :
    readLayout ⟨b.bytes ++ rest, b.bytes.length⟩ = .ok (b.layout rest) := by
  rw [readLayout, b.bytes_append, b.length_bytes, take_front (length_leBytes 4 _), ok_bind]
  simp only [readLe_leBytes b.cookie_lt, ok_bind, readContainers_bytes, readRunBits_bytes,
    take_front (length_flatMap_of_length Bitmap.length_headerBytes b.entries), skipOffsets_bytes]
  rfl

/-! ## The whole bitmap -/

theorem headers_drop (b : Bitmap) (rest : List UInt8) {i : ℕ} (hi : i < b.entries.length) :
    ∃ more, (b.layout rest).headers.drop (i * 4) =
      leBytes 2 b.entries[i].1 ++ (leBytes 2 (b.entries[i].2.elements.length - 1) ++ more) := by
  refine ⟨(b.entries.drop (i + 1)).flatMap Bitmap.headerBytes ++
    (b.offsets ++ (b.containerBytes ++ rest)), ?_⟩
  rw [Bitmap.layout, drop_table Bitmap.length_headerBytes hi, Bitmap.headerBytes,
    List.append_assoc]

theorem readLe_key (b : Bitmap) (rest : List UInt8) {i : ℕ} (hi : i < b.entries.length) :
    readLe 2 ((b.layout rest).headers.drop (i * 4)) = .ok b.entries[i].1 := by
  obtain ⟨more, hmore⟩ := headers_drop b rest hi
  rw [hmore, readLe_leBytes (b.keys_lt _ (List.getElem_mem hi))]

theorem readLe_cardinality (b : Bitmap) (rest : List UInt8) {i : ℕ} (hi : i < b.entries.length) :
    readLe 2 ((b.layout rest).headers.drop (i * 4 + 2)) =
      .ok (b.entries[i].2.elements.length - 1) := by
  obtain ⟨more, hmore⟩ := headers_drop b rest hi
  have hlen := (Container.elements_length (b.valid _ (List.getElem_mem hi))).2
  rw [← List.drop_drop, hmore, List.drop_append_of_le_length (by simp),
    List.drop_of_length_le (by simp), List.nil_append,
    readLe_leBytes (show b.entries[i].2.elements.length - 1 < 256 ^ 2 by omega)]

theorem checkKeys_bytes (b : Bitmap) (rest : List UInt8) :
    checkKeys (b.layout rest) = .ok () := by
  rw [checkKeys]
  refine foldlM_eq_ok (g := fun _ _ => ()) ?_ ()
  · intro _ i hi
    have hrange := List.mem_range'_1.mp hi
    have hcount : (b.layout rest).containers = b.entries.length := rfl
    have hi' : i < b.entries.length := by omega
    have hprev : i - 1 < b.entries.length := by omega
    have hlt : b.entries[i - 1].1 < b.entries[i].1 :=
      List.pairwise_iff_getElem.mp b.keys_sorted (i - 1) i hprev hi' (by omega)
    rw [checkKey, readLe_key b rest hi', ok_bind, readLe_key b rest hprev, ok_bind,
      if_neg (by omega)]

theorem isRun_bytes (b : Bitmap) (rest : List UInt8) {i : ℕ} (hi : i < b.entries.length) :
    isRun (b.layout rest).runBits i = .ok b.entries[i].2.isRun := by
  have hmem := List.getElem_mem hi
  rw [Bitmap.layout]
  cases hb : b.runCookie with
  | true =>
    have hbyte : i / 8 < (List.range ((b.entries.length + 7) / 8)).length := by
      rw [List.length_range]
      omega
    have hplace : i / 8 * 8 + i % 8 = i := by omega
    rw [if_pos rfl, isRun, Bitmap.flagBytes, if_pos hb, ← Nat.mul_one (i / 8),
      drop_table b.length_flagByte hbyte, List.getElem_range, Bitmap.flagByte,
      readLe_leBytes (by simpa using Nat.ofBits_lt_two_pow _), ok_bind,
      Nat.testBit_ofBits_lt _ _ (Nat.mod_lt i (by norm_num))]
    simp only [hplace, List.getElem?_eq_getElem hi]
  | false =>
    rw [if_neg Bool.false_ne_true, isRun, b.run_flagged hb _ hmem]

section Walk

variable {σ : Type} {maxOut : ℕ} {emit : σ → ℕ → Except DecodeFailure σ} {materialize : Bool}

theorem walk_bytes (b : Bitmap) (rest : List UInt8) {out : σ} {t : Tally σ}
    (ht : deliverAll maxOut emit materialize b.entries ⟨0, out⟩ = .ok t) :
    ∃ c, walk maxOut emit materialize (b.layout rest) out = .ok (c, t) := by
  have hcontainer : ∀ (s : Cursor × Tally σ) (i : ℕ) (hi : i < b.entries.length),
      walkContainer maxOut emit materialize (b.layout rest) s i =
        walkEntry maxOut emit materialize s b.entries[i] := by
    intro s i hi
    have hlen := (Container.elements_length (b.valid _ (List.getElem_mem hi))).1
    have hcard : b.entries[i].2.elements.length - 1 + 1 = b.entries[i].2.elements.length := by
      omega
    rw [walkContainer, readLe_key b rest hi, ok_bind, readLe_cardinality b rest hi, ok_bind,
      isRun_bytes b rest hi, ok_bind, hcard, walkEntry]
  have hloop : walk maxOut emit materialize (b.layout rest) out =
      b.entries.foldlM (walkEntry maxOut emit materialize)
        (⟨b.containerBytes ++ rest, b.containerBytes.length⟩, ⟨0, out⟩) :=
    foldlM_range_eq hcontainer _
  refine ⟨⟨rest, b.containerBytes.length - b.containerBytes.length⟩, ?_⟩
  rw [hloop]
  exact walkEntry_foldlM_bytes b.valid le_rfl ht

/-- Counted, the containers come to the number of their elements. -/
theorem deliverAll_count (entries : List (ℕ × Container)) (t : Tally σ) :
    deliverAll maxOut emit false entries t =
      .ok ⟨t.total + (entries.flatMap fun e => e.2.elements.map (e.1 * 65536 + ·)).length,
        t.out⟩ := by
  induction entries generalizing t with
  | nil => rfl
  | cons e entries ih =>
    rw [deliverAll, List.foldlM_cons]
    simp only [deliver, Bool.false_eq_true, if_false, ok_bind]
    have hrest := ih ⟨t.total + e.2.elements.length, t.out⟩
    simp only [deliverAll, deliver, Bool.false_eq_true, if_false] at hrest
    rw [hrest, List.flatMap_cons, List.length_append, List.length_map, Nat.add_assoc]

theorem append_foldlM {key : ℕ} {lows : List ℕ} (hlows : ∀ low ∈ lows, low < 65536) {t : Tally σ}
    {out : σ} (hbudget : t.total + lows.length ≤ maxOut)
    (hemit : (lows.map (key * 65536 + ·)).foldlM emit t.out = .ok out) :
    lows.foldlM (append maxOut emit key) t = .ok ⟨t.total + lows.length, out⟩ := by
  induction lows generalizing t with
  | nil =>
    obtain ⟨rfl⟩ := hemit
    rfl
  | cons low lows ih =>
    rw [List.map_cons, List.foldlM_cons, bind_eq_ok] at hemit
    obtain ⟨out', hlow, hemit⟩ := hemit
    have hvalue : key <<< 16 ||| low = key * 65536 + low := by
      have hlt : low < 2 ^ 16 := hlows low List.mem_cons_self
      rw [← Nat.shiftLeft_add_eq_or_of_lt hlt, Nat.shiftLeft_eq]
    rw [List.length_cons] at hbudget ⊢
    have happend : append maxOut emit key t low = .ok ⟨t.total + 1, out'⟩ := by
      rw [append, if_neg (by omega), hvalue, hlow, ok_bind]
    rw [List.foldlM_cons, happend, ok_bind,
      ih (fun v hv => hlows v (List.mem_cons_of_mem low hv)) (by simp only; omega) hemit]
    simp only [Nat.add_assoc, Nat.add_comm 1]

/-- Emitted, the containers come to a run of `emit` over their elements. -/
theorem deliverAll_emit {entries : List (ℕ × Container)} (hvalid : ∀ e ∈ entries, e.2.Valid)
    {t : Tally σ} {out : σ}
    (hbudget : t.total + (entries.flatMap fun e => e.2.elements.map (e.1 * 65536 + ·)).length ≤
      maxOut)
    (hemit : (entries.flatMap fun e => e.2.elements.map (e.1 * 65536 + ·)).foldlM emit t.out =
      .ok out) :
    deliverAll maxOut emit true entries t =
      .ok ⟨t.total + (entries.flatMap fun e => e.2.elements.map (e.1 * 65536 + ·)).length,
        out⟩ := by
  induction entries generalizing t with
  | nil =>
    obtain ⟨rfl⟩ := hemit
    rfl
  | cons e entries ih =>
    rw [List.flatMap_cons, List.foldlM_append, bind_eq_ok] at hemit
    obtain ⟨out', hfirst, hemit⟩ := hemit
    rw [List.flatMap_cons, List.length_append, List.length_map] at hbudget ⊢
    have hdeliver : deliver maxOut emit true e.1 e.2.elements t =
        .ok ⟨t.total + e.2.elements.length, out'⟩ := by
      rw [deliver, if_pos rfl]
      exact append_foldlM (Container.elements_lt (hvalid e List.mem_cons_self)) (by omega) hfirst
    have hrest := ih (fun q hq => hvalid q (List.mem_cons_of_mem e hq))
      (t := ⟨t.total + e.2.elements.length, out'⟩) (by simp only; omega) hemit
    rw [deliverAll] at hrest ⊢
    rw [List.foldlM_cons, hdeliver, ok_bind, hrest]
    simp only [Nat.add_assoc]

/-- **The walk of a serialized bitmap** emits its elements in order and consumes exactly
its bytes, whatever stands behind them. -/
theorem walkRoaring32_bytes (b : Bitmap) {size : List UInt8 → ℕ}
    (hsize : ∀ rest, size (b.bytes ++ rest) = b.bytes.length) (rest : List UInt8) {len : ℕ}
    (hlen : b.bytes.length ≤ len) {out out' : σ} (hbudget : b.elements.length ≤ maxOut)
    (hemit : b.elements.foldlM emit out = .ok out') :
    walkRoaring32 maxOut emit size (b.bytes ++ rest) len out = .ok (b.bytes.length, out') := by
  have hconsumed : size ((b.bytes ++ rest).take len) = b.bytes.length := by
    rw [List.take_append, List.take_of_length_le hlen, hsize]
  have hpos : ¬b.bytes.length = 0 := by
    rw [b.length_bytes]
    omega
  have hbudget' : 0 + b.elements.length ≤ maxOut := by rwa [Nat.zero_add]
  have hcounted : deliverAll maxOut emit false b.entries ⟨0, out⟩ =
      .ok ⟨0 + b.elements.length, out⟩ := deliverAll_count b.entries ⟨0, out⟩
  have hemitted : deliverAll maxOut emit true b.entries ⟨0, out⟩ =
      .ok ⟨0 + b.elements.length, out'⟩ := deliverAll_emit b.valid hbudget' hemit
  obtain ⟨_, hcount⟩ := walk_bytes b rest hcounted
  obtain ⟨_, hwalk⟩ := walk_bytes b rest hemitted
  unfold walkRoaring32
  simp only [hconsumed]
  rw [if_neg hpos, readLayout_bytes, ok_bind, checkKeys_bytes, ok_bind, hcount, ok_bind,
    if_neg (Nat.not_lt.mpr hbudget'), hwalk, ok_bind]

end Walk

end Sirius.Scan.Puffin
