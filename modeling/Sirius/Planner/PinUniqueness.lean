import Sirius.Common.Distinct

/-!
# The uniqueness probe of a pin

Model of `unique_probe` (src/late_mat/pin_uniqueness.cpp:182-378): what the chunks of a pinned table
prove about the distinctness of its columns. The device checks of cuDF and the reservations are
parameters, given with each chunk: a check may throw, and what it returns is right (`Correct`).

* `judge`: what a chunk says about a column.
* `observe`, `exactUnavailable`, `verdicts`: the operations.
* `Evidence`: what the recorded ranges say about the values so far.
* `proven_distinct`: a proven column has no null and no repeat.
-/

namespace Sirius.Planner.PinUniqueness

open Sirius.Common.Distinct

variable {γ : Type}

/-! ## Chunks -/

/-- A column of a chunk: integers with the width of their type, or values of another type. -/
inductive Column (γ : Type) where
  | integral (width : ℕ) (values : List (Option ℤ))
  | other (values : List (Option γ))
  deriving DecidableEq, Repr

/-- The values of a column, null where there is none. -/
def Column.entries : Column γ → List (Option (ℤ ⊕ γ))
  | .integral _ values => values.map (Option.map Sum.inl)
  | .other values => values.map (Option.map Sum.inr)

def Column.size (column : Column γ) : ℕ := column.entries.length

def Column.hasNulls (column : Column γ) : Bool := column.entries.any Option.isNone

/-- The device checks on a column of a chunk, `none` where one throws: `cudf::minmax` as
    `chunk_range` calls it (lines 232-242), before and after the count, `cudf::is_sorted`,
    `cudf::sort` and `cudf::unique_count`. Nothing is asked when there is no reservation. -/
structure Device where
  earlyRange : List ℤ → Option (Range ℤ)
  isSorted : List ℤ → Option Bool
  sort : List ℤ → Option (List ℤ)
  uniqueCount : List ℤ → Option ℕ
  lateRange : List ℤ → Option (Range ℤ)
  tryReserveSortMemory : Option (ℕ → Option Bool) := none

/-- What a check returns is right. `cudf::unique_count` counts the runs of equal neighbours. -/
structure Device.Correct (device : Device) : Prop where
  range : ∀ values r, device.earlyRange values = some r ∨ device.lateRange values = some r →
    Within r values
  isSorted : ∀ values b, device.isSorted values = some b → (b = true ↔ values.Pairwise (· ≤ ·))
  sort : ∀ values sorted, device.sort values = some sorted →
    sorted.Pairwise (· ≤ ·) ∧ sorted.Perm values
  uniqueCount : ∀ values n, device.uniqueCount values = some n → n = runCount values

/-- The memory for a sort is there: nothing is asked for it, or the reservation returns true. -/
def Device.reserves (device : Device) (bytes : ℕ) : Bool :=
  match device.tryReserveSortMemory with
  | none => true
  | some reserve => reserve bytes = some true

abbrev Chunk (γ : Type) := List (Column γ × Device)

/-! ## The probe -/

structure ColumnState where
  observed : Bool := false
  candidate : Bool := false
  automatic : Bool := false
  cheapUndecidable : Bool := false
  exactAvailable : Bool := true
  ranges : List (Range ℤ) := []
  deriving DecidableEq, Repr

structure Probe where
  columns : List ColumnState
  liveCandidates : ℕ
  deriving DecidableEq, Repr

/-- The constructor (lines 182-191). -/
def Probe.new (selected automatic : List Bool) : Probe where
  columns := selected.mapIdx fun i observed =>
    { observed := observed, candidate := observed
      automatic := observed && (automatic[i]?).getD false }
  liveCandidates := selected.count true

/-- `drop` (lines 193-203). -/
def drop (p : Probe) (columnPos : ℕ) : Probe :=
  match p.columns[columnPos]? with
  | none => p
  | some state =>
    if !state.candidate then p
    else
      { columns := p.columns.set columnPos { state with candidate := false, ranges := [] }
        liveCandidates := p.liveCandidates - 1 }

/-- `exact_unavailable` (lines 205-208). -/
def exactUnavailable (p : Probe) (columnPos : ℕ) : Probe :=
  { p with columns := p.columns.modify columnPos fun state => { state with exactAvailable := false } }

/-- What a chunk says about a column. -/
inductive Judgement where
  | keep
  | drop
  | undecidable
  | record (range : Range ℤ)
  deriving DecidableEq, Repr

/-- `sort_scratch_factor`. -/
def sortScratchFactor : ℕ := 3

/-- The values in order (lines 293-316): as they are, sorted, or a judgement without them. -/
def sortedValues (state : ColumnState) (width : ℕ) (values : List ℤ) (device : Device) :
    Except Judgement (List ℤ) :=
  match device.isSorted values with
  | none => .error .drop
  | some true => .ok values
  | some false =>
    if !state.automatic then .error .undecidable
    else if !device.reserves (values.length * width * sortScratchFactor) then .error .drop
    else (device.sort values).elim (.error .drop) .ok

/-- The count of the distinct values and their range (lines 317-334). -/
def judgeValues (state : ColumnState) (width : ℕ) (values : List ℤ) (device : Device)
    (early : Option (Range ℤ)) : Judgement :=
  match sortedValues state width values device with
  | .error judgement => judgement
  | .ok sorted =>
    if device.uniqueCount sorted ≠ some values.length then .drop
    else
      match early.or (device.lateRange values) with
      | none => .undecidable
      | some range => .record range

def overlaps (a b : Range ℤ) : Bool := a.min ≤ b.max && b.min ≤ a.max

/-- A column of integers without nulls (lines 283-334). -/
def judgeIntegers (state : ColumnState) (width : ℕ) (values : List ℤ) (device : Device) : Judgement :=
  if state.automatic && !state.exactAvailable then
    match device.earlyRange values with
    | none => .drop
    | some early =>
      if state.ranges.any fun earlier => overlaps earlier early then .drop
      else judgeValues state width values device (some early)
  else judgeValues state width values device none

/-- One column of `observe` (lines 248-334). -/
def judge (state : ColumnState) (column : Column γ) (device : Device) : Judgement :=
  if column.size = 0 then .keep
  else if column.hasNulls then .drop
  else
    match column with
    | .other _ => if state.automatic then .drop else .undecidable
    | .integral width values => judgeIntegers state width (values.filterMap id) device

/-- One turn of the loop of `observe`. -/
def observeColumn (chunk : Chunk γ) (p : Probe) (i : ℕ) : Probe :=
  if p.liveCandidates = 0 then p
  else
    match p.columns[i]?, chunk[i]? with
    | some state, some (column, device) =>
      if !state.candidate then p
      else
        match judge state column device with
        | .keep => p
        | .drop => drop p i
        | .undecidable => { p with columns := p.columns.set i { state with cheapUndecidable := true } }
        | .record range =>
          { p with columns := p.columns.set i { state with ranges := state.ranges ++ [range] } }
    | _, _ => p

/-- `observe` (lines 210-335). -/
def observe (p : Probe) (chunk : Chunk γ) : Probe :=
  if p.liveCandidates = 0 then p
  else if chunk.length ≠ p.columns.length then (List.range p.columns.length).foldl drop p
  else (List.range p.columns.length).foldl (observeColumn chunk) p

/-- `unique_verdict`. -/
inductive Verdict where
  | notObserved
  | refused
  | undecided
  | proven
  deriving DecidableEq, Repr

/-- The verdict on a column (lines 341-364). Ranges with one minimum overlap, so that their order
    after the sort does not matter. -/
def verdict (state : ColumnState) : Verdict :=
  if !state.observed then .notObserved
  else if !state.candidate then .refused
  else if state.cheapUndecidable then .undecided
  else if adjacentApart (state.ranges.insertionSort fun a b => a.min ≤ b.min) then .proven
  else .undecided

/-- `verdicts` (lines 337-367). -/
def verdicts (p : Probe) : List Verdict := p.columns.map verdict

/-- A call of the pin. -/
inductive Call (γ : Type) where
  | observe (chunk : Chunk γ)
  | exactUnavailable (columnPos : ℕ)

def apply (p : Probe) : Call γ → Probe
  | .observe chunk => observe p chunk
  | .exactUnavailable columnPos => exactUnavailable p columnPos

/-- The chunks that were observed. -/
def observedChunks (calls : List (Call γ)) : List (Chunk γ) :=
  calls.filterMap fun
    | .observe chunk => some chunk
    | .exactUnavailable _ => none

/-- The values of a column over chunks. -/
def valuesOf (i : ℕ) (chunks : List (Chunk γ)) : List (Option (ℤ ⊕ γ)) :=
  chunks.flatMap fun chunk => (chunk[i]?).elim [] fun c => c.1.entries

/-! ## What a chunk says -/

variable {state : ColumnState} {column : Column γ} {device : Device} {range : Range ℤ}

variable {values : List ℤ}

variable {width : ℕ}

theorem sortedValues_ok {values sorted : List ℤ} (hd : device.Correct)
    (h : sortedValues state width values device = .ok sorted) :
    sorted.Pairwise (· ≤ ·) ∧ sorted.Perm values := by
  unfold sortedValues at h
  split at h
  · cases h
  · rename_i hsorted
    obtain rfl := Except.ok.inj h
    exact ⟨(hd.isSorted values true hsorted).mp rfl, List.Perm.refl _⟩
  · split_ifs at h
    cases hsort : device.sort values with
    | none => simp [hsort] at h
    | some l =>
      rw [hsort] at h
      obtain rfl := Except.ok.inj h
      exact hd.sort values l hsort

theorem sortedValues_error {judgement : Judgement}
    (h : sortedValues state width values device = .error judgement) :
    judgement = .drop ∨ judgement = .undecidable := by
  unfold sortedValues at h
  split at h
  · exact .inl (Except.error.inj h).symm
  · cases h
  · split_ifs at h
    · exact .inr (Except.error.inj h).symm
    · exact .inl (Except.error.inj h).symm
    · cases hsort : device.sort values with
      | none =>
        rw [hsort] at h
        exact .inl (Except.error.inj h).symm
      | some l => simp [hsort] at h

theorem judgeValues_record {early : Option (Range ℤ)} (hd : device.Correct)
    (hearly : ∀ r, early = some r → Within r values)
    (h : judgeValues state width values device early = .record range) :
    values.Nodup ∧ Within range values := by
  unfold judgeValues at h
  cases hsorted : sortedValues state width values device with
  | error judgement =>
    rw [hsorted] at h
    obtain rfl : judgement = .record range := h
    rcases sortedValues_error hsorted with hj | hj <;> cases hj
  | ok sorted =>
    rw [hsorted] at h
    dsimp only at h
    split_ifs at h with hcount
    obtain ⟨hpairwise, hperm⟩ := sortedValues_ok hd hsorted
    rw [not_not, ← hperm.length_eq] at hcount
    replace hcount := (hd.uniqueCount _ _ hcount).symm
    have hnodup : sorted.Nodup := (pairwise_lt_of_runCount hpairwise hcount).imp ne_of_lt
    refine ⟨hperm.nodup_iff.mp hnodup, ?_⟩
    split at h
    · cases h
    · rename_i r hr
      obtain rfl := Judgement.record.inj h
      cases hcase : early with
      | none =>
        rw [hcase, Option.none_or] at hr
        exact hd.range values r (.inr hr)
      | some r' =>
        rw [hcase, Option.some_or] at hr
        exact hearly r (hcase.trans hr)

theorem judgeIntegers_record (hd : device.Correct)
    (h : judgeIntegers state width values device = .record range) :
    values.Nodup ∧ Within range values := by
  unfold judgeIntegers at h
  split_ifs at h
  · cases hearly : device.earlyRange values with
    | none => simp [hearly] at h
    | some early =>
      rw [hearly] at h
      dsimp only at h
      split_ifs at h
      refine judgeValues_record hd (fun r hr => ?_) h
      obtain rfl := Option.some.inj hr
      exact hd.range values early (.inl hearly)
  · exact judgeValues_record hd (fun r hr => by cases hr) h

theorem judgeValues_ne_keep {early : Option (Range ℤ)} :
    judgeValues state width values device early ≠ .keep := by
  intro h
  unfold judgeValues at h
  split at h
  · rename_i hsorted
    rw [h] at hsorted
    rcases sortedValues_error hsorted with hj | hj <;> cases hj
  · split_ifs at h
    split at h <;> cases h

/-- A column of integers without nulls. -/
theorem map_some_filterMap {values : List (Option ℤ)}
    (h : (values.map (Option.map (Sum.inl (β := γ)))).any Option.isNone = false) :
    values.map (Option.map (Sum.inl (β := γ)))
      = (values.filterMap id).map fun v => some (.inl v) := by
  induction values with
  | nil => rfl
  | cons v values ih =>
    rw [List.map_cons, List.any_cons, Bool.or_eq_false_iff] at h
    obtain ⟨hv, hrest⟩ := h
    cases v with
    | none => cases hv
    | some v =>
      rw [List.map_cons, ih hrest]
      rfl

/-- **What a recorded range says**: the values of the chunk are integers in the range, without null
    and without repeat. -/
theorem judge_record (hd : device.Correct) (h : judge state column device = .record range) :
    ∃ values : List ℤ, column.entries = values.map (fun v => some (.inl v)) ∧ values.Nodup ∧
      Within range values := by
  unfold judge at h
  by_cases hsize : column.size = 0
  · rw [if_pos hsize] at h
    cases h
  rw [if_neg hsize] at h
  by_cases hnulls : column.hasNulls
  · rw [if_pos hnulls] at h
    cases h
  rw [if_neg hnulls] at h
  cases column with
  | other values =>
    dsimp only at h
    split_ifs at h
  | integral width values =>
    refine ⟨values.filterMap id, map_some_filterMap ?_, judgeIntegers_record hd h⟩
    exact (Bool.not_eq_true _).mp hnulls

/-- A column is passed over only when it is empty. -/
theorem judge_keep (h : judge state column device = .keep) : column.entries = [] := by
  unfold judge at h
  by_cases hsize : column.size = 0
  · exact List.eq_nil_of_length_eq_zero hsize
  rw [if_neg hsize] at h
  by_cases hnulls : column.hasNulls
  · rw [if_pos hnulls] at h
    cases h
  rw [if_neg hnulls] at h
  cases column with
  | other values =>
    dsimp only at h
    split_ifs at h
  | integral width values =>
    dsimp only [judgeIntegers] at h
    split_ifs at h
    · split at h
      · cases h
      · split_ifs at h
        exact absurd h judgeValues_ne_keep
    · exact absurd h judgeValues_ne_keep

/-! ## The evidence of a column -/

/-- What a chunk makes of a column. -/
def judged (state : ColumnState) (column : Column γ) (device : Device) : ColumnState :=
  if !state.candidate then state
  else
    match judge state column device with
    | .keep => state
    | .drop => { state with candidate := false, ranges := [] }
    | .undecidable => { state with cheapUndecidable := true }
    | .record range => { state with ranges := state.ranges ++ [range] }

/-- The ranges of a candidate that was always decidable: one for each chunk that is not empty, with
    the values of the chunk in it, all chunks as wide as the selection. -/
def Evidence (width i : ℕ) (chunks : List (Chunk γ)) (state : ColumnState) : Prop :=
  state.candidate → (∀ chunk ∈ chunks, chunk.length = width) ∧
    (state.cheapUndecidable = false → ∃ evidence : List (Range ℤ × List ℤ),
      state.ranges = evidence.map Prod.fst ∧
      (∀ e ∈ evidence, e.2.Nodup ∧ Within e.1 e.2) ∧
      valuesOf i chunks = (evidence.map Prod.snd).flatten.map fun v => some (.inl v))

variable {chunk : Chunk γ}

theorem valuesOf_concat (i : ℕ) (chunks : List (Chunk γ)) (h : chunk[i]? = some (column, device)) :
    valuesOf i (chunks ++ [chunk]) = valuesOf i chunks ++ column.entries := by
  unfold valuesOf
  rw [List.flatMap_append]
  simp [h]

variable {chunks : List (Chunk γ)}

/-- **A chunk keeps the evidence.** -/
theorem Evidence.judged {width i : ℕ} (he : Evidence width i chunks state)
    (hwidth : chunk.length = width) (hchunk : chunk[i]? = some (column, device))
    (hd : device.Correct) :
    Evidence width i (chunks ++ [chunk]) (judged state column device) := by
  unfold PinUniqueness.judged
  by_cases hcandidate : state.candidate
  · obtain ⟨hwidths, hdecided⟩ := he hcandidate
    have hwidths' : ∀ c ∈ chunks ++ [chunk], c.length = width := by
      intro c hc
      rcases List.mem_append.mp hc with hc | hc
      · exact hwidths c hc
      · rw [List.mem_singleton.mp hc]
        exact hwidth
    rw [if_neg (by simp [hcandidate])]
    cases hjudge : judge state column device with
    | keep =>
      refine fun _ => ⟨hwidths', fun hflag => ?_⟩
      obtain ⟨evidence, hranges, hvalues, heq⟩ := hdecided hflag
      refine ⟨evidence, hranges, hvalues, ?_⟩
      rw [valuesOf_concat i chunks hchunk, judge_keep hjudge, List.append_nil, heq]
    | drop => exact fun h => by cases h
    | undecidable => exact fun _ => ⟨hwidths', fun hflag => by cases hflag⟩
    | record range =>
      refine fun _ => ⟨hwidths', fun hflag => ?_⟩
      obtain ⟨evidence, hranges, hvalues, heq⟩ := hdecided hflag
      obtain ⟨values, hentries, hnodup, hwithin⟩ := judge_record hd hjudge
      refine ⟨evidence ++ [(range, values)], ?_, fun e he => ?_, ?_⟩
      · rw [List.map_append, ← hranges]
        rfl
      · rcases List.mem_append.mp he with he | he
        · exact hvalues e he
        · rw [List.mem_singleton.mp he]
          exact ⟨hnodup, hwithin⟩
      · rw [valuesOf_concat i chunks hchunk, hentries, heq]
        simp
  · rw [if_pos (by simpa using hcandidate)]
    exact fun h => absurd h hcandidate

/-! ## A chunk, column by column -/

variable {p : Probe} {i : ℕ}

/-- `_live_candidates` counts the candidates. -/
def Counted (p : Probe) : Prop := p.liveCandidates = p.columns.countP ColumnState.candidate

theorem not_candidate_of_zero (hc : Counted p) (hzero : p.liveCandidates = 0)
    (hi : p.columns[i]? = some state) : state.candidate = false := by
  unfold Counted at hc
  rw [hzero] at hc
  have hnot := List.countP_eq_zero.mp hc.symm state (List.mem_of_getElem? hi)
  simpa using hnot

/-- The column that is dropped. -/
def dropped (state : ColumnState) : ColumnState :=
  if state.candidate then { state with candidate := false, ranges := [] } else state

theorem set_self (hi : p.columns[i]? = some state) : p.columns.set i state = p.columns := by
  obtain ⟨hlt, rfl⟩ := List.getElem?_eq_some_iff.mp hi
  exact List.set_getElem_self hlt

theorem countP_set_of_eq {state' : ColumnState} (hi : p.columns[i]? = some state)
    (h : state'.candidate = state.candidate) :
    (p.columns.set i state').countP ColumnState.candidate
      = p.columns.countP ColumnState.candidate := by
  obtain ⟨hlt, rfl⟩ := List.getElem?_eq_some_iff.mp hi
  have hpos := List.boole_getElem_le_countP (p := ColumnState.candidate) hlt
  rw [List.countP_set hlt, h]
  omega

theorem drop_spec (hc : Counted p) (hi : p.columns[i]? = some state) :
    (drop p i).columns = p.columns.set i (dropped state) ∧ Counted (drop p i) := by
  unfold drop dropped
  rw [hi]
  by_cases hcandidate : state.candidate
  · simp only [hcandidate, Bool.not_true, Bool.false_eq_true, if_false, if_true, true_and]
    obtain ⟨hlt, rfl⟩ := List.getElem?_eq_some_iff.mp hi
    unfold Counted at hc ⊢
    dsimp only
    rw [List.countP_set hlt, hc]
    simp [hcandidate]
  · simp only [hcandidate, Bool.not_false, if_true, Bool.false_eq_true, if_false]
    exact ⟨(set_self hi).symm, hc⟩

/-- One turn of the loop changes the one column. -/
theorem observeColumn_spec (hc : Counted p) (hi : p.columns[i]? = some state)
    (hchunk : chunk[i]? = some (column, device)) :
    (observeColumn chunk p i).columns = p.columns.set i (judged state column device) ∧
      Counted (observeColumn chunk p i) := by
  unfold observeColumn judged
  by_cases hzero : p.liveCandidates = 0
  · have hnot := not_candidate_of_zero hc hzero hi
    simp only [hzero, hnot, Bool.not_false, if_true]
    exact ⟨(set_self hi).symm, hc⟩
  rw [if_neg hzero, hi, hchunk]
  by_cases hcandidate : state.candidate
  · simp only [hcandidate, Bool.not_true, Bool.false_eq_true, if_false]
    cases judge state column device with
    | keep => exact ⟨(set_self hi).symm, hc⟩
    | drop =>
      have hdrop := drop_spec hc hi
      rwa [dropped, if_pos hcandidate] at hdrop
    | undecidable =>
      refine ⟨rfl, hc.trans (countP_set_of_eq hi ?_).symm⟩
      exact hcandidate.symm
    | record range =>
      refine ⟨rfl, hc.trans (countP_set_of_eq hi ?_).symm⟩
      exact hcandidate.symm
  · simp only [hcandidate, Bool.not_false, if_true]
    exact ⟨(set_self hi).symm, hc⟩

/-- A loop whose turn `i` changes column `i` only. -/
theorem foldl_range_columns {f : Probe → ℕ → Probe} {g : ℕ → ColumnState → ColumnState}
    (hf : ∀ q i state, Counted q → q.columns[i]? = some state → i < p.columns.length →
      (f q i).columns = q.columns.set i (g i state) ∧ Counted (f q i))
    (hc : Counted p) {m : ℕ} (hm : m ≤ p.columns.length) :
    Counted ((List.range m).foldl f p) ∧ ∀ k, ((List.range m).foldl f p).columns[k]?
      = (p.columns[k]?).map fun state => if k < m then g k state else state := by
  induction m with
  | zero => simp [hc]
  | succ m ih =>
    obtain ⟨hcounted, hcolumns⟩ := ih (by omega)
    rw [List.range_succ, List.foldl_append, List.foldl_cons, List.foldl_nil]
    have hm' : m < p.columns.length := hm
    have hget := hcolumns m
    rw [List.getElem?_eq_getElem hm', Option.map_some, if_neg (lt_irrefl m)] at hget
    obtain ⟨hset, hcounted'⟩ := hf _ m _ hcounted hget hm'
    refine ⟨hcounted', fun k => ?_⟩
    rw [hset, List.getElem?_set, hcolumns k]
    by_cases hk : m = k
    · subst hk
      have hlt : m < ((List.range m).foldl f p).columns.length :=
        (List.getElem?_eq_some_iff.mp hget).1
      rw [if_pos rfl, if_pos hlt, List.getElem?_eq_getElem hm']
      simp
    · rw [if_neg hk]
      have hiff : k < m + 1 ↔ k < m := by omega
      simp only [hiff]

/-! ## Runs -/

/-- What every call keeps. -/
structure Sound (width : ℕ) (chunks : List (Chunk γ)) (p : Probe) : Prop where
  length : p.columns.length = width
  counted : Counted p
  evidence : ∀ i state, p.columns[i]? = some state → Evidence width i chunks state

theorem length_eq_of_columns {q : Probe} {f : ℕ → ColumnState → ColumnState}
    (h : ∀ k, q.columns[k]? = (p.columns[k]?).map (f k)) : q.columns.length = p.columns.length := by
  apply le_antisymm
  · apply List.getElem?_eq_none_iff.mp
    rw [h, List.getElem?_eq_none le_rfl]
    rfl
  · apply List.getElem?_eq_none_iff.mp
    have hnone := h q.columns.length
    rw [List.getElem?_eq_none le_rfl] at hnone
    exact Option.map_eq_none_iff.mp hnone.symm

/-- A column that is no candidate needs no evidence. -/
theorem evidence_of_not_candidate
    (h : state.candidate = false) : Evidence width i chunks state := by
  intro hcandidate
  rw [h] at hcandidate
  cases hcandidate

theorem observe_sound (hs : Sound width chunks p)
    (hd : ∀ c ∈ chunk, c.2.Correct) : Sound width (chunks ++ [chunk]) (observe p chunk) := by
  unfold observe
  by_cases hzero : p.liveCandidates = 0
  · rw [if_pos hzero]
    refine ⟨hs.length, hs.counted, fun i state hi => ?_⟩
    exact evidence_of_not_candidate (not_candidate_of_zero hs.counted hzero hi)
  rw [if_neg hzero]
  by_cases hwidth : chunk.length = p.columns.length
  · rw [if_neg (by simpa using hwidth)]
    have hloop := foldl_range_columns (p := p) (f := observeColumn chunk)
      (g := fun i state => (chunk[i]?).elim state fun c => judged state c.1 c.2)
      (fun q i state hc hi hlt => by
        have hget := List.getElem?_eq_getElem (hwidth ▸ hlt : i < chunk.length)
        have hspec := observeColumn_spec hc hi (show chunk[i]? = some (chunk[i].1, chunk[i].2) from hget)
        rw [hget]
        exact hspec) hs.counted le_rfl
    obtain ⟨hcounted, hcolumns⟩ := hloop
    refine ⟨(length_eq_of_columns hcolumns).trans hs.length, hcounted, fun i state hi => ?_⟩
    rw [hcolumns, Option.map_eq_some_iff] at hi
    obtain ⟨before, hbefore, rfl⟩ := hi
    have hlt : i < p.columns.length := (List.getElem?_eq_some_iff.mp hbefore).1
    have hget := List.getElem?_eq_getElem (hwidth ▸ hlt : i < chunk.length)
    rw [if_pos hlt, hget]
    exact (hs.evidence i before hbefore).judged (hwidth.trans hs.length) hget
      (hd _ (List.getElem_mem _))
  · rw [if_pos hwidth]
    obtain ⟨hcounted, hcolumns⟩ := foldl_range_columns (p := p) (f := drop)
      (g := fun _ => dropped) (fun q i state hc hi _ => drop_spec hc hi) hs.counted le_rfl
    refine ⟨(length_eq_of_columns hcolumns).trans hs.length, hcounted, fun i state hi => ?_⟩
    rw [hcolumns, Option.map_eq_some_iff] at hi
    obtain ⟨before, hbefore, rfl⟩ := hi
    rw [if_pos (List.getElem?_eq_some_iff.mp hbefore).1]
    apply evidence_of_not_candidate
    unfold dropped
    split_ifs with hcandidate
    · rfl
    · simpa using hcandidate

theorem exactUnavailable_sound (hs : Sound width chunks p)
    (columnPos : ℕ) : Sound width chunks (exactUnavailable p columnPos) := by
  have hcolumns : ∀ k, (exactUnavailable p columnPos).columns[k]? = (p.columns[k]?).map
      fun state => if columnPos = k then { state with exactAvailable := false } else state := by
    intro k
    show (p.columns.modify columnPos _)[k]? = _
    rw [List.getElem?_modify]
    cases p.columns[k]? with
    | none => simp
    | some state => by_cases hk : columnPos = k <;> simp [hk]
  refine ⟨(length_eq_of_columns hcolumns).trans hs.length, ?_, fun i state hi => ?_⟩
  · have hcandidates : (exactUnavailable p columnPos).columns.map ColumnState.candidate
        = p.columns.map ColumnState.candidate := by
      apply List.ext_getElem?
      intro k
      rw [List.getElem?_map, List.getElem?_map, hcolumns, Option.map_map]
      congr 1
      funext state
      rw [Function.comp_apply]
      split_ifs <;> rfl
    have hcount := congrArg (List.countP id) hcandidates
    rw [List.countP_map, List.countP_map] at hcount
    exact hs.counted.trans hcount.symm
  · rw [hcolumns, Option.map_eq_some_iff] at hi
    obtain ⟨before, hbefore, rfl⟩ := hi
    have he := hs.evidence i before hbefore
    split_ifs
    · exact he
    · exact he

/-- The run lemma. -/
theorem run_sound (calls : List (Call γ))
    (hd : ∀ chunk ∈ observedChunks calls, ∀ c ∈ chunk, c.2.Correct) (hs : Sound width chunks p) :
    Sound width (chunks ++ observedChunks calls) (calls.foldl apply p) := by
  induction calls generalizing p chunks with
  | nil =>
    rw [observedChunks, List.filterMap_nil, List.append_nil]
    exact hs
  | cons call calls ih =>
    cases call with
    | observe chunk =>
      have hcons : observedChunks (.observe chunk :: calls) = chunk :: observedChunks calls := rfl
      rw [hcons, List.forall_mem_cons] at hd
      have hrest := ih hd.2 (observe_sound hs hd.1)
      rwa [List.append_assoc] at hrest
    | exactUnavailable columnPos => exact ih hd (exactUnavailable_sound hs columnPos)

theorem new_sound (selected automatic : List Bool) :
    Sound selected.length ([] : List (Chunk γ)) (Probe.new selected automatic) where
  length := List.length_mapIdx
  counted := by
    have hmap : (Probe.new selected automatic).columns.map ColumnState.candidate = selected := by
      apply List.ext_getElem?
      intro i
      rw [List.getElem?_map, Probe.new, List.getElem?_mapIdx, Option.map_map]
      exact Option.map_id_apply
    have hcount := congrArg (List.countP (· == true)) hmap
    rw [List.countP_map] at hcount
    have hcandidate : ((· == true) ∘ ColumnState.candidate) = ColumnState.candidate := by
      funext state
      exact beq_true _
    rw [hcandidate] at hcount
    exact hcount.symm
  evidence := fun i state hi _ => by
    refine ⟨by simp, fun _ => ⟨[], ?_, by simp, rfl⟩⟩
    simp only [Probe.new, List.getElem?_mapIdx, Option.map_eq_some_iff] at hi
    obtain ⟨_, -, rfl⟩ := hi
    rfl

/-- **A proven column is distinct.** Whatever the chunks and whichever of the device checks and
    reservations throw, if what the checks return is right: the values of a proven column over all observed chunks have no null and no
    repeat. -/
theorem proven_distinct (selected automatic : List Bool) (calls : List (Call γ)) {i : ℕ}
    (hd : ∀ chunk ∈ observedChunks calls, ∀ c ∈ chunk, c.2.Correct)
    (h : (verdicts (calls.foldl apply (Probe.new selected automatic)))[i]? = some .proven) :
    (∀ chunk ∈ observedChunks calls, chunk.length = selected.length) ∧
      none ∉ valuesOf i (observedChunks calls) ∧ (valuesOf i (observedChunks calls)).Nodup := by
  have hs := run_sound calls hd (new_sound selected automatic)
  rw [List.nil_append] at hs
  unfold verdicts at h
  rw [List.getElem?_map, Option.map_eq_some_iff] at h
  obtain ⟨state, hstate, hverdict⟩ := h
  unfold verdict at hverdict
  split_ifs at hverdict with hobserved hcandidate hundecidable hapart
  obtain ⟨hwidth, hdecided⟩ := hs.evidence i state hstate (by simpa using hcandidate)
  obtain ⟨evidence, hranges, hvalues, heq⟩ := hdecided (by simpa using hundecidable)
  have hnodup := nodup_flatten_of_apart hvalues (hranges ▸ pairwise_apart_of_insertionSort hapart)
  refine ⟨hwidth, ?_, ?_⟩
  · rw [heq]
    simp
  · rw [heq]
    exact hnodup.map fun a b hab => Sum.inl.inj (Option.some.inj hab)

/-- The checks on lists. -/
def Device.onLists : Device where
  earlyRange values := values.min?.bind fun lo => values.max?.map fun hi => ⟨lo, hi⟩
  isSorted values := some (decide (values.Pairwise (· ≤ ·)))
  sort values := some (values.insertionSort (· ≤ ·))
  uniqueCount values := some (runCount values)
  lateRange _ := none

theorem Device.correct_onLists : Device.onLists.Correct where
  range values r h := by
    obtain ⟨lo, hlo, h⟩ := Option.bind_eq_some_iff.mp (h.resolve_right (by rintro ⟨⟩))
    obtain ⟨hi, hhi, rfl⟩ := Option.map_eq_some_iff.mp h
    exact fun v hv =>
      ⟨(List.min?_eq_some_iff.mp hlo).2 v hv, (List.max?_eq_some_iff.mp hhi).2 v hv⟩
  isSorted values b h := by
    obtain rfl := Option.some.inj h
    exact decide_eq_true_iff
  sort values sorted h := by
    obtain rfl := Option.some.inj h
    exact ⟨List.pairwise_insertionSort _ values, List.perm_insertionSort _ values⟩
  uniqueCount values n h := (Option.some.inj h).symm

/-- Two chunks of a key, the second one unsorted and before the first in range, with an empty chunk
    between them. -/
def shownCalls : List (Call String) :=
  [.exactUnavailable 0, .observe [(.integral 8 [some 10, some 12], .onLists)],
    .observe [(.integral 8 [], .onLists)],
    .observe [(.integral 8 [some 3, some 1],
      { Device.onLists with tryReserveSortMemory := some fun _ => some true })]]

theorem proven_distinct_shownCalls :
    verdicts (shownCalls.foldl apply (Probe.new [true] [true])) = [.proven] ∧
      (valuesOf 0 (observedChunks shownCalls)).Nodup := by
  refine ⟨by decide, (proven_distinct [true] [true] shownCalls ?_ (i := 0) (by decide)).2.2⟩
  have hd := Device.correct_onLists
  simp only [shownCalls, observedChunks, List.filterMap_cons, List.filterMap_nil,
    List.forall_mem_cons, List.not_mem_nil, false_imp_iff, implies_true, and_true]
  exact ⟨hd, hd, ⟨hd.range, hd.isSorted, hd.sort, hd.uniqueCount⟩⟩

end Sirius.Planner.PinUniqueness
