import Sirius.Common.HashTally

/-!
# Comparing read views

Model of `compare_read_views` (src/transparent/read_view_registry.cpp:39-276): whether the scans of a
candidate plan read what the scans of the original plan read. A fingerprint is equal to another one
when their canonical texts are; an identity is its fingerprint. A pointer that is compared first is
left out: equal pointers have equal texts.

* `countFingerprint`, `compareMultiset`, `matchBindings`, `compareReadViews`: the functions.
* `compareMultiset_iff`: the two multisets of canonical texts are equal.
* `matchBindings_iff`: matching by table index is a bijection.
* `compareReadViews_correct`: when the views are equal.
-/

namespace Sirius.Transparent.ReadViewComparison

open Sirius.Common

/-! ## Views -/

/-- `read_view_fingerprint`. -/
structure Fingerprint where
  canonical : String
  hash : UInt64
  deriving DecidableEq, Repr

/-- `bound_read_view`: its identity, when it has one, and the evidence of its selector. -/
structure View where
  identity : Option Fingerprint
  selectorEvidenceRequired : Bool
  logicalSelectorEvidence : Option String
  deriving DecidableEq, Repr

/-- `original_binding` and `candidate_binding`; the view may be null. -/
structure Binding where
  tableIndex : ℕ
  view : Option View
  deriving DecidableEq, Repr

/-- `candidate_origin`. -/
inductive CandidateOrigin where
  | copy
  | replan
  deriving DecidableEq, Repr

/-- `read_view_comparison`, but for the depths, which another overload sets. -/
structure Comparison where
  equal : Bool := false
  correspondence : String := ""
  reason : String := ""
  onlyOriginal : List String := []
  onlyCandidate : List String := []
  originalCount : ℕ := 0
  candidateCount : ℕ := 0
  differentOriginalCount : ℕ := 0
  differentCandidateCount : ℕ := 0
  originalHash : Option UInt64 := none
  candidateHash : Option UInt64 := none
  deriving DecidableEq, Repr

/-! ## The multisets -/

def mismatchSummaryLimit : ℕ := 3

/-- `fingerprint_summary` (lines 41-46): the hash in sixteen hexadecimal digits. -/
def fingerprintSummary (fingerprint : Fingerprint) : String :=
  let digits := Nat.toDigits 16 fingerprint.hash.toNat
  String.ofList (List.replicate (16 - digits.length) '0' ++ digits)

/-- `count_fingerprint` (lines 62-80). -/
def countFingerprint (counts : HashTally.Tally Fingerprint UInt64) (value : Fingerprint)
    (original : Bool) : HashTally.Tally Fingerprint UInt64 :=
  counts.note Fingerprint.canonical Fingerprint.hash value original

/-- `append_difference` (lines 82-89). -/
def appendDifference (output : List String) (value : Fingerprint) : ℕ → List String
  | 0 => output
  | count + 1 =>
    if output.length < mismatchSummaryLimit then
      appendDifference (output ++ [fingerprintSummary value]) value count
    else output

/-- The identity of a binding. -/
def Binding.identity (binding : Binding) : Option Fingerprint := binding.view.bind View.identity

/-- The entries with more originals (lines 129-135). -/
def differentOriginals (result : Comparison) (entries : List (HashTally.Entry Fingerprint)) :
    Comparison :=
  entries.foldl (fun result count =>
    if count.left > count.right then
      { result with
        differentOriginalCount := result.differentOriginalCount + (count.left - count.right)
        onlyOriginal := appendDifference result.onlyOriginal count.value (count.left - count.right) }
    else result) result

/-- The entries with more candidates (lines 136-142). -/
def differentCandidates (result : Comparison) (entries : List (HashTally.Entry Fingerprint)) :
    Comparison :=
  entries.foldl (fun result count =>
    if count.right > count.left then
      { result with
        differentCandidateCount := result.differentCandidateCount + (count.right - count.left)
        onlyCandidate := appendDifference result.onlyCandidate count.value (count.right - count.left) }
    else result) result

/-- The counts of all fingerprints (lines 111-127), or `none` when an identity is missing. -/
def countAll (original : List (Option Fingerprint)) (candidate : List Binding) :
    Option (HashTally.Tally Fingerprint UInt64) := do
  let counts ← original.foldlM (fun counts value => value.map (countFingerprint counts · true)) {}
  candidate.foldlM (fun counts binding =>
    binding.identity.map (countFingerprint counts · false)) counts

/-- The general case of `compare_multiset` (lines 112-151). -/
def compareCounts (original : List (Option Fingerprint)) (candidate : List Binding)
    (result : Comparison) : Bool × Comparison :=
  match countAll original candidate with
  | none => (false, { result with reason := "missing_identity" })
  | some counts =>
    let result := differentOriginals result counts.entries
    let result := differentCandidates result counts.entries
    if !result.onlyOriginal.isEmpty || !result.onlyCandidate.isEmpty
        || original.length ≠ candidate.length then
      (false, { result with reason := "fingerprint_mismatch" })
    else (true, result)

/-- `compare_multiset` (lines 91-151), with its own path for one original and one candidate. -/
def compareMultiset (original : List (Option Fingerprint)) (candidate : List Binding)
    (result : Comparison) : Bool × Comparison :=
  match original, candidate with
  | [originalValue], [binding] =>
    match originalValue, binding.identity with
    | some originalValue, some candidateValue =>
      if originalValue.canonical = candidateValue.canonical then (true, result)
      else (false, { result with
        differentOriginalCount := 1
        differentCandidateCount := 1
        onlyOriginal := appendDifference result.onlyOriginal originalValue 1
        onlyCandidate := appendDifference result.onlyCandidate candidateValue 1
        reason := "fingerprint_mismatch" })
    | _, _ => (false, { result with reason := "missing_identity" })
  | _, _ => compareCounts original candidate result

/-! ## The correspondence -/

/-- `same_identity` (lines 153-159). -/
def sameIdentity (left right : Option View) : Bool :=
  match left.bind View.identity, right.bind View.identity with
  | some left, some right => left.canonical = right.canonical
  | _, _ => false

/-- `selector_proven` (lines 161-167). -/
def selectorProven (candidate : View) (original : Option View) : Bool :=
  if !candidate.selectorEvidenceRequired then true
  else
    match original with
    | none => false
    | some original => candidate.logicalSelectorEvidence.isSome && original.selectorEvidenceRequired
      && original.logicalSelectorEvidence = candidate.logicalSelectorEvidence

/-- The loop over the candidates (lines 234-255): the reason of a mismatch, or `none`. -/
def matchBindings (logicalOriginal : List Binding) : List ℕ → List Binding → Option String
  | _, [] => none
  | matched, binding :: candidate =>
    if binding.tableIndex ∈ matched then some "binding_mismatch"
    else
      match logicalOriginal.find? (·.tableIndex = binding.tableIndex), binding.view with
      | some found, some view =>
        if !sameIdentity found.view (some view) then some "binding_mismatch"
        else if !selectorProven view found.view then some "selector_unproven"
        else matchBindings logicalOriginal (binding.tableIndex :: matched) candidate
      | _, _ => some "binding_mismatch"

/-- The selector of the one planned scan (lines 214-228): the reason of a mismatch, or `none`. -/
def replanSelector (logicalOriginal planned : List Binding) : Option String :=
  match planned with
  | [] => none
  | binding :: _ =>
    match binding.view with
    | none => some "selector_unproven"
    | some view =>
      let selectorOriginal := match logicalOriginal with
        | [original] => if sameIdentity original.view (some view) then original.view else none
        | _ => none
      if selectorProven view selectorOriginal then none else some "selector_unproven"

/-- A comparison with its outcome: a reason against equality, or none. -/
def Comparison.decide (result : Comparison) : Option String → Comparison
  | none => { result with equal := true }
  | some reason => { result with reason := reason }

/-- `compare_read_views_impl` (lines 174-257). -/
def compareReadViewsImpl (origin : CandidateOrigin) (logicalOriginal : List Binding)
    (physicalOriginal : List (Option Fingerprint)) (planned skipped : List Binding) : Comparison :=
  let candidate := planned ++ skipped
  let result : Comparison :=
    { originalCount := physicalOriginal.length
      candidateCount := candidate.length
      originalHash := (physicalOriginal.head?.bind id).map Fingerprint.hash
      candidateHash := (candidate.head?.bind Binding.identity).map Fingerprint.hash }
  match origin with
  | .replan =>
    if planned.length > 1 then
      { result with correspondence := "none", reason := "no_correspondence" }
    else
      let result := { result with correspondence := if planned.isEmpty then "none" else "single" }
      match compareMultiset physicalOriginal candidate result with
      | (false, result) => result
      | (true, result) => result.decide (replanSelector logicalOriginal planned)
  | .copy =>
    let result := { result with correspondence := "table_index" }
    match compareMultiset physicalOriginal candidate result with
    | (false, result) => result
    | (true, result) =>
      if logicalOriginal.length ≠ candidate.length then
        { result with reason := "binding_mismatch" }
      else result.decide (matchBindings logicalOriginal [] candidate)

/-- `compare_read_views` (lines 260-276). -/
def compareReadViews (origin : CandidateOrigin) (logicalOriginal : List Binding)
    (physicalOriginal : List Fingerprint) (planned skipped : List Binding) : Comparison :=
  compareReadViewsImpl origin logicalOriginal (physicalOriginal.map some) planned skipped

/-! ## The multisets are compared exactly -/

theorem appendDifference_eq_nil {output : List String} {value : Fingerprint} {count : ℕ} :
    appendDifference output value count = [] ↔ output = [] ∧ count = 0 := by
  induction count generalizing output with
  | zero => simp [appendDifference]
  | succ count ih =>
    unfold appendDifference
    split_ifs with hlimit
    · rw [ih]
      simp
    · have hne : output ≠ [] := by
        rintro rfl
        exact hlimit (by decide)
      simp [hne]

/-- The summary of the originals is empty when no entry has more of them. -/
theorem differentOriginals_spec (entries : List (HashTally.Entry Fingerprint)) (result : Comparison) :
    ((differentOriginals result entries).onlyOriginal = [] ↔
      result.onlyOriginal = [] ∧ ∀ e ∈ entries, e.left ≤ e.right) ∧
      (differentOriginals result entries).onlyCandidate = result.onlyCandidate ∧
      (differentOriginals result entries).equal = result.equal := by
  induction entries generalizing result with
  | nil => simp [differentOriginals]
  | cons e entries ih =>
    unfold differentOriginals at ih ⊢
    rw [List.foldl_cons, (ih _).1, (ih _).2.1, (ih _).2.2]
    split_ifs with hmore
    · have hpos : e.left - e.right ≠ 0 := by omega
      simp [appendDifference_eq_nil, hpos, hmore]
    · simp [Nat.le_of_not_gt hmore]

theorem differentCandidates_spec (entries : List (HashTally.Entry Fingerprint))
    (result : Comparison) :
    ((differentCandidates result entries).onlyCandidate = [] ↔
      result.onlyCandidate = [] ∧ ∀ e ∈ entries, e.right ≤ e.left) ∧
      (differentCandidates result entries).onlyOriginal = result.onlyOriginal ∧
      (differentCandidates result entries).equal = result.equal := by
  induction entries generalizing result with
  | nil => simp [differentCandidates]
  | cons e entries ih =>
    unfold differentCandidates at ih ⊢
    rw [List.foldl_cons, (ih _).1, (ih _).2.1, (ih _).2.2]
    split_ifs with hmore
    · have hpos : e.right - e.left ≠ 0 := by omega
      simp [appendDifference_eq_nil, hpos, hmore]
    · simp [Nat.le_of_not_gt hmore]

/-- The tally of two lists of fingerprints. -/
def tallyOf (originals candidates : List Fingerprint) : HashTally.Tally Fingerprint UInt64 :=
  candidates.foldl (countFingerprint · · false) (originals.foldl (countFingerprint · · true) {})

/-- Equal canonical texts have equal hashes. -/
def Consistent (fs : List Fingerprint) : Prop :=
  ∀ x ∈ fs, ∀ y ∈ fs, x.canonical = y.canonical → x.hash = y.hash

/-- One side is counted. -/
theorem tallied_foldl (side : Bool) {all rest left right : List Fingerprint}
    {t : HashTally.Tally Fingerprint UInt64} (h : Consistent all)
    (hsub : ∀ x ∈ left ++ right ++ rest, x ∈ all)
    (ht : HashTally.Tallied Fingerprint.canonical Fingerprint.hash left right t) :
    HashTally.Tallied Fingerprint.canonical Fingerprint.hash
      (if side then left ++ rest else left) (if side then right else right ++ rest)
      (rest.foldl (countFingerprint · · side) t) := by
  induction rest generalizing left right t with
  | nil => cases side <;> simpa using ht
  | cons x rest ih =>
    have hnote := ht.note (fun y hy hkey =>
      h y (hsub y (List.mem_append_left _ hy)) x (hsub x (by simp)) hkey) side
    have hsub' : ∀ y ∈ HashTally.grow left x side ++ HashTally.grow right x (!side) ++ rest,
        y ∈ all := by
      intro y hy
      rw [List.mem_append, HashTally.mem_grow] at hy
      exact hsub y (by simp at hy ⊢; tauto)
    have hrest := ih hsub' hnote
    cases side <;> simpa [HashTally.grow, countFingerprint] using hrest

theorem tallied_tallyOf {originals candidates : List Fingerprint}
    (h : Consistent (originals ++ candidates)) :
    HashTally.Tallied Fingerprint.canonical Fingerprint.hash originals candidates
      (tallyOf originals candidates) :=
  tallied_foldl false h (by simp) (tallied_foldl true h (by simp +contextual)
    HashTally.tallied_nil)

theorem countAll_eq (originals : List Fingerprint) (candidate : List Binding) :
    countAll (originals.map some) candidate
      = (candidate.mapM Binding.identity).map (tallyOf originals) := by
  have horiginal : ∀ t : HashTally.Tally Fingerprint UInt64, (originals.map some).foldlM
      (fun counts value => value.map (countFingerprint counts · true)) t
        = some (originals.foldl (countFingerprint · · true) t) := by
    induction originals with
    | nil => exact fun _ => rfl
    | cons x originals ih => exact fun t => ih (countFingerprint t x true)
  have hcandidate : ∀ t : HashTally.Tally Fingerprint UInt64, candidate.foldlM
      (fun counts binding => binding.identity.map (countFingerprint counts · false)) t
        = (candidate.mapM Binding.identity).map fun cs =>
          cs.foldl (countFingerprint · · false) t := by
    induction candidate with
    | nil => exact fun _ => rfl
    | cons b candidate ih =>
      intro t
      rw [List.foldlM_cons, List.mapM_cons]
      cases b.identity with
      | none => rfl
      | some c =>
        show candidate.foldlM _ (countFingerprint t c false) = _
        rw [ih]
        cases candidate.mapM Binding.identity with
        | none => rfl
        | some cs => rfl
  unfold countAll
  rw [horiginal, Option.bind_eq_bind, Option.bind_some, hcandidate]
  rfl

/-- The identities of the candidates, when all have one. -/
theorem mapM_identity {candidate : List Binding} {cs : List Fingerprint} :
    candidate.mapM Binding.identity = some cs ↔ candidate.map Binding.identity = cs.map some := by
  induction candidate generalizing cs with
  | nil => cases cs <;> simp
  | cons b candidate ih =>
    rw [List.mapM_cons]
    cases hb : b.identity with
    | none => cases cs <;> simp [hb]
    | some c =>
      cases hcs : candidate.mapM Binding.identity with
      | none =>
        cases cs with
        | nil => simp
        | cons c' cs =>
          have hnot : candidate.map Binding.identity ≠ cs.map some := fun h => by
            rw [ih.mpr h] at hcs
            cases hcs
          simp [hnot]
      | some cs' =>
        have hcs' := ih.mp hcs
        cases cs with
        | nil => simp
        | cons c' cs =>
          simp [hb, hcs', (Option.some_injective _).list_map.eq_iff]

theorem differences_eq_nil {result : Comparison} (horiginal : result.onlyOriginal = [])
    (hcandidate : result.onlyCandidate = []) (entries : List (HashTally.Entry Fingerprint)) :
    (differentCandidates (differentOriginals result entries) entries).onlyOriginal = [] ∧
      (differentCandidates (differentOriginals result entries) entries).onlyCandidate = [] ↔
      ∀ e ∈ entries, e.left = e.right := by
  rw [(differentCandidates_spec _ _).1, (differentCandidates_spec _ _).2.1,
    (differentOriginals_spec _ _).1, (differentOriginals_spec _ _).2.1, horiginal, hcandidate]
  constructor
  · rintro ⟨⟨-, hle⟩, -, hge⟩ e he
    exact le_antisymm (hle e he) (hge e he)
  · intro heq
    exact ⟨⟨rfl, fun e he => (heq e he).le⟩, rfl, fun e he => (heq e he).ge⟩

section Multiset

variable {originals : List Fingerprint} {candidate : List Binding} {result : Comparison}

theorem compareCounts_iff (horiginal : result.onlyOriginal = [])
    (hcandidate : result.onlyCandidate = [])
    (hc : ∀ cs, candidate.mapM Binding.identity = some cs → Consistent (originals ++ cs)) :
    (compareCounts (originals.map some) candidate result).1 = true ↔
      ∃ cs, candidate.mapM Binding.identity = some cs ∧
        (originals.map Fingerprint.canonical).Perm (cs.map Fingerprint.canonical) := by
  unfold compareCounts
  rw [countAll_eq]
  cases hcs : candidate.mapM Binding.identity with
  | none => simp
  | some cs =>
    have hlength := congrArg List.length (mapM_identity.mp hcs)
    rw [List.length_map, List.length_map] at hlength
    have hbalanced := (differences_eq_nil horiginal hcandidate
      (tallyOf originals cs).entries).trans (tallied_tallyOf (hc cs hcs)).balanced_iff
    simp only [Option.map_some, Option.some.injEq, exists_eq_left']
    rw [← hbalanced]
    constructor
    · intro heq
      split_ifs at heq with hdiffer
      simp only [Bool.or_eq_true, Bool.not_eq_true', List.isEmpty_eq_false_iff,
        decide_eq_true_eq, not_or, not_not] at hdiffer
      exact hdiffer.1
    · intro hboth
      have hperm := (hbalanced.mp hboth).length_eq
      rw [List.length_map, List.length_map] at hperm
      rw [if_neg]
      simp [hboth.1, hboth.2, hperm, hlength]

/-- **`compare_multiset` compares the canonical texts.** -/
theorem compareMultiset_iff (horiginal : result.onlyOriginal = [])
    (hcandidate : result.onlyCandidate = [])
    (hc : ∀ cs, candidate.mapM Binding.identity = some cs → Consistent (originals ++ cs)) :
    (compareMultiset (originals.map some) candidate result).1 = true ↔
      ∃ cs, candidate.mapM Binding.identity = some cs ∧
        (originals.map Fingerprint.canonical).Perm (cs.map Fingerprint.canonical) := by
  have hgeneral := compareCounts_iff horiginal hcandidate hc
  match originals, candidate with
  | [o], [b] =>
    unfold compareMultiset
    cases hb : b.identity with
    | none => simp [hb]
    | some c =>
      by_cases heq : o.canonical = c.canonical
      · simp [hb, heq]
      · simp [hb, heq]
  | [], _ => exact hgeneral
  | _ :: _ :: _, _ => exact hgeneral
  | [_], [] => exact hgeneral
  | [_], _ :: _ :: _ => exact hgeneral

end Multiset

/-! ## The bindings -/

/-- An original and a candidate of one table index with equal identities and a proven selector. -/
def Corresponds (original candidate : Binding) : Prop :=
  original.tableIndex = candidate.tableIndex ∧ sameIdentity original.view candidate.view ∧
    ∃ view, candidate.view = some view ∧ selectorProven view original.view

/-- A bijection between originals and candidates that corresponds. -/
def Matched (logicalOriginal candidate : List Binding) : Prop :=
  ∃ pairs : List (Binding × Binding), (pairs.map Prod.fst).Perm logicalOriginal ∧
    (pairs.map Prod.snd).Perm candidate ∧ ∀ p ∈ pairs, Corresponds p.1 p.2

section Matching

variable {logical : List Binding} (hdistinct : (logical.map Binding.tableIndex).Nodup)

include hdistinct

/-- The original of a table index is the one that is found. -/
theorem find_tableIndex {o : Binding} {k : ℕ} :
    logical.find? (·.tableIndex = k) = some o ↔ o ∈ logical ∧ o.tableIndex = k := by
  constructor
  · intro h
    exact ⟨List.mem_of_find?_eq_some h, by simpa using List.find?_some h⟩
  · rintro ⟨hmem, rfl⟩
    cases hfind : logical.find? (·.tableIndex = o.tableIndex) with
    | none => simpa using List.find?_eq_none.mp hfind o hmem
    | some o' =>
      have hindex : o'.tableIndex = o.tableIndex := by simpa using List.find?_some hfind
      rw [List.inj_on_of_nodup_map hdistinct (List.mem_of_find?_eq_some hfind) hmem hindex]

theorem matchBindings_eq_none {matched : List ℕ} {candidate : List Binding} :
    matchBindings logical matched candidate = none ↔
      (candidate.map Binding.tableIndex).Nodup ∧ (∀ c ∈ candidate, c.tableIndex ∉ matched) ∧
        ∀ c ∈ candidate, ∃ o ∈ logical, Corresponds o c := by
  induction candidate generalizing matched with
  | nil => simp [matchBindings]
  | cons c candidate ih =>
    unfold matchBindings
    have hhere : (∃ o ∈ logical, Corresponds o c) ↔
        ∃ o view, logical.find? (·.tableIndex = c.tableIndex) = some o ∧ c.view = some view ∧
          sameIdentity o.view (some view) ∧ selectorProven view o.view := by
      constructor
      · rintro ⟨o, ho, hindex, hsame, view, hview, hproven⟩
        exact ⟨o, view, (find_tableIndex hdistinct).mpr ⟨ho, hindex⟩, hview, hview ▸ hsame, hproven⟩
      · rintro ⟨o, view, hfind, hview, hsame, hproven⟩
        obtain ⟨ho, hindex⟩ := (find_tableIndex hdistinct).mp hfind
        exact ⟨o, ho, hindex, hview.symm ▸ hsame, view, hview, hproven⟩
    rw [List.map_cons, List.nodup_cons, List.forall_mem_cons, List.forall_mem_cons, hhere]
    by_cases hmatched : c.tableIndex ∈ matched
    · simp [hmatched]
    rw [if_neg hmatched]
    -- the original that is found and the view, or a mismatch
    cases hfind : logical.find? (·.tableIndex = c.tableIndex) with
    | none => simp
    | some o =>
      cases hview : c.view with
      | none => simp
      | some view =>
        dsimp only
        by_cases hsame : sameIdentity o.view (some view)
        · by_cases hproven : selectorProven view o.view
          · rw [if_neg (by simp [hsame]), if_neg (by simp [hproven]), ih]
            simp only [List.mem_cons, not_or, List.mem_map, not_exists, not_and]
            constructor
            · rintro ⟨hnodup, hfresh, hall⟩
              exact ⟨⟨fun d hd => (hfresh d hd).1, hnodup⟩,
                ⟨hmatched, fun d hd => (hfresh d hd).2⟩,
                ⟨o, view, rfl, rfl, hsame, hproven⟩, hall⟩
            · rintro ⟨⟨hnew, hnodup⟩, ⟨-, hfresh⟩, -, hall⟩
              exact ⟨hnodup, fun d hd => ⟨hnew d hd, hfresh d hd⟩, hall⟩
          · simp [hsame, hproven]
        · simp [hsame]

/-- **Matching by table index is a bijection.** -/
theorem matchBindings_iff {candidate : List Binding} :
    (logical.length = candidate.length ∧ matchBindings logical [] candidate = none) ↔
      Matched logical candidate := by
  rw [matchBindings_eq_none hdistinct]
  constructor
  · rintro ⟨hlength, hnodup, -, hall⟩
    choose! original horiginal hcorresponds using hall
    have hindexes : (candidate.map original).map Binding.tableIndex
        = candidate.map Binding.tableIndex := by
      rw [List.map_map]
      exact List.map_congr_left fun c hc => (hcorresponds c hc).1
    have hperm : (candidate.map original).Perm logical := by
      have hnodup' : (candidate.map original).Nodup := by
        rw [← hindexes] at hnodup
        exact hnodup.of_map _
      have hsubset : candidate.map original ⊆ logical := by
        intro o ho
        obtain ⟨c, hc, rfl⟩ := List.mem_map.mp ho
        exact horiginal c hc
      refine (List.subperm_of_subset hnodup' hsubset).perm_of_length_le ?_
      rw [List.length_map]
      exact hlength.le
    refine ⟨candidate.map fun c => (original c, c), ?_, ?_, ?_⟩
    · rw [List.map_map]
      exact hperm
    · rw [List.map_map]
      exact List.Perm.of_eq (List.map_id candidate)
    · intro p hp
      obtain ⟨c, hc, rfl⟩ := List.mem_map.mp hp
      exact hcorresponds c hc
  · rintro ⟨pairs, horiginals, hcandidates, hcorresponds⟩
    have hindexes : pairs.map (fun p => p.1.tableIndex) = pairs.map fun p => p.2.tableIndex :=
      List.map_congr_left fun p hp => (hcorresponds p hp).1
    refine ⟨?_, ?_, by simp, fun c hc => ?_⟩
    · rw [← horiginals.length_eq, ← hcandidates.length_eq, List.length_map, List.length_map]
    · have hleft := (horiginals.map Binding.tableIndex).nodup_iff.mpr hdistinct
      have hright := (hcandidates.map Binding.tableIndex).nodup_iff
      rw [List.map_map] at hleft hright
      refine hright.mp ?_
      have hleft' : (pairs.map fun p => p.1.tableIndex).Nodup := hleft
      rw [hindexes] at hleft'
      exact hleft'
    · obtain ⟨p, hp, rfl⟩ := List.mem_map.mp (hcandidates.mem_iff.mpr hc)
      exact ⟨p.1, horiginals.mem_iff.mp (List.mem_map_of_mem hp), hcorresponds p hp⟩

end Matching

/-! ## When the views are equal -/

/-- The one planned scan has its selector proven by the sole logical original of its identity, when
    it requires evidence. -/
def ReplanProven (logicalOriginal planned : List Binding) : Prop :=
  ∀ b ∈ planned, ∀ view, b.view = some view → view.selectorEvidenceRequired →
    ∃ o, logicalOriginal = [o] ∧ sameIdentity o.view (some view) ∧ selectorProven view o.view

/-- What an equal comparison says. -/
def EqualViews (origin : CandidateOrigin) (logicalOriginal : List Binding)
    (physicalOriginal : List Fingerprint) (planned skipped : List Binding) : Prop :=
  (∀ b ∈ planned ++ skipped, b.identity.isSome) ∧
  (physicalOriginal.map Fingerprint.canonical).Perm
    (((planned ++ skipped).filterMap Binding.identity).map Fingerprint.canonical) ∧
  match origin with
  | .replan => planned.length ≤ 1 ∧ ReplanProven logicalOriginal planned
  | .copy => Matched logicalOriginal (planned ++ skipped)

theorem selectorProven_of_not_required {view : View} {original : Option View}
    (h : ¬view.selectorEvidenceRequired) : selectorProven view original = true := by
  unfold selectorProven
  rw [if_pos (by simpa using h)]

theorem replanSelector_iff {logical planned : List Binding} (hlength : planned.length ≤ 1)
    (hviews : ∀ b ∈ planned, b.view.isSome) :
    replanSelector logical planned = none ↔ ReplanProven logical planned := by
  match planned with
  | [] => simp [replanSelector, ReplanProven]
  | b :: c :: planned => simp at hlength
  | [b] =>
    obtain ⟨view, hview⟩ := Option.isSome_iff_exists.mp (hviews b (by simp))
    unfold replanSelector ReplanProven
    simp only [hview, List.mem_singleton, forall_eq, Option.some.injEq, forall_eq']
    by_cases hrequired : view.selectorEvidenceRequired
    · match logical with
      | [] => simp [selectorProven, hrequired]
      | [o] =>
        by_cases hsame : sameIdentity o.view (some view)
        · simp [hsame, hrequired]
        · simp [selectorProven, hsame, hrequired]
      | o :: o' :: logical => simp [selectorProven, hrequired]
    · simp [selectorProven_of_not_required hrequired, hrequired]

theorem decide_equal {result : Comparison} (h : result.equal = false) (reason : Option String) :
    (result.decide reason).equal = true ↔ reason = none := by
  cases reason with
  | none => simp [Comparison.decide]
  | some reason => simp [Comparison.decide, h]

/-- The comparison of the multisets alone never says equal. -/
theorem compareMultiset_equal (original : List (Option Fingerprint)) (candidate : List Binding)
    (result : Comparison) :
    (compareMultiset original candidate result).2.equal = result.equal := by
  have hcounts : (compareCounts original candidate result).2.equal = result.equal := by
    unfold compareCounts
    cases countAll original candidate with
    | none => rfl
    | some counts =>
      dsimp only
      split_ifs
      · show (differentCandidates _ _).equal = _
        rw [(differentCandidates_spec _ _).2.2, (differentOriginals_spec _ _).2.2]
      · show (differentCandidates _ _).equal = _
        rw [(differentCandidates_spec _ _).2.2, (differentOriginals_spec _ _).2.2]
  unfold compareMultiset
  split
  · split
    · split_ifs <;> rfl
    · rfl
  · exact hcounts

theorem mapM_identity_iff {candidate : List Binding} {cs : List Fingerprint} :
    candidate.mapM Binding.identity = some cs ↔
      (∀ b ∈ candidate, b.identity.isSome) ∧ cs = candidate.filterMap Binding.identity := by
  rw [mapM_identity]
  constructor
  · intro h
    refine ⟨fun b hb => ?_, ?_⟩
    · have hmem : b.identity ∈ cs.map some := h ▸ List.mem_map_of_mem hb
      obtain ⟨c, -, hc⟩ := List.mem_map.mp hmem
      rw [← hc]
      rfl
    · have hfilter := congrArg (List.filterMap id) h
      rw [List.filterMap_map, List.filterMap_map] at hfilter
      simpa using hfilter.symm
  · rintro ⟨hall, rfl⟩
    induction candidate with
    | nil => rfl
    | cons b candidate ih =>
      obtain ⟨hb, hrest⟩ := List.forall_mem_cons.mp hall
      obtain ⟨c, hc⟩ := Option.isSome_iff_exists.mp hb
      rw [List.map_cons, List.filterMap_cons_some hc, List.map_cons, ih hrest, hc]

/-- The fingerprints of a comparison. -/
def allFingerprints (physicalOriginal : List Fingerprint) (planned skipped : List Binding) :
    List Fingerprint := physicalOriginal ++ (planned ++ skipped).filterMap Binding.identity

section Compare

variable {origin : CandidateOrigin} {logical : List Binding} {physical : List Fingerprint}
  {planned skipped : List Binding}

/-- The outcome of `compare_multiset`. -/
theorem compareMultiset_outcome {result r : Comparison} {same : Bool}
    (hcompare : compareMultiset (physical.map some) (planned ++ skipped) result = (same, r))
    (horiginal : result.onlyOriginal = []) (hcandidate : result.onlyCandidate = [])
    (hequal : result.equal = false)
    (hconsistent : Consistent (allFingerprints physical planned skipped)) :
    r.equal = false ∧ (same = true ↔ (∀ b ∈ planned ++ skipped, b.identity.isSome) ∧
      (physical.map Fingerprint.canonical).Perm
        (((planned ++ skipped).filterMap Binding.identity).map Fingerprint.canonical)) := by
  constructor
  · have h := compareMultiset_equal (physical.map some) (planned ++ skipped) result
    rw [hcompare] at h
    exact h.trans hequal
  · have hall : ∀ cs, (planned ++ skipped).mapM Binding.identity = some cs →
        Consistent (physical ++ cs) := by
      intro cs hcs
      obtain ⟨-, rfl⟩ := mapM_identity_iff.mp hcs
      exact hconsistent
    have hiff := compareMultiset_iff horiginal hcandidate hall
    rw [hcompare] at hiff
    rw [hiff]
    constructor
    · rintro ⟨cs, hcs, hperm⟩
      obtain ⟨hall, rfl⟩ := mapM_identity_iff.mp hcs
      exact ⟨hall, hperm⟩
    · rintro ⟨hall, hperm⟩
      exact ⟨_, mapM_identity_iff.mpr ⟨hall, rfl⟩, hperm⟩

theorem compareReadViews_iff (hdistinct : (logical.map Binding.tableIndex).Nodup)
    (hconsistent : Consistent (allFingerprints physical planned skipped)) :
    (compareReadViews origin logical physical planned skipped).equal = true ↔
      EqualViews origin logical physical planned skipped := by
  unfold compareReadViews compareReadViewsImpl EqualViews
  cases origin with
  | replan =>
    dsimp only
    by_cases hlength : planned.length > 1
    · rw [if_pos hlength]
      refine iff_of_false Bool.false_ne_true fun h => ?_
      exact absurd h.2.2.1 (by omega)
    rw [if_neg hlength, ← and_assoc]
    split
    · -- the multisets differ
      rename_i result hcompare
      obtain ⟨hresult, hsame⟩ := compareMultiset_outcome hcompare rfl rfl rfl hconsistent
      rw [← hsame]
      simp [hresult]
    · rename_i result hcompare
      obtain ⟨hresult, hsame⟩ := compareMultiset_outcome hcompare rfl rfl rfl hconsistent
      have hboth := hsame.mp rfl
      have hviews : ∀ b ∈ planned, b.view.isSome := by
        intro b hb
        have hidentity := hboth.1 b (List.mem_append_left skipped hb)
        unfold Binding.identity at hidentity
        cases hview : b.view with
        | none => simp [hview] at hidentity
        | some view => rfl
      rw [decide_equal hresult, replanSelector_iff (by omega) hviews]
      exact ⟨fun h => ⟨hboth, by omega, h⟩, fun h => h.2.2⟩
  | copy =>
    dsimp only
    rw [← and_assoc]
    split
    · rename_i result hcompare
      obtain ⟨hresult, hsame⟩ := compareMultiset_outcome hcompare rfl rfl rfl hconsistent
      rw [← hsame]
      simp [hresult]
    · rename_i result hcompare
      obtain ⟨hresult, hsame⟩ := compareMultiset_outcome hcompare rfl rfl rfl hconsistent
      have hboth := hsame.mp rfl
      rw [← matchBindings_iff hdistinct]
      by_cases hlength : logical.length = (planned ++ skipped).length
      · rw [if_neg (by simpa using hlength), decide_equal hresult]
        exact ⟨fun h => ⟨hboth, hlength, h⟩, fun h => h.2.2⟩
      · rw [if_pos hlength]
        refine iff_of_false ?_ fun h => hlength h.2.1
        show ¬result.equal = true
        rw [hresult]
        exact Bool.false_ne_true

/-- What an equal comparison says does not depend on the order of the lists. -/
theorem EqualViews.perm {logical' : List Binding} {physical' : List Fingerprint}
    {planned' skipped' : List Binding} (h : EqualViews origin logical physical planned skipped)
    (hlogical : logical.Perm logical') (hphysical : physical.Perm physical')
    (hplanned : planned.Perm planned') (hskipped : skipped.Perm skipped') :
    EqualViews origin logical' physical' planned' skipped' := by
  obtain ⟨hall, hperm, horigin⟩ := h
  have hcandidate := hplanned.append hskipped
  refine ⟨fun b hb => hall b (hcandidate.mem_iff.mpr hb), ?_, ?_⟩
  · exact ((hphysical.map _).symm.trans hperm).trans ((hcandidate.filterMap _).map _)
  · cases origin with
    | replan =>
      obtain ⟨hlength, hproven⟩ := horigin
      refine ⟨hplanned.length_eq ▸ hlength, fun b hb view hview hrequired => ?_⟩
      obtain ⟨o, rfl, ho⟩ := hproven b (hplanned.mem_iff.mpr hb) view hview hrequired
      exact ⟨o, List.singleton_perm.mp hlogical |>.symm, ho⟩
    | copy =>
      obtain ⟨pairs, horiginals, hcandidates, hcorresponds⟩ := horigin
      exact ⟨pairs, horiginals.trans hlogical, hcandidates.trans hcandidate, hcorresponds⟩

/-- **The comparison of read views is exact**, whatever fingerprints share a hash, and does not depend
    on the order of the lists. -/
theorem compareReadViews_correct (hdistinct : (logical.map Binding.tableIndex).Nodup)
    (hconsistent : Consistent (allFingerprints physical planned skipped)) :
    ((compareReadViews origin logical physical planned skipped).equal = true ↔
      EqualViews origin logical physical planned skipped) ∧
    ∀ logical' physical' planned' skipped', logical.Perm logical' → physical.Perm physical' →
      planned.Perm planned' → skipped.Perm skipped' →
      (compareReadViews origin logical' physical' planned' skipped').equal
        = (compareReadViews origin logical physical planned skipped).equal := by
  refine ⟨compareReadViews_iff hdistinct hconsistent,
    fun logical' physical' planned' skipped' hlogical hphysical hplanned hskipped => ?_⟩
  have hall : (allFingerprints physical planned skipped).Perm
      (allFingerprints physical' planned' skipped') :=
    hphysical.append ((hplanned.append hskipped).filterMap _)
  have hdistinct' : (logical'.map Binding.tableIndex).Nodup :=
    (hlogical.map _).nodup_iff.mp hdistinct
  have hconsistent' : Consistent (allFingerprints physical' planned' skipped') :=
    fun x hx y hy => hconsistent x (hall.mem_iff.mpr hx) y (hall.mem_iff.mpr hy)
  rw [Bool.eq_iff_iff, compareReadViews_iff hdistinct' hconsistent',
    compareReadViews_iff hdistinct hconsistent]
  constructor
  · intro h
    exact h.perm hlogical.symm hphysical.symm hplanned.symm hskipped.symm
  · intro h
    exact h.perm hlogical hphysical hplanned hskipped

end Compare

/-- Two tables whose fingerprints share a hash. -/
def shownFingerprints : List Fingerprint := [⟨"t", 7⟩, ⟨"u", 7⟩]

def shownBindings : List Binding :=
  [⟨0, some ⟨some ⟨"t", 7⟩, true, some "snapshot 4"⟩⟩, ⟨1, some ⟨some ⟨"u", 7⟩, false, none⟩⟩]

theorem compareReadViews_correct_shownBindings :
    (compareReadViews .copy shownBindings shownFingerprints shownBindings.reverse []).equal = true ∧
      EqualViews .copy shownBindings shownFingerprints shownBindings.reverse [] := by
  have hequal : (compareReadViews .copy shownBindings shownFingerprints shownBindings.reverse
      []).equal = true := by decide
  exact ⟨hequal, (compareReadViews_correct (by decide) (by unfold Consistent; decide)).1.mp hequal⟩

end Sirius.Transparent.ReadViewComparison
