import Sirius.Scan.BatchLayout
import Sirius.Scan.IcebergPaths

/-!
# Binding delete entries to scanned files

Two constructors match the data files that the manifests name to the paths of the
scan. The eager one (`iceberg_gpu_ingestible.cpp`, lines 80–136 and 418–529)
strips both paths with `strip_file_scheme` and looks for candidates in an index by
last component; its keys are the paths of the delete sets, which are distinct. The
deferred one (`iceberg_dv_preparation.cpp`, lines 158–219) strips them with `bare`
and finds the candidates in a sorted index; its keys are the
`referenced_data_file`s of the deletion vectors.

* `Ambiguous`: one key names two scanned files, or two keys name one.
* `bindEager_meets`, `bindDeferred_meets`: each constructor is right about its own
  comparison of paths.
* `delete_entries_bound`: both are right about `strip_file_scheme` exactly if the
  two comparisons agree on the scanned paths and the keys, or are both ambiguous.
-/

namespace Sirius.Scan

open Sirius.Common

/-! ## The code -/

/-- The loop over the candidates for one key: the only one that matches. -/
def findMatch (table : String) (key : Path) (same : ℕ → Bool) :
    Option ℕ → List ℕ → Except Exn (Option ℕ)
  | found, [] => .ok found
  | found, i :: candidates =>
    if same i then
      if found.isSome then
        .error (.notImplemented ("iceberg table '" ++ table ++ "': delete file entry '" ++
          String.ofList key ++ "' matches more than one scanned data file, so its deleted rows " ++
          "cannot be attributed"))
      else findMatch table key same (some i) candidates
    else findMatch table key same found candidates

/-- The text of the other ambiguity. -/
def namedTwice (table : String) (path : Path) (n : ℕ) (first second : Path) : Exn :=
  .notImplemented ("iceberg table '" ++ table ++ "': scanned data file '" ++ String.ofList path ++
    "' is named by " ++ toString n ++ " different manifest entries (including '" ++
    String.ofList first ++ "' and '" ++ String.ofList second ++
    "'), so its deletes cannot be attributed to one of them")

/-- The comparison of the eager constructor. -/
def eagerSame (fromString : Path → Option ParsedPath) (key path : Path) : Bool :=
  sameFile (stripFileScheme fromString key) (stripFileScheme fromString path)

/-- The comparison of the deferred constructor. -/
def deferredSame (key path : Path) : Bool := sameFile (bare key) (bare path)

section Eager

variable (fromString : Path → Option ParsedPath) (table : String) (paths : List Path)

/-- The bucket of `scanned_by_basename` (lines 449–452). -/
def bucket (name : Path) : List ℕ :=
  (List.range paths.length).filter fun i =>
    basename (stripFileScheme fromString (paths.getD i [])) = name

/-- The loop over the keys (lines 478–510): `keys_by_scan_path`, in the order in
    which its entries are added. -/
def matchedKeys : List Path → Except Exn (List (Path × Path))
  | [] => .ok []
  | key :: keys => do
    let found ← findMatch table key (fun i => eagerSame fromString key (paths.getD i [])) none
      (bucket fromString paths (basename (stripFileScheme fromString key)))
    let rest ← matchedKeys keys
    return found.toList.map (fun i => (paths.getD i [], key)) ++ rest

/-- The keys of a scanned path. -/
def keysFor (pairs : List (Path × Path)) (path : Path) : List Path :=
  (pairs.filter fun e => e.1 = path).map Prod.snd

/-- `build_delete_key_map` (lines 418–523): the map `_delete_key_by_scan_path`. -/
def buildDeleteKeyMap (keys : List Path) : Except Exn (List (Path × Path)) := do
  let pairs ← matchedKeys fromString table paths keys
  match pairs.find? fun e => (keysFor pairs e.1).length > 1 with
  | some e => .error (namedTwice table e.1 (keysFor pairs e.1).length
      ((keysFor pairs e.1).getD 0 []) ((keysFor pairs e.1).getD 1 []))
  | none => .ok (pairs.filter fun e => e.2 ≠ e.1)

/-- `delete_key_for(scan_path)` (lines 525–529). -/
def deleteKeyFor (map : List (Path × Path)) (path : Path) : Path :=
  ((map.find? fun e => e.1 = path).map Prod.snd).getD path

local instance : LawfulBEq Path := inferInstance

/-- The loop over the scanned paths (lines 121–135). -/
def resolveSets (map : List (Path × Path)) (keys : List Path) :
    List Path → Except Exn (List (Path × Path))
  | [] => .ok []
  | path :: rest =>
    if deleteKeyFor map path ∉ keys then
      .error (.internal ("[iceberg_gpu_ingestible] no complete delete set for '" ++
        String.ofList path ++ "'"))
    else do
      let resolved ← resolveSets map keys rest
      return (path, deleteKeyFor map path) :: resolved

/-- The eager constructor on per-file delete sets: every scanned path with the key
    of its set. -/
def bindEager (keys : List Path) : Except Exn (List (Path × Path)) := do
  let map ← buildDeleteKeyMap fromString table paths keys
  resolveSets map keys paths

end Eager

section Deferred

variable (table : String) (paths : List Path) (sorted : List ℕ)

/-- The files that the loop from `std::lower_bound` on visits (lines 190–194). -/
def candidates (name : Path) : List ℕ :=
  (sorted.dropWhile fun i => basename (paths.getD i []) < name).takeWhile fun i =>
    basename (paths.getD i []) = name

/-- The loop over the deletion vectors (lines 187–213), from entry `j` on; the
    state is the `dv` of every file. -/
def bindEntries (allKeys : List Path) :
    ℕ → List (Option ℕ) → List Path → Except Exn (List (Option ℕ))
  | _, state, [] => .ok state
  | j, state, key :: keys => do
    let found ← findMatch table key (fun i => deferredSame key (paths.getD i [])) none
      (candidates paths sorted (basename key))
    match found with
    | none => bindEntries allKeys (j + 1) state keys
    | some i =>
      match state.getD i none with
      | some other => .error (namedTwice table (paths.getD i []) 2 (allKeys.getD other []) key)
      | none => bindEntries allKeys (j + 1) (state.set i (some j)) keys

/-- The deferred constructor: the entry of every scanned path, if it has one. -/
def bindDeferred (keys : List Path) : Except Exn (List (Option ℕ)) :=
  bindEntries table paths sorted keys 0 (List.replicate paths.length none) keys

/-- `std::sort` by last component: the index is a sorted permutation, and the order
    of equal elements is left open. -/
structure SortedIndex : Prop where
  perm : sorted.Perm (List.range paths.length)
  sorted : sorted.Pairwise fun i i' => basename (paths.getD i []) ≤ basename (paths.getD i' [])

end Deferred

/-! ## The requirement -/

/-- One key names two of the scanned paths, or two keys name one of them. -/
def Ambiguous (same : Path → Path → Bool) (paths keys : List Path) : Prop :=
  (∃ key ∈ keys, 1 < paths.countP (same key)) ∨
    ∃ path ∈ paths, 1 < keys.countP fun key => same key path

/-- Every scanned path is bound to the entry that names it, if there is one. -/
def EntriesBound (same : Path → Path → Bool) (paths keys : List Path)
    (bound : List (Option ℕ)) : Prop :=
  bound.length = paths.length ∧ ∀ (i : ℕ) (path : Path), paths[i]? = some path → ∀ j : ℕ,
    bound[i]? = some (some j) ↔ ∃ key, keys[j]? = some key ∧ same key path = true

/-- Every scanned path is bound to the key that names it. -/
def KeysBound (same : Path → Path → Bool) (paths keys : List Path)
    (bound : List (Path × Path)) : Prop :=
  bound.map Prod.fst = paths ∧ ∀ e ∈ bound, e.2 ∈ keys ∧ same e.2 e.1 = true

/-- What the deferred constructor should do. -/
structure DeferredMeets (same : Path → Path → Bool) (paths keys : List Path)
    (result : Except Exn (List (Option ℕ))) : Prop where
  rejected : Ambiguous same paths keys → ∃ e, result = .error e
  bound : ¬Ambiguous same paths keys → ∃ b, result = .ok b ∧ EntriesBound same paths keys b

/-- What the eager constructor should do. -/
structure EagerMeets (same : Path → Path → Bool) (paths keys : List Path)
    (result : Except Exn (List (Path × Path))) : Prop where
  rejected : Ambiguous same paths keys → ∃ e, result = .error e
  unnamed : (∃ path ∈ paths, ∀ key ∈ keys, same key path = false) → ∃ e, result = .error e
  bound : ¬Ambiguous same paths keys → (∀ path ∈ paths, ∃ key ∈ keys, same key path = true) →
    ∃ b, result = .ok b ∧ KeysBound same paths keys b

/-- The two constructors bind the same entries. -/
def SameEntries (keys : List Path) (eager : List (Path × Path)) (deferred : List (Option ℕ)) :
    Prop :=
  deferred.map (fun e => e.bind fun j => keys[j]?) = eager.map fun e => some e.2

/-! ## The match of one key -/

/-- The scanned files that a key names. -/
def matching (same : Path → Path → Bool) (paths : List Path) (key : Path) : List ℕ :=
  (List.range paths.length).filter fun i => same key (paths.getD i [])

theorem mem_matching {same : Path → Path → Bool} {paths : List Path} {key : Path} {i : ℕ} :
    i ∈ matching same paths key ↔ ∃ path, paths[i]? = some path ∧ same key path = true := by
  unfold matching
  rw [List.mem_filter, List.mem_range]
  constructor
  · rintro ⟨hlt, hsame⟩
    rw [List.getD_eq_getElem _ _ hlt] at hsame
    exact ⟨_, List.getElem?_eq_getElem hlt, hsame⟩
  · rintro ⟨path, hpath, hsame⟩
    have hlt : i < paths.length := (List.getElem?_eq_some_iff.mp hpath).1
    rw [List.getD_eq_getElem?_getD, hpath]
    exact ⟨hlt, hsame⟩

theorem length_matching (same : Path → Path → Bool) (paths : List Path) (key : Path) :
    (matching same paths key).length = paths.countP (same key) := by
  unfold matching
  have hmap : (List.range paths.length).map (fun i => paths.getD i []) = paths := by
    apply List.ext_getElem
    · simp
    · intro i h₁ h₂
      simp [h₂]
  rw [← List.countP_eq_length_filter]
  conv_rhs => rw [← hmap, List.countP_map]
  rfl

/-- A count above one has two positions. -/
theorem two_named (same : Path → Path → Bool) {paths : List Path} {key : Path}
    (h : 1 < paths.countP (same key)) :
    ∃ i ∈ matching same paths key, ∃ i' ∈ matching same paths key, i ≠ i' := by
  have hnodup : (matching same paths key).Nodup := List.nodup_range.filter _
  rw [← length_matching] at h
  match hcase : matching same paths key, h with
  | i :: i' :: rest, _ =>
    rw [hcase] at hnodup
    have hne : i ≠ i' := by
      intro heq
      simp [heq] at hnodup
    exact ⟨i, by simp, i', by simp, hne⟩

theorem findMatch_eq (table : String) (key : Path) (same : ℕ → Bool) (found : Option ℕ)
    (candidates : List ℕ) :
    (∃ e, findMatch table key same found candidates = .error e ∧
      1 < (found.toList ++ candidates.filter same).length) ∨
    (findMatch table key same found candidates =
      .ok (found.toList ++ candidates.filter same).head? ∧
      (found.toList ++ candidates.filter same).length ≤ 1) := by
  induction candidates generalizing found with
  | nil =>
    right
    cases found <;> simp [findMatch]
  | cons i rest ih =>
    rw [findMatch]
    by_cases hsame : same i = true
    · rw [if_pos hsame, List.filter_cons_of_pos hsame]
      cases found with
      | none => simpa using ih (some i)
      | some first =>
        left
        simp
    · rw [if_neg hsame, List.filter_cons_of_neg hsame]
      exact ih found

/-- The loop over candidates that hold all the matches of the key. -/
theorem findMatch_matching (table : String) {paths : List Path} {key : Path}
    {same : Path → Path → Bool} {candidates : List ℕ}
    (hall : (candidates.filter fun i => same key (paths.getD i [])).Perm
      (matching same paths key)) :
    (∃ e, findMatch table key (fun i => same key (paths.getD i [])) none candidates = .error e ∧
      1 < paths.countP (same key)) ∨
    ∃ found, findMatch table key (fun i => same key (paths.getD i [])) none candidates = .ok found ∧
      paths.countP (same key) ≤ 1 ∧ matching same paths key = found.toList := by
  have hlen := hall.length_eq
  rw [length_matching] at hlen
  rcases findMatch_eq table key (fun i => same key (paths.getD i [])) none candidates with
    ⟨e, herr, htwo⟩ | ⟨hok, hone⟩
  · rw [Option.toList_none, List.nil_append, hlen] at htwo
    exact .inl ⟨e, herr, htwo⟩
  · simp only [Option.toList_none, List.nil_append] at hok hone
    refine .inr ⟨_, hok, by omega, ?_⟩
    match hcase : candidates.filter fun i => same key (paths.getD i []), hone with
    | [], _ =>
      rw [hcase] at hall
      simpa using hall.symm.eq_nil
    | [i], _ =>
      rw [hcase] at hall
      simpa using List.perm_singleton.mp hall.symm

/-! ## The eager constructor -/

section Eager

variable (fromString : Path → Option ParsedPath) (table : String) (paths : List Path)

/-- The bucket of a key holds all its matches. -/
theorem filter_bucket (key : Path) :
    ((bucket fromString paths (basename (stripFileScheme fromString key))).filter
      fun i => eagerSame fromString key (paths.getD i [])) =
      matching (eagerSame fromString) paths key := by
  unfold bucket matching
  rw [List.filter_filter]
  refine List.filter_congr fun i _ => ?_
  rw [Bool.and_eq_left_iff_imp, decide_eq_true_iff]
  intro hsame
  exact (basename_eq_of_sameFile hsame).symm

/-- The loop over the keys throws for a key that names two files, and else adds
    each key to the file that it names. -/
theorem matchedKeys_spec (keys : List Path) :
    (∃ e, matchedKeys fromString table paths keys = .error e ∧
      ∃ key ∈ keys, 1 < paths.countP (eagerSame fromString key)) ∨
    ∃ pairs, matchedKeys fromString table paths keys = .ok pairs ∧
      (∀ key ∈ keys, paths.countP (eagerSame fromString key) ≤ 1) ∧
      pairs = keys.flatMap fun key =>
        (matching (eagerSame fromString) paths key).map fun i => (paths.getD i [], key) := by
  induction keys with
  | nil => exact .inr ⟨[], rfl, by simp, rfl⟩
  | cons key keys ih =>
    rw [matchedKeys]
    rcases findMatch_matching table
        (List.Perm.of_eq (filter_bucket fromString paths key)) with
      ⟨e, herr, htwo⟩ | ⟨found, hok, hone, hfound⟩
    · exact .inl ⟨e, by rw [herr]; rfl, key, by simp, htwo⟩
    rw [hok]
    rcases ih with ⟨e, herr, hbad⟩ | ⟨rest, hrest, hones, rfl⟩
    · obtain ⟨bad, hmem, htwo⟩ := hbad
      exact .inl ⟨e, by rw [herr]; rfl, bad, by simp [hmem], htwo⟩
    · refine .inr ⟨_, by rw [hrest]; rfl, ?_, ?_⟩
      · intro other hmem
        rcases List.mem_cons.mp hmem with rfl | hmem
        · exact hone
        · exact hones other hmem
      · rw [List.flatMap_cons, hfound]

/-- `keys_by_scan_path`, as the loop over the keys leaves it. -/
def namingPairs (keys : List Path) : List (Path × Path) :=
  keys.flatMap fun key =>
    (matching (eagerSame fromString) paths key).map fun i => (paths.getD i [], key)

variable {fromString paths}

theorem mem_namingPairs {keys : List Path} {e : Path × Path} :
    e ∈ namingPairs fromString paths keys ↔
      e.1 ∈ paths ∧ e.2 ∈ keys ∧ eagerSame fromString e.2 e.1 = true := by
  obtain ⟨path, key⟩ := e
  unfold namingPairs
  simp only [List.mem_flatMap, List.mem_map, mem_matching, Prod.mk.injEq]
  constructor
  · rintro ⟨key, hkey, i, ⟨path, hpath, hsame⟩, rfl, rfl⟩
    rw [List.getD_eq_getElem?_getD, hpath]
    exact ⟨List.mem_of_getElem? hpath, hkey, hsame⟩
  · rintro ⟨hpath, hkey, hsame⟩
    obtain ⟨i, hi⟩ := List.mem_iff_getElem?.mp hpath
    exact ⟨key, hkey, i, ⟨path, hi, hsame⟩, by rw [List.getD_eq_getElem?_getD, hi]; rfl, rfl⟩

/-- Where every key names one file at most, the keys of a scanned path are those
    that name it. -/
theorem keysFor_namingPairs {keys : List Path} {path : Path} (hpath : path ∈ paths)
    (hone : ∀ key ∈ keys, paths.countP (eagerSame fromString key) ≤ 1) :
    keysFor (namingPairs fromString paths keys) path =
      keys.filter fun key => eagerSame fromString key path := by
  induction keys with
  | nil => rfl
  | cons key keys ih =>
    have ih := ih fun other hother => hone other (by simp [hother])
    have hlen := hone key (by simp)
    rw [← length_matching] at hlen
    unfold keysFor namingPairs at ih ⊢
    rw [List.flatMap_cons, List.filter_append, List.map_append, ih]
    obtain ⟨i, hi⟩ := List.mem_iff_getElem?.mp hpath
    by_cases hsame : eagerSame fromString key path = true
    · have hmem : i ∈ matching (eagerSame fromString) paths key :=
        mem_matching.mpr ⟨path, hi, hsame⟩
      obtain ⟨first, hfirst⟩ := List.length_eq_one_iff.mp
        (Nat.le_antisymm hlen (List.length_pos_of_mem hmem))
      rw [hfirst, List.mem_singleton] at hmem
      rw [hfirst, List.filter_cons, if_pos hsame, ← hmem]
      simp [hi]
    · have hnone : ∀ i ∈ matching (eagerSame fromString) paths key, paths.getD i [] ≠ path := by
        intro i' hmem heq
        obtain ⟨path', hpath', hsame'⟩ := mem_matching.mp hmem
        rw [List.getD_eq_getElem?_getD, hpath', Option.getD_some] at heq
        exact hsame (heq ▸ hsame')
      rw [List.filter_cons, if_neg hsame]
      have hfilter : (List.map (fun i => (paths.getD i [], key))
          (matching (eagerSame fromString) paths key)).filter (fun e => e.1 = path) = [] := by
        rw [List.filter_eq_nil_iff]
        intro e he
        obtain ⟨i', hmem, rfl⟩ := List.mem_map.mp he
        simpa using hnone i' hmem
      rw [hfilter]
      rfl

theorem buildDeleteKeyMap_spec (keys : List Path) :
    (∃ e, buildDeleteKeyMap fromString table paths keys = .error e ∧
      Ambiguous (eagerSame fromString) paths keys) ∨
    (buildDeleteKeyMap fromString table paths keys =
      .ok ((namingPairs fromString paths keys).filter fun e => e.2 ≠ e.1) ∧
      ¬Ambiguous (eagerSame fromString) paths keys) := by
  unfold buildDeleteKeyMap
  rcases matchedKeys_spec fromString table paths keys with ⟨e, herr, hbad⟩ | ⟨pairs, hok, hone, heq⟩
  · exact .inl ⟨e, by rw [herr]; rfl, .inl hbad⟩
  have hpairs : pairs = namingPairs fromString paths keys := heq
  rw [hok, hpairs]
  have hcount : ∀ path ∈ paths, (keysFor (namingPairs fromString paths keys) path).length =
      keys.countP fun key => eagerSame fromString key path := by
    intro path hpath
    rw [keysFor_namingPairs hpath hone, List.countP_eq_length_filter]
  cases hfind : (namingPairs fromString paths keys).find? fun e =>
      (keysFor (namingPairs fromString paths keys) e.1).length > 1 with
  | some e =>
    have htwo := List.find?_some hfind
    obtain ⟨hpath, -, -⟩ := mem_namingPairs.mp (List.mem_of_find?_eq_some hfind)
    rw [decide_eq_true_iff, hcount e.1 hpath] at htwo
    left
    simp only [bind, Except.bind, hfind]
    exact ⟨_, rfl, .inr ⟨e.1, hpath, htwo⟩⟩
  | none =>
    refine .inr ⟨by simp only [bind, Except.bind, hfind], ?_⟩
    rintro (⟨key, hkey, htwo⟩ | ⟨path, hpath, htwo⟩)
    · exact absurd (hone key hkey) (by omega)
    · obtain ⟨key, hkey, hsame⟩ := List.countP_pos_iff.mp (Nat.zero_lt_of_lt htwo)
      have hle := List.find?_eq_none.mp hfind (path, key) (mem_namingPairs.mpr ⟨hpath, hkey, hsame⟩)
      rw [decide_eq_true_iff, hcount path hpath] at hle
      exact hle htwo

theorem eagerSame_self (path : Path) : eagerSame fromString path path = true := by
  unfold eagerSame
  exact (sameFile_iff _ _).mpr (.inl rfl)

/-- `delete_key_for` returns the key that names the path. -/
theorem deleteKeyFor_eq {keys : List Path} {path key : Path}
    (hclear : ¬Ambiguous (eagerSame fromString) paths keys) (hpath : path ∈ paths)
    (hkey : key ∈ keys) (hsame : eagerSame fromString key path = true) :
    deleteKeyFor ((namingPairs fromString paths keys).filter fun e => e.2 ≠ e.1) path = key := by
  have hunique : ∀ other ∈ keys, eagerSame fromString other path = true → other = key := by
    intro other hother hsame'
    have hone : keys.countP (fun key => eagerSame fromString key path) ≤ 1 := by
      by_contra hlt
      exact hclear (.inr ⟨path, hpath, by omega⟩)
    rw [List.countP_eq_length_filter] at hone
    have hmem : key ∈ keys.filter fun key => eagerSame fromString key path :=
      List.mem_filter.mpr ⟨hkey, hsame⟩
    have hmem' : other ∈ keys.filter fun key => eagerSame fromString key path :=
      List.mem_filter.mpr ⟨hother, hsame'⟩
    obtain ⟨first, hfirst⟩ := List.length_eq_one_iff.mp
      (Nat.le_antisymm hone (List.length_pos_of_mem hmem))
    rw [hfirst, List.mem_singleton] at hmem hmem'
    rw [hmem, hmem']
  unfold deleteKeyFor
  cases hfind : ((namingPairs fromString paths keys).filter fun e => e.2 ≠ e.1).find?
      fun e => e.1 = path with
  | some e =>
    have hfst : e.1 = path := by simpa using List.find?_some hfind
    obtain ⟨-, hmem, hsame'⟩ := mem_namingPairs.mp
      (List.mem_filter.mp (List.mem_of_find?_eq_some hfind)).1
    exact hunique e.2 hmem (hfst ▸ hsame')
  | none =>
    -- The pair is there, so the loop at the end left it out as an exact spelling.
    by_contra hne
    have hmem : (path, key) ∈ (namingPairs fromString paths keys).filter fun e => e.2 ≠ e.1 :=
      List.mem_filter.mpr ⟨mem_namingPairs.mpr ⟨hpath, hkey, hsame⟩, by simpa using Ne.symm hne⟩
    simpa using List.find?_eq_none.mp hfind _ hmem

/-- The key of a path that no key names has no delete set. -/
theorem deleteKeyFor_not_mem {keys : List Path} {path : Path}
    (hnone : ∀ key ∈ keys, eagerSame fromString key path = false) :
    deleteKeyFor ((namingPairs fromString paths keys).filter fun e => e.2 ≠ e.1) path ∉ keys := by
  unfold deleteKeyFor
  cases hfind : ((namingPairs fromString paths keys).filter fun e => e.2 ≠ e.1).find?
      fun e => e.1 = path with
  | some e =>
    have hfst : e.1 = path := by simpa using List.find?_some hfind
    obtain ⟨-, hmem, hsame⟩ := mem_namingPairs.mp
      (List.mem_filter.mp (List.mem_of_find?_eq_some hfind)).1
    rw [hfst, hnone e.2 hmem] at hsame
    exact absurd hsame (by simp)
  | none =>
    intro hmem
    have hself := hnone path hmem
    rw [eagerSame_self] at hself
    exact absurd hself (by simp)

theorem resolveSets_spec (map : List (Path × Path)) (keys rest : List Path) :
    (∃ e, resolveSets map keys rest = .error e ∧ ∃ path ∈ rest, deleteKeyFor map path ∉ keys) ∨
    (resolveSets map keys rest = .ok (rest.map fun path => (path, deleteKeyFor map path)) ∧
      ∀ path ∈ rest, deleteKeyFor map path ∈ keys) := by
  induction rest with
  | nil => exact .inr ⟨rfl, by simp⟩
  | cons path rest ih =>
    rw [resolveSets]
    by_cases hkey : deleteKeyFor map path ∉ keys
    · rw [if_pos hkey]
      exact .inl ⟨_, rfl, path, by simp, hkey⟩
    rw [if_neg hkey]
    rcases ih with ⟨e, herr, bad, hmem, hbad⟩ | ⟨hok, hall⟩
    · exact .inl ⟨e, by rw [herr]; rfl, bad, by simp [hmem], hbad⟩
    · refine .inr ⟨by rw [hok]; rfl, ?_⟩
      intro other hmem
      rcases List.mem_cons.mp hmem with rfl | hmem
      · exact not_not.mp hkey
      · exact hall other hmem

/-- **The eager constructor**: it binds every scanned path to the key that names
    it, and throws if a key names two paths, two keys name one, or none does. -/
theorem bindEager_meets (keys : List Path) :
    EagerMeets (eagerSame fromString) paths keys (bindEager fromString table paths keys) := by
  unfold bindEager
  rcases buildDeleteKeyMap_spec table keys with ⟨e, herr, hbad⟩ | ⟨hok, hclear⟩
  · rw [herr]
    exact ⟨fun _ => ⟨e, rfl⟩, fun _ => ⟨e, rfl⟩, fun hclear => absurd hbad hclear⟩
  rw [hok]
  refine ⟨fun hbad => absurd hbad hclear, ?_, ?_⟩
  · rintro ⟨path, hpath, hnone⟩
    rcases resolveSets_spec ((namingPairs fromString paths keys).filter fun e => e.2 ≠ e.1) keys
        paths with ⟨e, herr, -⟩ | ⟨-, hall⟩
    · exact ⟨e, herr⟩
    · exact absurd (hall path hpath) (deleteKeyFor_not_mem hnone)
  · intro _ hnamed
    have hkey : ∀ path ∈ paths, ∃ key ∈ keys, eagerSame fromString key path = true ∧
        deleteKeyFor ((namingPairs fromString paths keys).filter fun e => e.2 ≠ e.1) path =
          key := by
      intro path hpath
      obtain ⟨key, hkey, hsame⟩ := hnamed path hpath
      exact ⟨key, hkey, hsame, deleteKeyFor_eq hclear hpath hkey hsame⟩
    rcases resolveSets_spec ((namingPairs fromString paths keys).filter fun e => e.2 ≠ e.1) keys
        paths with ⟨e, -, path, hpath, hbad⟩ | ⟨hresolved, -⟩
    · obtain ⟨key, hmem, -, heq⟩ := hkey path hpath
      exact absurd (heq ▸ hmem) hbad
    · refine ⟨_, hresolved, by simp [List.map_map, Function.comp_def], ?_⟩
      intro e he
      obtain ⟨path, hpath, rfl⟩ := List.mem_map.mp he
      obtain ⟨key, hmem, hsame, heq⟩ := hkey path hpath
      rw [heq]
      exact ⟨hmem, hsame⟩

end Eager

/-! ## The deferred constructor -/

/-- What `std::lower_bound` and the loop after it visit of a sorted list. -/
theorem takeWhile_dropWhile_sorted {α β : Type*} [LinearOrder β] {f : α → β} {b : β}
    {lt eq : α → Bool} (hlt : ∀ x, lt x = true ↔ f x < b) (heq : ∀ x, eq x = true ↔ f x = b)
    {l : List α} (hsorted : l.Pairwise fun x y => f x ≤ f y) :
    (l.dropWhile lt).takeWhile eq = l.filter eq := by
  induction l with
  | nil => rfl
  | cons x l ih =>
    obtain ⟨hx, hl⟩ := List.pairwise_cons.mp hsorted
    have ih := ih hl
    rcases lt_trichotomy (f x) b with hcmp | hcmp | hcmp
    · have hne : ¬eq x = true := fun h => hcmp.ne ((heq x).mp h)
      rw [List.dropWhile_cons_of_pos ((hlt x).mpr hcmp), ih, List.filter_cons_of_neg hne]
    · have hge : ¬lt x = true := fun h => ((hlt x).mp h).ne hcmp
      have hdrop : l.dropWhile lt = l := by
        rw [List.dropWhile_eq_self_iff]
        intro hpos h
        exact absurd ((hlt _).mp h) (not_lt.mpr (hcmp ▸ hx _ (List.getElem_mem hpos)))
      have hmem := (heq x).mpr hcmp
      rw [List.dropWhile_cons_of_neg hge, List.takeWhile_cons_of_pos hmem,
        List.filter_cons_of_pos hmem, ← ih, hdrop]
    · have hge : ¬lt x = true := fun h => hcmp.not_gt ((hlt x).mp h)
      have hne : ∀ y ∈ x :: l, ¬eq y = true := by
        intro y hy h
        rcases List.mem_cons.mp hy with rfl | hy
        · exact hcmp.ne' ((heq _).mp h)
        · exact (hcmp.trans_le (hx y hy)).ne' ((heq y).mp h)
      rw [List.dropWhile_cons_of_neg hge, List.takeWhile_cons_of_neg (hne x (by simp)),
        List.filter_eq_nil_iff.mpr hne]

section Deferred

variable (table : String) {paths : List Path} {sorted : List ℕ}

/-- The files visited for a key are a permutation of those with its last
    component, and hold all its matches. -/
theorem filter_candidates (hindex : SortedIndex paths sorted) (key : Path) :
    ((candidates paths sorted (basename key)).filter
      fun i => deferredSame key (paths.getD i [])).Perm (matching deferredSame paths key) := by
  unfold candidates matching
  rw [takeWhile_dropWhile_sorted (fun _ => decide_eq_true_iff) (fun _ => decide_eq_true_iff)
    hindex.sorted, List.filter_filter]
  refine (hindex.perm.filter _).trans (List.Perm.of_eq (List.filter_congr fun i _ => ?_))
  rw [Bool.and_eq_left_iff_imp, decide_eq_true_iff]
  intro hsame
  have hbase := basename_eq_of_sameFile hsame
  rw [basename_bare, basename_bare] at hbase
  exact hbase.symm

/-- Entry `j` names file `i`. -/
def Names (paths keys : List Path) (j i : ℕ) : Prop :=
  ∃ key path, keys[j]? = some key ∧ paths[i]? = some path ∧ deferredSame key path = true

/-- The invariant of the loop: the first `n` entries are bound, and each of them
    names one file at most. -/
structure BoundTo (paths keys : List Path) (n : ℕ) (state : List (Option ℕ)) : Prop where
  length : state.length = paths.length
  bound : ∀ i j, state.getD i none = some j ↔ j < n ∧ Names paths keys j i
  single : ∀ j < n, ∀ key, keys[j]? = some key → paths.countP (deferredSame key) ≤ 1

variable {key : Path}

theorem names_iff {keys : List Path} {j : ℕ} (hkey : keys[j]? = some key) (i : ℕ) :
    Names paths keys j i ↔ i ∈ matching deferredSame paths key := by
  rw [mem_matching]
  unfold Names
  simp [hkey]

variable {state : List (Option ℕ)}

theorem BoundTo.skip {keys : List Path} {n : ℕ}
    (hinv : BoundTo paths keys n state) (hkey : keys[n]? = some key)
    (hnone : matching deferredSame paths key = []) : BoundTo paths keys (n + 1) state := by
  have hsplit : ∀ j < n + 1, j < n ∨ j = n := fun j hj => Nat.lt_succ_iff_lt_or_eq.mp hj
  refine ⟨hinv.length, fun i j => ?_, fun j hj key' hkey' => ?_⟩
  · rw [hinv.bound]
    refine and_congr_left fun hnames => ⟨fun hj => by omega, fun hj => ?_⟩
    rcases hsplit j hj with hj | rfl
    · exact hj
    · rw [names_iff hkey, hnone] at hnames
      exact absurd hnames List.not_mem_nil
  · rcases hsplit j hj with hj | rfl
    · exact hinv.single j hj key' hkey'
    · rw [hkey, Option.some.injEq] at hkey'
      rw [← hkey', ← length_matching, hnone]
      exact Nat.zero_le 1

theorem BoundTo.bind {keys : List Path} {n i : ℕ} (hinv : BoundTo paths keys n state)
    (hkey : keys[n]? = some key) (hfound : matching deferredSame paths key = [i])
    (hfree : state.getD i none = none) : BoundTo paths keys (n + 1) (state.set i (some n)) := by
  have hlt : i < state.length := by
    obtain ⟨path, hpath, -⟩ := mem_matching.mp (hfound ▸ List.mem_singleton_self i)
    rw [hinv.length]
    exact (List.getElem?_eq_some_iff.mp hpath).1
  have hn : ∀ i', Names paths keys n i' ↔ i' = i := by
    intro i'
    rw [names_iff hkey, hfound, List.mem_singleton]
  have hold : ∀ j < n, ¬Names paths keys j i := by
    intro j hj hnames
    have hbound := (hinv.bound i j).mpr ⟨hj, hnames⟩
    rw [hfree] at hbound
    exact absurd hbound (by simp)
  have hsplit : ∀ j < n + 1, j < n ∨ j = n := fun j hj => Nat.lt_succ_iff_lt_or_eq.mp hj
  refine ⟨by rw [List.length_set, hinv.length], fun i' j => ?_, fun j hj key' hkey' => ?_⟩
  · by_cases hi : i' = i
    · subst hi
      have hget : (state.set i' (some n)).getD i' none = some n := by simp [hlt]
      rw [hget, Option.some.injEq]
      constructor
      · rintro rfl
        exact ⟨by omega, (hn i').mpr rfl⟩
      · rintro ⟨hj, hnames⟩
        rcases hsplit j hj with hj | rfl
        · exact absurd hnames (hold j hj)
        · rfl
    · have hget : (state.set i (some n)).getD i' none = state.getD i' none := by
        simp [List.getElem?_set_ne (Ne.symm hi)]
      rw [hget, hinv.bound]
      refine and_congr_left fun hnames => ⟨fun hj => by omega, fun hj => ?_⟩
      rcases hsplit j hj with hj | rfl
      · exact hj
      · exact absurd ((hn i').mp hnames) hi
  · rcases hsplit j hj with hj | rfl
    · exact hinv.single j hj key' hkey'
    · rw [hkey, Option.some.injEq] at hkey'
      rw [← hkey', ← length_matching, hfound]
      exact Nat.le_refl 1

/-- An entry after those already bound names a file that one of them names. -/
theorem BoundTo.ambiguous {done rest : List Path} {other i : ℕ}
    (hinv : BoundTo paths (done ++ key :: rest) done.length state)
    (hfound : i ∈ matching deferredSame paths key) (hbound : state.getD i none = some other) :
    Ambiguous deferredSame paths (done ++ key :: rest) := by
  obtain ⟨path, hpath, hsame⟩ := mem_matching.mp hfound
  obtain ⟨hlt, first, path', hfirst, hpath', hsame'⟩ := (hinv.bound i other).mp hbound
  obtain rfl : path = path' := by simpa [hpath] using hpath'
  rw [List.getElem?_append_left hlt] at hfirst
  have hdone : 0 < done.countP fun key => deferredSame key path :=
    List.countP_pos_iff.mpr ⟨first, List.mem_of_getElem? hfirst, hsame'⟩
  have hrest : 0 < (key :: rest).countP fun key => deferredSame key path :=
    List.countP_pos_iff.mpr ⟨key, by simp, hsame⟩
  refine .inr ⟨path, List.mem_of_getElem? hpath, ?_⟩
  rw [List.countP_append]
  omega

/-- The loop over the entries, by induction on those still to come. -/
theorem bindEntries_spec (hindex : SortedIndex paths sorted) {done rest : List Path}
    (hinv : BoundTo paths (done ++ rest) done.length state) :
    (∃ e, bindEntries table paths sorted (done ++ rest) done.length state rest = .error e ∧
      Ambiguous deferredSame paths (done ++ rest)) ∨
    ∃ b, bindEntries table paths sorted (done ++ rest) done.length state rest = .ok b ∧
      BoundTo paths (done ++ rest) (done ++ rest).length b := by
  induction rest generalizing done state with
  | nil => exact .inr ⟨state, rfl, by simpa using hinv⟩
  | cons key rest ih =>
    have hkey : (done ++ key :: rest)[done.length]? = some key := by simp
    have hcons : done ++ key :: rest = (done ++ [key]) ++ rest := by simp
    have hlen : (done ++ [key]).length = done.length + 1 := by simp
    rw [bindEntries]
    rcases findMatch_matching table (filter_candidates hindex key) with
      ⟨e, herr, htwo⟩ | ⟨found, hok, -, hfound⟩
    · exact .inl ⟨e, by rw [herr]; rfl, .inl ⟨key, by simp, htwo⟩⟩
    rw [hok]
    cases found with
    | none =>
      have hnext := hinv.skip hkey hfound
      rw [hcons, ← hlen] at hnext ⊢
      exact ih hnext
    | some i =>
      cases hstate : state.getD i none with
      | some other =>
        left
        simp only [bind, Except.bind, hstate]
        exact ⟨_, rfl, hinv.ambiguous (by simp [hfound]) hstate⟩
      | none =>
        have hnext := hinv.bind hkey hfound hstate
        simp only [bind, Except.bind, hstate]
        rw [hcons, ← hlen] at hnext ⊢
        exact ih hnext

/-- **The deferred constructor** is right about its own comparison of paths. -/
theorem bindDeferred_meets (hindex : SortedIndex paths sorted) (keys : List Path) :
    DeferredMeets deferredSame paths keys (bindDeferred table paths sorted keys) := by
  have hstart : BoundTo paths ([] ++ keys) ([] : List Path).length
      (List.replicate paths.length none) := by
    refine ⟨by simp, fun i j => ?_, fun j hj => absurd hj (Nat.not_lt_zero j)⟩
    have hnone : (List.replicate paths.length (none : Option ℕ)).getD i none = none := by
      rw [List.getD_eq_getElem?_getD, List.getElem?_replicate]
      split_ifs <;> rfl
    rw [hnone]
    simp
  unfold bindDeferred
  rcases bindEntries_spec table hindex hstart with ⟨e, herr, hbad⟩ | ⟨b, hok, hbound⟩
  · exact ⟨fun _ => ⟨e, herr⟩, fun hclear => absurd hbad hclear⟩
  rw [List.nil_append] at hbound
  refine ⟨?_, fun _ => ⟨b, hok, hbound.length, fun i path hpath j => ?_⟩⟩
  · rintro (⟨key, hmem, htwo⟩ | ⟨path, hpath, htwo⟩)
    · obtain ⟨j, hj⟩ := List.mem_iff_getElem?.mp hmem
      exact absurd (hbound.single j (List.getElem?_eq_some_iff.mp hj).1 key hj) (by omega)
    · obtain ⟨j, hj, j', hj', hne⟩ :=
        two_named (fun path key => deferredSame key path) htwo
      obtain ⟨i, hi⟩ := List.mem_iff_getElem?.mp hpath
      have hbind : ∀ n ∈ matching (fun path key => deferredSame key path) keys path,
          b.getD i none = some n := by
        intro n hn
        obtain ⟨key, hkey, hsame⟩ := mem_matching.mp hn
        exact (hbound.bound i n).mpr
          ⟨(List.getElem?_eq_some_iff.mp hkey).1, key, path, hkey, hi, hsame⟩
      have heq := (hbind j hj).symm.trans (hbind j' hj')
      exact absurd (Option.some.inj heq) hne
  · have hlt : i < b.length := by
      rw [hbound.length]
      exact (List.getElem?_eq_some_iff.mp hpath).1
    have hget := hbound.bound i j
    rw [List.getD_eq_getElem _ _ hlt] at hget
    rw [List.getElem?_eq_getElem hlt, Option.some.injEq, hget]
    constructor
    · rintro ⟨-, key, path', hkey, hpath', hsame⟩
      rw [hpath, Option.some.injEq] at hpath'
      exact ⟨key, hkey, hpath' ▸ hsame⟩
    · rintro ⟨key, hkey, hsame⟩
      exact ⟨(List.getElem?_eq_some_iff.mp hkey).1, key, path, hkey, hpath, hsame⟩

end Deferred

/-! ## Both constructors -/

section Both

variable {fromString : Path → Option ParsedPath} {table : String} {paths keys : List Path}
  {sorted : List ℕ}

variable {same same' : Path → Path → Bool}

theorem Ambiguous.congr (hagree : ∀ key ∈ keys, ∀ path ∈ paths, same key path = same' key path) :
    Ambiguous same paths keys ↔ Ambiguous same' paths keys := by
  unfold Ambiguous
  refine or_congr (exists_congr fun key => and_congr_right fun hkey => ?_)
    (exists_congr fun path => and_congr_right fun hpath => ?_)
  · rw [List.countP_congr fun path hpath => by rw [hagree key hkey path hpath]]
  · rw [List.countP_congr fun key hkey => by rw [hagree key hkey path hpath]]

theorem EntriesBound.congr {b : List (Option ℕ)}
    (hagree : ∀ key ∈ keys, ∀ path ∈ paths, same key path = same' key path)
    (h : EntriesBound same paths keys b) : EntriesBound same' paths keys b := by
  refine ⟨h.1, fun i path hpath j => (h.2 i path hpath j).trans ?_⟩
  refine exists_congr fun key => and_congr_right fun hkey => ?_
  rw [hagree key (List.mem_of_getElem? hkey) path (List.mem_of_getElem? hpath)]

theorem DeferredMeets.congr {result : Except Exn (List (Option ℕ))}
    (hagree : ∀ key ∈ keys, ∀ path ∈ paths, same key path = same' key path)
    (h : DeferredMeets same paths keys result) : DeferredMeets same' paths keys result := by
  refine ⟨fun hbad => h.rejected ((Ambiguous.congr hagree).mpr hbad), fun hclear => ?_⟩
  obtain ⟨b, hok, hbound⟩ := h.bound fun hbad => hclear ((Ambiguous.congr hagree).mp hbad)
  exact ⟨b, hok, hbound.congr hagree⟩

/-- A result that is right about two comparisons: they agree, or both throw. -/
theorem DeferredMeets.agree {result : Except Exn (List (Option ℕ))}
    (h : DeferredMeets same paths keys result) (h' : DeferredMeets same' paths keys result) :
    (∀ key ∈ keys, ∀ path ∈ paths, same key path = same' key path) ∨
      (Ambiguous same paths keys ∧ Ambiguous same' paths keys) := by
  by_cases hbad : Ambiguous same paths keys
  · right
    refine ⟨hbad, ?_⟩
    by_contra hclear
    obtain ⟨e, herr⟩ := h.rejected hbad
    obtain ⟨b, hok, -⟩ := h'.bound hclear
    exact absurd (herr.symm.trans hok) (by simp)
  · left
    obtain ⟨b, hok, -, hbound⟩ := h.bound hbad
    have hclear : ¬Ambiguous same' paths keys := by
      intro hbad'
      obtain ⟨e, herr⟩ := h'.rejected hbad'
      exact absurd (herr.symm.trans hok) (by simp)
    obtain ⟨b', hok', -, hbound'⟩ := h'.bound hclear
    obtain rfl : b = b' := by simpa using hok.symm.trans hok'
    intro key hkey path hpath
    obtain ⟨i, hi⟩ := List.mem_iff_getElem?.mp hpath
    obtain ⟨j, hj⟩ := List.mem_iff_getElem?.mp hkey
    have hiff := (hbound i path hi j).symm.trans (hbound' i path hi j)
    simpa [hj, ← Bool.eq_iff_iff] using hiff

theorem sameEntries_of_meets {eager : Except Exn (List (Path × Path))}
    {deferred : Except Exn (List (Option ℕ))} (he : EagerMeets same paths keys eager)
    (hd : DeferredMeets same paths keys deferred) {a : List (Path × Path)} {b : List (Option ℕ)}
    (ha : eager = .ok a) (hb : deferred = .ok b) : SameEntries keys a b := by
  subst ha hb
  have hclear : ¬Ambiguous same paths keys := fun hbad => by simpa using he.rejected hbad
  have hnamed : ∀ path ∈ paths, ∃ key ∈ keys, same key path = true := by
    by_contra hnone
    push Not at hnone
    simpa using he.unnamed (by simpa using hnone)
  obtain ⟨a', ha', hfst, hkeys⟩ := he.bound hclear hnamed
  obtain ⟨b', hb', hlen, hbound⟩ := hd.bound hclear
  obtain rfl : a = a' := by simpa using ha'
  obtain rfl : b = b' := by simpa using hb'
  have hlen' : a.length = paths.length := by rw [← hfst, List.length_map]
  refine List.ext_getElem (by simp [hlen, hlen']) fun i h₁ h₂ => ?_
  have hi : i < a.length := by simpa using h₂
  have hpath : paths[i]? = some a[i].1 := by
    rw [← hfst, List.getElem?_map, List.getElem?_eq_getElem hi]
    rfl
  obtain ⟨hmem, hsame⟩ := hkeys a[i] (List.getElem_mem hi)
  obtain ⟨j, hj⟩ := List.mem_iff_getElem?.mp hmem
  have hb : b[i]? = some (some j) := (hbound i a[i].1 hpath j).mpr ⟨a[i].2, hj, hsame⟩
  obtain ⟨_, hbi⟩ := List.getElem?_eq_some_iff.mp hb
  simp [hbi, hj]

/-- **Delete entries**: both constructors bind every scanned file to the entry that
    names it, and reject what is ambiguous, exactly if stripping with `bare` and
    with `strip_file_scheme` make the same keys name the same files, or both leave
    the keys ambiguous. -/
theorem delete_entries_bound (fromString : Path → Option ParsedPath) (table : String)
    (keys : List Path) (hindex : SortedIndex paths sorted) :
    (EagerMeets (eagerSame fromString) paths keys (bindEager fromString table paths keys) ∧
      DeferredMeets (eagerSame fromString) paths keys (bindDeferred table paths sorted keys) ∧
      ∀ a b, bindEager fromString table paths keys = .ok a →
        bindDeferred table paths sorted keys = .ok b → SameEntries keys a b) ↔
    ((∀ key ∈ keys, ∀ path ∈ paths, eagerSame fromString key path = deferredSame key path) ∨
      (Ambiguous (eagerSame fromString) paths keys ∧ Ambiguous deferredSame paths keys)) := by
  have heager : EagerMeets (eagerSame fromString) paths keys
    (bindEager fromString table paths keys) := bindEager_meets table keys
  have hdeferred := bindDeferred_meets table hindex keys
  constructor
  · rintro ⟨-, hmeets, -⟩
    exact hmeets.agree hdeferred
  · intro hcond
    have hmeets : DeferredMeets (eagerSame fromString) paths keys
        (bindDeferred table paths sorted keys) := by
      rcases hcond with hagree | ⟨hbad, hbad'⟩
      · exact hdeferred.congr fun key hkey path hpath => (hagree key hkey path hpath).symm
      · exact ⟨fun _ => hdeferred.rejected hbad', fun hclear => absurd hbad hclear⟩
    exact ⟨heager, hmeets, fun a b => sameEntries_of_meets heager hmeets⟩

end Both

/-- `Path::FromString("file:/a")` is the local path `/a`. -/
def parseFileA (s : Path) : Option ParsedPath :=
  if s = ['f', 'i', 'l', 'e', ':', '/', 'a'] then
    some { isLocal := true, anchor := ['/'], path := ['a'], trailingSeparator := [] }
  else none

/-- Two keys without a scheme, on the paths of two files. -/
theorem delete_entries_bound_two_files :
    EagerMeets (eagerSame parseFileA) [['/', 'b'], ['/', 'a']] [['/', 'a'], ['b']]
      (bindEager parseFileA "t" [['/', 'b'], ['/', 'a']] [['/', 'a'], ['b']]) ∧
    DeferredMeets (eagerSame parseFileA) [['/', 'b'], ['/', 'a']] [['/', 'a'], ['b']]
      (bindDeferred "t" [['/', 'b'], ['/', 'a']] [1, 0] [['/', 'a'], ['b']]) := by
  have hindex : SortedIndex [['/', 'b'], ['/', 'a']] [1, 0] := ⟨by decide, by decide⟩
  have h := (delete_entries_bound parseFileA "t" [['/', 'a'], ['b']] hindex).mpr
    (.inl (by decide))
  exact ⟨h.1, h.2.1⟩

/-- The entry `file:/a` names the scanned file `/a`, and is dropped. -/
theorem deferred_drops_entry :
    eagerSame parseFileA ['f', 'i', 'l', 'e', ':', '/', 'a'] ['/', 'a'] = true ∧
    bindEager parseFileA "t" [['/', 'a']] [['f', 'i', 'l', 'e', ':', '/', 'a']] =
      .ok [(['/', 'a'], ['f', 'i', 'l', 'e', ':', '/', 'a'])] ∧
    bindDeferred "t" [['/', 'a']] [0] [['f', 'i', 'l', 'e', ':', '/', 'a']] = .ok [none] ∧
    ¬DeferredMeets (eagerSame parseFileA) [['/', 'a']] [['f', 'i', 'l', 'e', ':', '/', 'a']]
      (bindDeferred "t" [['/', 'a']] [0] [['f', 'i', 'l', 'e', ':', '/', 'a']]) := by
  have hdropped :
      bindDeferred "t" [['/', 'a']] [0] [['f', 'i', 'l', 'e', ':', '/', 'a']] = .ok [none] := rfl
  refine ⟨by decide, rfl, hdropped, fun hmeets => ?_⟩
  rw [hdropped] at hmeets
  have hclear : ¬Ambiguous (eagerSame parseFileA) [['/', 'a']]
      [['f', 'i', 'l', 'e', ':', '/', 'a']] := by
    unfold Ambiguous
    decide
  obtain ⟨b, hok, -, hbound⟩ := hmeets.bound hclear
  obtain rfl : [none] = b := by simpa using hok
  have hentry := (hbound 0 ['/', 'a'] rfl 0).mpr ⟨_, rfl, by decide⟩
  simp at hentry

end Sirius.Scan
