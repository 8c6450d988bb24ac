import Sirius.Exec.MultiIndexQueue

/-!
# The indexes of the queue agree with its levels

Every index is a function of the spine: the priorities of an operator or a query are those of
its levels, and the buckets of a device are the addresses of its tasks, level by level. `Inv`
says so, and one lemma for each operation says what it does to the list of the nodes.

* `Inv.push`: a push places its node behind the nodes of the same and smaller priorities.
* `Consistent.threw`: a push that throws leaves the spine and what the indexes hold as they
  were.
* `Inv.extract`: `extract_node` removes the node.
* `Inv.drainQuery`: `drain(query_index)` removes the nodes of the query.
-/

namespace Sirius.Exec.MultiIndex

open Sirius.Common

variable {O Task : Type} [DecidableEq O]

/-! ## The invariant -/

/-- What a map holds for a list of elements: a key without elements has no entry. -/
def pack {α : Type} (l : List α) : Option (List α) := if l = [] then none else some l

@[simp] theorem getD_pack {α : Type} (l : List α) : (pack l).getD [] = l := by
  unfold pack
  split_ifs with h
  · exact h.symm
  · rfl

theorem pack_eq_none {α : Type} {l : List α} : pack l = none ↔ l = [] := by
  simp [pack]

theorem pack_eq_some {α : Type} {l l' : List α} : pack l = some l' ↔ l' = l ∧ l ≠ [] := by
  unfold pack
  split_ifs with h
  · simp [h]
  · simp [h, eq_comm]

/-- The priorities of the levels that `sel` selects. -/
def levelsWith (sel : Level O Task → Bool) (levels : List (Rung O Task)) : List ℤ :=
  (levels.filter fun e => sel e.2).map Prod.fst

/-- A bucket, unless it is empty. -/
def keepBucket (p : ℤ) (ids : List ℕ) : List (ℤ × List ℕ) := if ids = [] then [] else [(p, ids)]

/-- The addresses of the tasks of a level that prefer a device. -/
def idsOn (dev : ℤ) (tasks : List (Node O Task)) : List ℕ :=
  (tasks.filter fun n => n.keys.deviceId = dev).map Node.id

def bucketOf (dev : ℤ) (e : Rung O Task) : List (ℤ × List ℕ) :=
  keepBucket e.1 (idsOn dev e.2.tasks)

def deviceBuckets (dev : ℤ) (levels : List (Rung O Task)) : List (ℤ × List ℕ) :=
  levels.flatMap (bucketOf dev)

/-- A level holds tasks, all with its priority, query and operator. -/
structure RungOk (e : Rung O Task) : Prop where
  nonempty : e.2.tasks ≠ []
  keyed : ∀ n ∈ e.2.tasks,
    n.keys.priority = e.1 ∧ n.keys.queryId = e.2.qid ∧ n.keys.operatorType = e.2.op

structure Inv (q : Queue O Task) : Prop where
  sorted : SortedBy Prod.fst q.levels
  rungs : ∀ e ∈ q.levels, RungOk e
  distinct : ((flat q.levels).map Node.id).Nodup
  fresh : ∀ n ∈ flat q.levels, n.id < q.nextId
  operators : ∀ k, q.operatorLevels.lookup k = pack (levelsWith (fun lv => lv.op = k) q.levels)
  queries : ∀ k, q.queryLevels.lookup k = pack (levelsWith (fun lv => lv.qid = k) q.levels)
  devices : ∀ dev, q.byDevice.lookup dev = pack (deviceBuckets dev q.levels)
  size : q.size = (flat q.levels).length

theorem inv_init : Inv ({} : Queue O Task) where
  sorted := List.Pairwise.nil
  rungs := by simp
  distinct := List.Pairwise.nil
  fresh := by simp [flat]
  operators := fun _ => rfl
  queries := fun _ => rfl
  devices := fun _ => rfl
  size := rfl

/-- Only the spine and what the maps hold matter. -/
theorem Inv.of_same {q q' : Queue O Task} (h : Inv q) (hlevels : q'.levels = q.levels)
    (hoperators : ∀ k, q'.operatorLevels.lookup k = q.operatorLevels.lookup k)
    (hqueries : ∀ k, q'.queryLevels.lookup k = q.queryLevels.lookup k)
    (hdevices : ∀ dev, q'.byDevice.lookup dev = q.byDevice.lookup dev)
    (hsize : q'.size = q.size) (hnext : q.nextId ≤ q'.nextId) : Inv q' where
  sorted := hlevels ▸ h.sorted
  rungs := hlevels ▸ h.rungs
  distinct := hlevels ▸ h.distinct
  fresh := fun n hn => (h.fresh n (hlevels ▸ hn)).trans_le hnext
  operators := fun k => by rw [hoperators, h.operators, hlevels]
  queries := fun k => by rw [hqueries, h.queries, hlevels]
  devices := fun dev => by rw [hdevices, h.devices, hlevels]
  size := by rw [hsize, h.size, hlevels]

/-! ## The spine cut at a priority -/

section Cut

variable {l₁ l₂ : List (Rung O Task)} {e : Rung O Task} {p : ℤ}

omit [DecidableEq O] in
@[simp] theorem flat_append (l l' : List (Rung O Task)) : flat (l ++ l') = flat l ++ flat l' :=
  List.flatMap_append

omit [DecidableEq O] in
@[simp] theorem flat_cons (e : Rung O Task) (l : List (Rung O Task)) :
    flat (e :: l) = e.2.tasks ++ flat l := rfl

omit [DecidableEq O] in
theorem levelsWith_mid (sel : Level O Task → Bool) (l₁ l₂ : List (Rung O Task))
    (e : Rung O Task) : levelsWith sel (l₁ ++ e :: l₂) =
      levelsWith sel l₁ ++ ((if sel e.2 then [e.1] else []) ++ levelsWith sel l₂) := by
  unfold levelsWith
  rw [List.filter_append, List.filter_cons, List.map_append]
  split_ifs <;> rfl

omit [DecidableEq O] in
theorem levelsWith_append (sel : Level O Task → Bool) (l₁ l₂ : List (Rung O Task)) :
    levelsWith sel (l₁ ++ l₂) = levelsWith sel l₁ ++ levelsWith sel l₂ := by
  simp [levelsWith]

omit [DecidableEq O] in
theorem around_levelsWith (sel : Level O Task → Bool) (h : Around Prod.fst p l₁ l₂) :
    Around id p (levelsWith sel l₁) (levelsWith sel l₂) := by
  constructor
  · intro k hk
    obtain ⟨e, he, rfl⟩ := List.mem_map.mp hk
    exact h.before e (List.mem_of_mem_filter he)
  · intro k hk
    obtain ⟨e, he, rfl⟩ := List.mem_map.mp hk
    exact h.after e (List.mem_of_mem_filter he)

omit [DecidableEq O] in
@[simp] theorem idsOn_append (dev : ℤ) (l l' : List (Node O Task)) :
    idsOn dev (l ++ l') = idsOn dev l ++ idsOn dev l' := by
  simp [idsOn]

omit [DecidableEq O] in
theorem idsOn_cons (dev : ℤ) (n : Node O Task) (l : List (Node O Task)) :
    idsOn dev (n :: l) = if n.keys.deviceId = dev then n.id :: idsOn dev l else idsOn dev l := by
  unfold idsOn
  rw [List.filter_cons]
  simp only [decide_eq_true_eq]
  split_ifs <;> rfl

omit [DecidableEq O] in
theorem deviceBuckets_mid (dev : ℤ) (l₁ l₂ : List (Rung O Task)) (e : Rung O Task) :
    deviceBuckets dev (l₁ ++ e :: l₂) =
      deviceBuckets dev l₁ ++ (bucketOf dev e ++ deviceBuckets dev l₂) := by
  simp [deviceBuckets]

omit [DecidableEq O] in
theorem deviceBuckets_append (dev : ℤ) (l₁ l₂ : List (Rung O Task)) :
    deviceBuckets dev (l₁ ++ l₂) = deviceBuckets dev l₁ ++ deviceBuckets dev l₂ :=
  List.flatMap_append

omit [DecidableEq O] in
theorem fst_of_mem_bucketOf {dev : ℤ} {b : ℤ × List ℕ} (h : b ∈ bucketOf dev e) :
    b.1 = e.1 ∧ b.2 ≠ [] := by
  unfold bucketOf keepBucket at h
  split_ifs at h with hids
  · exact absurd h List.not_mem_nil
  · rw [List.mem_singleton.mp h]
    exact ⟨rfl, hids⟩

omit [DecidableEq O] in
theorem around_deviceBuckets (dev : ℤ) (h : Around Prod.fst p l₁ l₂) :
    Around Prod.fst p (deviceBuckets dev l₁) (deviceBuckets dev l₂) :=
  h.flatMap fun _ _ hb => (fst_of_mem_bucketOf hb).1

omit [DecidableEq O] in
/-- The buckets of a device hold its tasks. -/
theorem flatMap_deviceBuckets (dev : ℤ) (levels : List (Rung O Task)) :
    (deviceBuckets dev levels).flatMap Prod.snd =
      idsOn dev (flat levels) := by
  induction levels with
  | nil => rfl
  | cons e levels ih =>
    have hbucket : (bucketOf dev e).flatMap Prod.snd = idsOn dev e.2.tasks := by
      unfold bucketOf keepBucket
      split_ifs with hids
      · rw [hids]
        rfl
      · simp
    rw [flat_cons, idsOn_append, ← ih, ← hbucket]
    simp [deviceBuckets]

end Cut

/-! ## The maps -/

section Maps

variable {κ : Type} [DecidableEq κ] {map : Table κ (List ℤ)} {key : κ} {prios : List ℤ} {p : ℤ}

theorem lookup_unsetLevel (h : map.lookup key = pack prios) (k : κ) :
    (unsetLevel map key p).lookup k =
      if k = key then pack (dropKey id p prios) else map.lookup k := by
  unfold unsetLevel
  rcases hlookup : map.lookup key with _ | prios'
  · rw [hlookup, eq_comm, pack_eq_none] at h
    subst h
    split_ifs with hk
    · rw [hk, hlookup]
      rfl
    · rfl
  · rw [hlookup, eq_comm, pack_eq_some] at h
    obtain ⟨rfl, -⟩ := h
    dsimp only
    by_cases hdrop : dropKey id p prios' = []
    · rw [if_pos hdrop, Table.lookup_erase_eq, hdrop]
      rfl
    · rw [if_neg hdrop, Table.lookup_insert_eq, pack_eq_some.mpr ⟨rfl, hdrop⟩]

theorem lookup_levelInsert (h : map.lookup key = pack prios) (k : κ) :
    (levelInsert (levelEntry map key) key p).lookup k =
      if k = key then some (emplace id p prios) else map.lookup k := by
  have hentry : (levelEntry map key).lookup key = some prios := by
    rw [levelEntry, Table.lookup_insert_eq, if_pos rfl, h, getD_pack]
  rw [levelInsert, Table.lookup_insert_eq, hentry, levelEntry, Table.lookup_insert_eq]
  split_ifs <;> rfl

/-- What a failed push did to the map of a new level: nothing, an entry, or an entry and the
    priority. -/
inductive Touched (map : Table κ (List ℤ)) (key : κ) (p : ℤ) : Table κ (List ℤ) → Prop
  | same : Touched map key p map
  | entry : Touched map key p (levelEntry map key)
  | insert : Touched map key p (levelInsert (levelEntry map key) key p)

/-- **The rollback undoes it.** -/
theorem Touched.unset {map' : Table κ (List ℤ)} {A₁ A₂ : List ℤ} (h : Touched map key p map')
    (hmap : map.lookup key = pack (A₁ ++ A₂)) (haround : Around id p A₁ A₂) (k : κ) :
    (unsetLevel map' key p).lookup k = map.lookup k := by
  have hback : ∀ k, (if k = key then pack (A₁ ++ A₂) else map.lookup k) = map.lookup k := by
    intro k
    split_ifs with hk
    · rw [hk, hmap]
    · rfl
  have hsame := lookup_unsetLevel (p := p) hmap k
  rw [haround.dropKey_gap, hback] at hsame
  cases h with
  | same => exact hsame
  | entry =>
    have hentry : (levelEntry map key).lookup key = some (A₁ ++ A₂) := by
      rw [levelEntry, Table.lookup_insert_eq, if_pos rfl, hmap, getD_pack]
    unfold unsetLevel
    rw [hentry]
    dsimp only
    rw [haround.dropKey_gap]
    split_ifs with hnil
    · rw [Table.lookup_erase_eq, levelEntry, Table.lookup_insert_eq, ← hback k, hnil]
      split_ifs <;> rfl
    · rw [Table.lookup_insert_eq, levelEntry, Table.lookup_insert_eq, ← hback k,
        pack_eq_some.mpr ⟨rfl, hnil⟩]
      split_ifs <;> rfl
  | insert =>
    have hinsert := lookup_levelInsert (p := p) hmap
    rw [show emplace id p (A₁ ++ A₂) = A₁ ++ p :: A₂ from haround.emplace_gap] at hinsert
    have hpacked := (hinsert key).trans (if_pos rfl)
    rw [← pack_eq_some.mpr ⟨rfl, List.append_ne_nil_of_right_ne_nil A₁ (List.cons_ne_nil p A₂)⟩]
      at hpacked
    rw [lookup_unsetLevel hpacked, show dropKey id p (A₁ ++ p :: A₂) = A₁ ++ A₂ from
      haround.dropKey_mid, ← hback k, hinsert]
    split_ifs <;> rfl

end Maps

/-! ## The device index -/

section Devices

variable {map map' : Table ℤ (List (ℤ × List ℕ))} {dev p : ℤ} {id : ℕ}
  {B₁ B₂ : List (ℤ × List ℕ)} {ids : List ℕ}

theorem lookup_storeDevice (buckets : List (ℤ × List ℕ)) (d : ℤ) :
    (storeDevice map dev buckets).lookup d = if d = dev then pack buckets else map.lookup d := by
  unfold storeDevice
  by_cases hnil : buckets = []
  · rw [if_pos hnil, Table.lookup_erase_eq, hnil]
    rfl
  · rw [if_neg hnil, Table.lookup_insert_eq, pack_eq_some.mpr ⟨rfl, hnil⟩]

theorem eraseFromDevice_mid (haround : Around Prod.fst p B₁ B₂)
    (hmap : map.lookup dev = some (B₁ ++ (p, ids) :: B₂)) (hid : id ∈ ids) :
    ∃ map', eraseFromDevice map dev p id = some map' ∧ ∀ d, map'.lookup d =
      if d = dev then pack (B₁ ++ (keepBucket p (ids.erase id) ++ B₂)) else map.lookup d := by
  have hseek : seek Prod.fst p (B₁ ++ (p, ids) :: B₂) = some (p, ids) :=
    Around.seek_mid (x := (p, ids)) haround
  refine ⟨_, ?_, fun d => (lookup_storeDevice (B₁ ++ (keepBucket p (ids.erase id) ++ B₂)) d)⟩
  unfold eraseFromDevice
  rw [hmap]
  simp only [Option.bind_eq_bind, Option.bind_some, hseek, if_pos hid, Option.pure_def]
  congr 2
  unfold keepBucket
  split_ifs with hnil
  · exact Around.dropKey_mid (x := (p, ids)) haround
  · exact Around.change_mid (x := (p, ids)) haround

/-- What a failed push did to the device index. -/
inductive TouchedDevice (map : Table ℤ (List (ℤ × List ℕ))) (dev p : ℤ) :
    Table ℤ (List (ℤ × List ℕ)) → Prop
  | same : TouchedDevice map dev p map
  | entry : TouchedDevice map dev p (deviceEntry map dev)
  | bucket : TouchedDevice map dev p (deviceBucket (deviceEntry map dev) dev p)

variable {buckets : List (ℤ × List ℕ)}

theorem lookup_deviceEntry (h : map.lookup dev = pack buckets)
    (d : ℤ) : (deviceEntry map dev).lookup d =
      if d = dev then some buckets else map.lookup d := by
  rw [deviceEntry, Table.lookup_insert_eq, h, getD_pack]

theorem lookup_deviceBucket (h : map.lookup dev = pack buckets)
    (d : ℤ) : (deviceBucket (deviceEntry map dev) dev p).lookup d =
      if d = dev then some (emplace Prod.fst (p, []) buckets) else map.lookup d := by
  have hentry := (lookup_deviceEntry h dev).trans (if_pos rfl)
  rw [deviceBucket, Table.lookup_insert_eq, hentry, lookup_deviceEntry h]
  split_ifs <;> rfl

/-- **The rollback undoes it.** No bucket of the index is empty. -/
theorem TouchedDevice.prune (h : TouchedDevice map dev p map')
    (hmap : map.lookup dev = pack buckets) (hsorted : SortedBy Prod.fst buckets)
    (hbuckets : ∀ b ∈ buckets, b.2 ≠ []) (d : ℤ) :
    (pruneEmptyDevice map' dev p).lookup d = map.lookup d := by
  have hback : (if d = dev then pack buckets else map.lookup d) = map.lookup d := by
    split_ifs with hd
    · rw [hd, hmap]
    · rfl
  -- the buckets of the device are left as they are
  have hstored : ∀ map'', (∀ d, d ≠ dev → map''.lookup d = map.lookup d) →
      (storeDevice map'' dev buckets).lookup d = map.lookup d := by
    intro map'' hother
    rw [lookup_storeDevice, ← hback]
    split_ifs with hd
    · rfl
    · exact hother d hd
  have hkept : ∀ map'', map''.lookup dev = some buckets →
      (∀ d, d ≠ dev → map''.lookup d = map.lookup d) →
      (pruneEmptyDevice map'' dev p).lookup d = map.lookup d := by
    intro map'' hdev hother
    unfold pruneEmptyDevice
    rw [hdev]
    dsimp only
    rcases hseek : seek Prod.fst p buckets with _ | b
    · exact hstored map'' hother
    · dsimp only
      rw [if_neg (hbuckets b (List.mem_of_find?_eq_some hseek))]
      exact hstored map'' hother
  cases h with
  | same =>
    rcases hlookup : map.lookup dev with _ | buckets'
    · unfold pruneEmptyDevice
      rw [hlookup]
    · rw [hmap, pack_eq_some] at hlookup
      exact hkept map (hmap.trans (pack_eq_some.mpr ⟨rfl, hlookup.2⟩)) fun _ _ => rfl
  | entry =>
    have hentry := lookup_deviceEntry hmap
    exact hkept _ ((hentry dev).trans (if_pos rfl)) fun d hd => (hentry d).trans (if_neg hd)
  | bucket =>
    have hbucket := lookup_deviceBucket (p := p) hmap
    have hother := fun d hd => (hbucket d).trans (if_neg hd)
    obtain ⟨B₁, B₂, haround, hcut⟩ := hsorted.cut p
    rcases hcut with rfl | ⟨b, rfl, rfl⟩
    · have hempl : emplace Prod.fst (p, []) (B₁ ++ B₂) = B₁ ++ (p, []) :: B₂ :=
        Around.emplace_gap (x := (p, [])) haround
      have hseek : seek Prod.fst p (B₁ ++ (p, []) :: B₂) = some (p, []) :=
        Around.seek_mid (x := (p, [])) haround
      have hdrop : dropKey Prod.fst p (B₁ ++ (p, []) :: B₂) = B₁ ++ B₂ :=
        Around.dropKey_mid (x := (p, [])) haround
      unfold pruneEmptyDevice
      rw [hbucket, if_pos rfl, hempl]
      dsimp only
      rw [hseek]
      dsimp only
      rw [if_pos rfl, hdrop]
      exact hstored _ hother
    · have hempl : emplace Prod.fst (b.1, []) (B₁ ++ b :: B₂) = B₁ ++ b :: B₂ :=
        Around.emplace_mid (x := (b.1, [])) haround rfl
      exact hkept _ ((hbucket dev).trans ((if_pos rfl).trans (congrArg some hempl))) hother

end Devices

/-! ## The indexes while the spine changes -/

section Spine

variable {κ : Type} [DecidableEq κ] {f : Level O Task → κ} {l₁ l₂ : List (Rung O Task)}
  {e : Rung O Task} {map : Table κ (List ℤ)} {devices : Table ℤ (List (ℤ × List ℕ))}

omit [DecidableEq O] in
/-- A new level. -/
theorem levelInsert_levels (haround : Around Prod.fst e.1 l₁ l₂)
    (hmap : ∀ k, map.lookup k = pack (levelsWith (fun lv => f lv = k) (l₁ ++ l₂))) (k : κ) :
    (levelInsert (levelEntry map (f e.2)) (f e.2) e.1).lookup k =
      pack (levelsWith (fun lv => f lv = k) (l₁ ++ e :: l₂)) := by
  have hempl := (around_levelsWith (fun lv => f lv = f e.2) haround).emplace_gap (x := e.1)
  rw [lookup_levelInsert (hmap _), levelsWith_append, levelsWith_mid]
  by_cases hk : k = f e.2
  · subst hk
    rw [if_pos rfl, if_pos (decide_eq_true rfl), hempl]
    exact (pack_eq_some.mpr ⟨rfl, by simp⟩).symm
  · rw [if_neg hk, if_neg (by simpa using fun h => hk h.symm), hmap k, levelsWith_append,
      List.nil_append]

omit [DecidableEq O] in
/-- A level that is removed. -/
theorem unsetLevel_levels (haround : Around Prod.fst e.1 l₁ l₂)
    (hmap : ∀ k, map.lookup k = pack (levelsWith (fun lv => f lv = k) (l₁ ++ e :: l₂))) (k : κ) :
    (unsetLevel map (f e.2) e.1).lookup k =
      pack (levelsWith (fun lv => f lv = k) (l₁ ++ l₂)) := by
  have hdrop := (around_levelsWith (fun lv => f lv = f e.2) haround).dropKey_mid (x := e.1)
  rw [lookup_unsetLevel (hmap _), levelsWith_append _ l₁ l₂]
  split_ifs with hk
  · subst hk
    rw [levelsWith_mid, if_pos (decide_eq_true rfl), List.singleton_append]
    exact congrArg pack hdrop
  · rw [hmap k, levelsWith_mid, if_neg (by simpa using fun h => hk h.symm), List.nil_append]

omit [DecidableEq O] in
/-- A level whose tasks changed. -/
theorem levelsWith_retask (f : Level O Task → κ) (p : ℤ) (lv : Level O Task)
    (hf : ∀ ts, f { lv with tasks := ts } = f lv) (ts : List (Node O Task)) (k : κ) :
    levelsWith (fun lv => f lv = k) (l₁ ++ (p, { lv with tasks := ts }) :: l₂) =
      levelsWith (fun lv => f lv = k) (l₁ ++ (p, lv) :: l₂) := by
  rw [levelsWith_mid, levelsWith_mid, hf]

variable {p : ℤ} {lv : Level O Task} {n : Node O Task} {ts t₁ t₂ : List (Node O Task)}

omit [DecidableEq O] in
/-- A node that joins the device index. -/
theorem devicePush_levels (lv : Level O Task) (haround : Around Prod.fst p l₁ l₂)
    (hdevices : ∀ d, devices.lookup d =
      pack (deviceBuckets d (l₁ ++ (p, { lv with tasks := ts }) :: l₂))) (d : ℤ) :
    (devicePush (deviceBucket (deviceEntry devices n.keys.deviceId) n.keys.deviceId p)
        n.keys.deviceId p n.id).lookup d =
      pack (deviceBuckets d (l₁ ++ (p, { lv with tasks := ts ++ [n] }) :: l₂)) := by
  have hbucket := lookup_deviceBucket (p := p) (hdevices n.keys.deviceId)
  have haround' := around_deviceBuckets n.keys.deviceId haround
  rw [devicePush, Table.lookup_insert_eq, (hbucket _).trans (if_pos rfl), hbucket]
  simp only [Option.getD_some, deviceBuckets_mid, bucketOf, idsOn_append, idsOn_cons] at *
  by_cases hd : d = n.keys.deviceId
  · subst hd
    rw [if_pos rfl, if_pos rfl]
    refine Eq.trans (congrArg some ?_) (pack_eq_some.mpr ⟨rfl, by simp [keepBucket]⟩).symm
    by_cases hids : idsOn n.keys.deviceId ts = []
    · rw [hids, keepBucket, if_pos rfl, List.nil_append, keepBucket, if_neg (by simp)]
      have hempl := haround'.emplace_gap (x := (p, []))
      have hchange := Around.change_mid (x := (p, [])) (f := fun b => (b.1, b.2 ++ [n.id])) haround'
      dsimp only at hempl hchange
      rw [hempl, hchange]
      simp [idsOn]
    · rw [keepBucket, if_neg hids, keepBucket, if_neg (by simp), List.singleton_append]
      have hempl := haround'.emplace_mid (x := (p, []))
        (y := (p, idsOn n.keys.deviceId ts)) rfl
      have hchange := Around.change_mid (x := (p, idsOn n.keys.deviceId ts))
        (f := fun b => (b.1, b.2 ++ [n.id])) haround'
      dsimp only at hempl hchange
      rw [hempl, hchange]
      simp [idsOn]
  · rw [if_neg hd, if_neg hd, if_neg fun h => hd h.symm, hdevices d]
    simp [idsOn]

omit [DecidableEq O] in
/-- A node that leaves the device index. -/
theorem eraseFromDevice_levels (lv : Level O Task) (haround : Around Prod.fst p l₁ l₂)
    (hids : ((t₁ ++ n :: t₂).map Node.id).Nodup)
    (hdevices : ∀ d, devices.lookup d =
      pack (deviceBuckets d (l₁ ++ (p, { lv with tasks := t₁ ++ n :: t₂ }) :: l₂))) :
    ∃ devices', eraseFromDevice devices n.keys.deviceId p n.id = some devices' ∧
      ∀ d, devices'.lookup d =
        pack (deviceBuckets d (l₁ ++ (p, { lv with tasks := t₁ ++ t₂ }) :: l₂)) := by
  have hbucket : bucketOf n.keys.deviceId (p, { lv with tasks := t₁ ++ n :: t₂ }) =
      [(p, idsOn n.keys.deviceId t₁ ++ n.id :: idsOn n.keys.deviceId t₂)] := by
    simp [bucketOf, idsOn_cons, keepBucket]
  have hlookup := hdevices n.keys.deviceId
  rw [deviceBuckets_mid, hbucket, List.singleton_append,
    pack_eq_some.mpr ⟨rfl, List.append_ne_nil_of_right_ne_nil _ (List.cons_ne_nil _ _)⟩] at hlookup
  have hnotin : n.id ∉ idsOn n.keys.deviceId t₁ := by
    intro hmem
    obtain ⟨m, hm, hid⟩ := List.mem_map.mp hmem
    rw [List.map_append, List.map_cons] at hids
    exact (List.nodup_append.mp hids).2.2 m.id (List.mem_map_of_mem (List.mem_of_mem_filter hm))
      n.id List.mem_cons_self hid
  obtain ⟨devices', herase, hlookup'⟩ := eraseFromDevice_mid
    (around_deviceBuckets n.keys.deviceId haround) hlookup
    (List.mem_append_right _ List.mem_cons_self)
  refine ⟨devices', herase, fun d => ?_⟩
  rw [hlookup', List.erase_append_right _ hnotin, List.erase_cons_head]
  split_ifs with hd
  · rw [hd, deviceBuckets_mid, bucketOf, idsOn_append]
  · rw [hdevices d, deviceBuckets_mid, deviceBuckets_mid, bucketOf, bucketOf, idsOn_append,
      idsOn_append, idsOn_cons, if_neg fun h => hd h.symm]

end Spine

/-! ## Push -/

/-- The spine while a push runs: the level of the new task is there, possibly without tasks. -/
structure OpenAt (keys : IndexKeys O) (q : Queue O Task) (l₁ l₂ : List (Rung O Task))
    (lv : Level O Task) : Prop where
  around : Around Prod.fst keys.priority l₁ l₂
  levels : (openLevel keys q).levels = l₁ ++ (keys.priority, lv) :: l₂
  born : isNewLevel keys q = true → lv.qid = keys.queryId ∧ lv.op = keys.operatorType
  fresh : isNewLevel keys q = true → q.levels = l₁ ++ l₂ ∧ lv.tasks = []
  old : isNewLevel keys q = false → q.levels = l₁ ++ (keys.priority, lv) :: l₂

omit [DecidableEq O] in
theorem exists_openAt {q : Queue O Task} (h : SortedBy Prod.fst q.levels) (keys : IndexKeys O) :
    ∃ l₁ l₂ lv, OpenAt keys q l₁ l₂ lv := by
  obtain ⟨l₁, l₂, haround, hcut⟩ := h.cut keys.priority
  rcases hcut with hlevels | ⟨e, he, hlevels⟩
  · have hnew : isNewLevel keys q = true := by
      rw [isNewLevel, hlevels, haround.seek_gap]
      rfl
    refine ⟨l₁, l₂, ⟨keys.queryId, keys.operatorType, []⟩, haround, ?_, fun _ => ⟨rfl, rfl⟩,
      fun _ => ⟨hlevels, rfl⟩, fun hold => ?_⟩
    · rw [openLevel, if_pos hnew]
      dsimp only
      rw [hlevels]
      exact Around.emplace_gap (x := (keys.priority, _)) haround
    · rw [hnew] at hold
      cases hold
  · obtain ⟨prio, lv⟩ := e
    subst he
    have hold : isNewLevel keys q = false := by
      rw [isNewLevel, hlevels, Around.seek_mid (x := (keys.priority, lv)) haround]
      rfl
    have hnot : isNewLevel keys q ≠ true := by simp [hold]
    refine ⟨l₁, l₂, lv, haround, ?_, fun hnew => absurd hnew hnot, fun hnew => absurd hnew hnot,
      fun _ => hlevels⟩
    rw [openLevel, if_neg hnot]
    exact hlevels

/-- The same, of levels that hold what they should. -/
structure Opened (keys : IndexKeys O) (q : Queue O Task) (l₁ l₂ : List (Rung O Task))
    (lv : Level O Task) : Prop extends OpenAt keys q l₁ l₂ lv where
  sorted : SortedBy Prod.fst (l₁ ++ (keys.priority, lv) :: l₂)
  qid : lv.qid = keys.queryId
  op : lv.op = keys.operatorType
  keyed : ∀ n ∈ lv.tasks, n.keys.priority = keys.priority ∧ n.keys.queryId = lv.qid ∧
    n.keys.operatorType = lv.op
  others : ∀ e ∈ l₁ ++ l₂, RungOk e

theorem Inv.opened {q : Queue O Task} (h : Inv q) {keys : IndexKeys O}
    (hsame : ∀ n ∈ flat q.levels, n.keys.priority = keys.priority →
      n.keys.queryId = keys.queryId ∧ n.keys.operatorType = keys.operatorType) :
    ∃ l₁ l₂ lv, Opened keys q l₁ l₂ lv := by
  obtain ⟨l₁, l₂, lv, hopen⟩ := exists_openAt h.sorted keys
  cases hnew : isNewLevel keys q with
  | true =>
    obtain ⟨hlevels, htasks⟩ := hopen.fresh hnew
    obtain ⟨hqid, hop⟩ := hopen.born hnew
    refine ⟨l₁, l₂, lv, hopen, ?_, hqid, hop, by simp [htasks], hlevels ▸ h.rungs⟩
    exact Around.sortedBy_mid (x := (keys.priority, lv)) hopen.around (hlevels ▸ h.sorted)
  | false =>
    have hlevels := hopen.old hnew
    have hrung : RungOk (keys.priority, lv) := h.rungs _ (by simp [hlevels])
    obtain ⟨n, hn⟩ := List.exists_mem_of_ne_nil _ hrung.nonempty
    obtain ⟨hp, hqid, hop⟩ := hrung.keyed n hn
    obtain ⟨hqid', hop'⟩ := hsame n (by simp [hlevels, hn]) hp
    refine ⟨l₁, l₂, lv, hopen, hlevels ▸ h.sorted, hqid.symm.trans hqid', hop.symm.trans hop',
      hrung.keyed, ?_⟩
    intro e he
    refine h.rungs e ?_
    rw [hlevels]
    rcases List.mem_append.mp he with he | he
    · exact List.mem_append_left _ he
    · exact List.mem_append_right _ (List.mem_cons_of_mem _ he)

namespace Opened

variable {keys : IndexKeys O} {q : Queue O Task} {l₁ l₂ : List (Rung O Task)}
  {lv : Level O Task}

omit [DecidableEq O] in
theorem flat_eq (ho : Opened keys q l₁ l₂ lv) :
    flat (l₁ ++ (keys.priority, lv) :: l₂) = flat q.levels := by
  cases hnew : isNewLevel keys q with
  | true =>
    obtain ⟨hlevels, htasks⟩ := ho.fresh hnew
    rw [hlevels, flat_append, flat_cons, htasks, flat_append, List.nil_append]
  | false => rw [ho.old hnew]

omit [DecidableEq O] in
theorem deviceBuckets_eq (ho : Opened keys q l₁ l₂ lv) (dev : ℤ) :
    deviceBuckets dev (l₁ ++ (keys.priority, lv) :: l₂) = deviceBuckets dev q.levels := by
  cases hnew : isNewLevel keys q with
  | true =>
    obtain ⟨hlevels, htasks⟩ := ho.fresh hnew
    have hbucket : bucketOf dev (keys.priority, lv) = [] := by
      simp [bucketOf, idsOn, keepBucket, htasks]
    rw [hlevels, deviceBuckets_mid, hbucket, deviceBuckets_append, List.nil_append]
  | false => rw [ho.old hnew]

end Opened

/-- What the updates of a push make of the queue. -/
def pushQueue (keys : IndexKeys O) (task : Task) (q : Queue O Task) : Queue O Task :=
  { active := q.active
    levels := change Prod.fst keys.priority
      (fun e => (e.1, { e.2 with tasks := e.2.tasks ++ [⟨q.nextId, keys, task⟩] }))
      (openLevel keys q).levels
    queryLevels :=
      if isNewLevel keys q then
        levelInsert (levelEntry q.queryLevels keys.queryId) keys.queryId keys.priority
      else q.queryLevels
    operatorLevels :=
      if isNewLevel keys q then
        levelInsert (levelEntry q.operatorLevels keys.operatorType) keys.operatorType keys.priority
      else q.operatorLevels
    byDevice :=
      devicePush (deviceBucket (deviceEntry q.byDevice keys.deviceId) keys.deviceId keys.priority)
        keys.deviceId keys.priority q.nextId
    size := q.size + 1
    nextId := q.nextId + 1 }

theorem foldl_pushUpdates (keys : IndexKeys O) (task : Task) (q : Queue O Task) :
    (pushUpdates keys (isNewLevel keys q) task q.nextId).foldl (fun q u => u.2 q)
      (openLevel keys q) = pushQueue keys task q := by
  unfold pushUpdates openLevel pushQueue openLevel
  cases isNewLevel keys q <;> rfl

/-- **A push places its node behind the nodes of the same and smaller priorities**, and keeps the
    indexes in agreement. -/
theorem Inv.push {q : Queue O Task} (h : Inv q) {keys : IndexKeys O} (task : Task)
    (hsame : ∀ n ∈ flat q.levels, n.keys.priority = keys.priority →
      n.keys.queryId = keys.queryId ∧ n.keys.operatorType = keys.operatorType) :
    Inv (pushQueue keys task q) ∧ flat (pushQueue keys task q).levels =
      place (fun n => n.keys.priority) ⟨q.nextId, keys, task⟩ (flat q.levels) := by
  obtain ⟨l₁, l₂, lv, ho⟩ := h.opened hsame
  have hchange := Around.change_mid (x := (keys.priority, lv)) (f := fun e => (e.1,
    { e.2 with tasks := e.2.tasks ++ [⟨q.nextId, keys, task⟩] })) ho.around
  dsimp only at hchange
  have hlevels : (pushQueue keys task q).levels = l₁ ++ (keys.priority,
      { lv with tasks := lv.tasks ++ [⟨q.nextId, keys, task⟩] }) :: l₂ := by
    rw [← hchange, ← ho.levels]
    rfl
  have hflat : flat (pushQueue keys task q).levels =
      (flat l₁ ++ lv.tasks) ++ (⟨q.nextId, keys, task⟩ :: flat l₂) := by
    rw [hlevels]
    simp
  have hold : flat q.levels = (flat l₁ ++ lv.tasks) ++ flat l₂ := by
    rw [← ho.flat_eq]
    simp
  have hperm : (flat (pushQueue keys task q).levels).Perm
      (⟨q.nextId, keys, task⟩ :: flat q.levels) := by
    rw [hflat, hold]
    exact List.perm_middle
  refine ⟨⟨?_, ?_, ?_, ?_, ?_, ?_, ?_, ?_⟩, ?_⟩
  · rw [hlevels]
    exact Around.sortedBy_mid (x := (keys.priority, _)) ho.around ho.sorted.gap
  · rw [hlevels]
    intro e he
    rcases List.mem_append.mp he with he | he
    · exact ho.others e (List.mem_append_left _ he)
    rcases List.mem_cons.mp he with rfl | he
    · refine ⟨by simp, fun n hn => ?_⟩
      rcases List.mem_append.mp hn with hn | hn
      · exact ho.keyed n hn
      · rw [List.mem_singleton.mp hn]
        exact ⟨rfl, ho.qid.symm, ho.op.symm⟩
    · exact ho.others e (List.mem_append_right _ he)
  · refine ((hperm.map Node.id).nodup_iff).mpr ?_
    rw [List.map_cons, List.nodup_cons]
    refine ⟨fun hmem => ?_, h.distinct⟩
    obtain ⟨n, hn, hid⟩ := List.mem_map.mp hmem
    exact (h.fresh n hn).ne hid
  · intro n hn
    rcases List.mem_cons.mp (hperm.mem_iff.mp hn) with rfl | hn
    · exact Nat.lt_succ_self _
    · exact (h.fresh n hn).trans (Nat.lt_succ_self _)
  · intro k
    rw [hlevels, levelsWith_retask Level.op _ lv fun _ => rfl]
    cases hnew : isNewLevel keys q with
    | true =>
      have hinsert := levelInsert_levels (f := Level.op) (e := (keys.priority, lv)) ho.around
        (fun k => (ho.fresh hnew).1 ▸ h.operators k) k
      dsimp only at hinsert
      rw [← hinsert, ho.op]
      simp only [pushQueue, hnew, if_true]
    | false =>
      rw [← ho.old hnew, ← h.operators]
      simp [pushQueue, hnew]
  · intro k
    rw [hlevels, levelsWith_retask Level.qid _ lv fun _ => rfl]
    cases hnew : isNewLevel keys q with
    | true =>
      have hinsert := levelInsert_levels (f := Level.qid) (e := (keys.priority, lv)) ho.around
        (fun k => (ho.fresh hnew).1 ▸ h.queries k) k
      dsimp only at hinsert
      rw [← hinsert, ho.qid]
      simp only [pushQueue, hnew, if_true]
    | false =>
      rw [← ho.old hnew, ← h.queries]
      simp [pushQueue, hnew]
  · intro dev
    rw [hlevels]
    refine devicePush_levels (n := ⟨q.nextId, keys, task⟩) lv ho.around (fun d => ?_) dev
    rw [h.devices, ← ho.deviceBuckets_eq]
  · rw [hperm.length_eq, List.length_cons, ← h.size]
    rfl
  · rw [hflat, hold, place_between]
    · intro n hn
      rcases List.mem_append.mp hn with hn | hn
      · obtain ⟨e, he, hn⟩ := List.mem_flatMap.mp hn
        rw [((ho.others e (List.mem_append_left _ he)).keyed n hn).1]
        exact (ho.around.before e he).le
      · exact (ho.keyed n hn).1.le
    · intro n hn
      obtain ⟨e, he, hn⟩ := List.mem_flatMap.mp hn
      rw [((ho.others e (List.mem_append_right _ he)).keyed n hn).1]
      exact ho.around.after e he

/-! ## A push that throws -/

/-- Append a node to the level of its priority. -/
def appendNode (n : Node O Task) (levels : List (Rung O Task)) : List (Rung O Task) :=
  change Prod.fst n.keys.priority
    (fun e => (e.1, { e.2 with tasks := e.2.tasks ++ [n] })) levels

section OpenLevel

variable (keys : IndexKeys O) (q : Queue O Task)

omit [DecidableEq O] in
@[simp] theorem openLevel_operatorLevels :
    (openLevel keys q).operatorLevels = q.operatorLevels := by
  unfold openLevel
  split <;> rfl

omit [DecidableEq O] in
@[simp] theorem openLevel_queryLevels : (openLevel keys q).queryLevels = q.queryLevels := by
  unfold openLevel
  split <;> rfl

omit [DecidableEq O] in
@[simp] theorem openLevel_byDevice : (openLevel keys q).byDevice = q.byDevice := by
  unfold openLevel
  split <;> rfl

omit [DecidableEq O] in
@[simp] theorem openLevel_size : (openLevel keys q).size = q.size := by
  unfold openLevel
  split <;> rfl

omit [DecidableEq O] in
@[simp] theorem openLevel_nextId : (openLevel keys q).nextId = q.nextId := by
  unfold openLevel
  split <;> rfl

omit [DecidableEq O] in
@[simp] theorem openLevel_active : (openLevel keys q).active = q.active := by
  unfold openLevel
  split <;> rfl

end OpenLevel

/-- The queue when a push throws, with the node that was added. -/
structure Partway (keys : IndexKeys O) (q : Queue O Task) (added : Option (Node O Task))
    (q' : Queue O Task) : Prop where
  operators : Touched q.operatorLevels keys.operatorType keys.priority q'.operatorLevels
  queries : Touched q.queryLevels keys.queryId keys.priority q'.queryLevels
  untouched : isNewLevel keys q = false →
    q'.operatorLevels = q.operatorLevels ∧ q'.queryLevels = q.queryLevels
  devices : TouchedDevice q.byDevice keys.deviceId keys.priority q'.byDevice
  levels : q'.levels =
    added.elim (openLevel keys q).levels fun n => appendNode n (openLevel keys q).levels
  size : q'.size = q.size
  nextId : q.nextId ≤ q'.nextId
  active : q'.active = q.active

/-- Where a push can be when it throws: a case for each stage, with and without a new level. -/
theorem partway (keys : IndexKeys O) (q : Queue O Task) (task : Task) (fault : Option PushStage)
    {done : List (PushStage × (Queue O Task → Queue O Task))}
    (hdone : done = (pushUpdates keys (isNewLevel keys q) task q.nextId).takeWhile
      fun u => fault ≠ some u.1)
    (hlength : done.length ≠ (pushUpdates keys (isNewLevel keys q) task q.nextId).length) :
    Partway keys q (if done.any fun u => u.1 = .node then some ⟨q.nextId, keys, task⟩ else none)
      (done.foldl (fun q u => u.2 q) (openLevel keys q)) := by
  cases hnew : isNewLevel keys q <;> rcases fault with _ | (_ | _ | _ | _ | _ | _ | _ | _ | _ | _)
  all_goals
    simp only [pushUpdates, hnew, if_true, List.cons_append, List.nil_append, if_false,
      List.takeWhile_cons, List.takeWhile_nil, reduceCtorEq, Option.some.injEq, ne_eq,
      not_false_eq_true, decide_true, decide_false, not_true_eq_false, Bool.false_eq_true] at hdone
    subst hdone
    simp only [pushUpdates, hnew, if_true, List.cons_append, List.nil_append, if_false,
      List.length_cons, List.length_nil, ne_eq, not_true_eq_false, Bool.false_eq_true] at hlength
  all_goals
    simp only [List.any_cons, List.any_nil, List.foldl_cons, List.foldl_nil, reduceCtorEq,
      decide_false, decide_true, Bool.or_false, Bool.or_true, Bool.false_eq_true, if_false, if_true]
    refine ⟨?_, ?_, fun hold => ?_, ?_, rfl, ?_, ?_, ?_⟩
  all_goals simp only [openLevel_operatorLevels, openLevel_queryLevels, openLevel_byDevice,
    openLevel_size, openLevel_nextId, openLevel_active, le_refl, Nat.le_succ, and_self, hnew,
    reduceCtorEq] at *
  all_goals first | exact .same | exact .entry | exact .insert | exact .bucket

omit [DecidableEq O] in
theorem sortedBy_deviceBuckets {levels : List (Rung O Task)} (h : SortedBy Prod.fst levels)
    (dev : ℤ) : SortedBy Prod.fst (deviceBuckets dev levels) := by
  induction levels with
  | nil => exact List.Pairwise.nil
  | cons e levels ih =>
    obtain ⟨he, hlevels⟩ := List.pairwise_cons.mp h
    refine List.pairwise_append.mpr ⟨?_, ih hlevels, fun b hb b' hb' => ?_⟩
    · unfold bucketOf keepBucket
      split_ifs
      · exact List.Pairwise.nil
      · exact List.pairwise_singleton _ _
    · obtain ⟨e', he', hb'⟩ := List.mem_flatMap.mp hb'
      rw [(fst_of_mem_bucketOf hb).1, (fst_of_mem_bucketOf hb').1]
      exact he e' he'

omit [DecidableEq O] in
theorem ne_nil_of_mem_deviceBuckets {dev : ℤ} {levels : List (Rung O Task)} {b : ℤ × List ℕ}
    (h : b ∈ deviceBuckets dev levels) : b.2 ≠ [] := by
  obtain ⟨e, -, hb⟩ := List.mem_flatMap.mp h
  exact (fst_of_mem_bucketOf hb).2

omit [DecidableEq O] in
/-- Taking the last node of a level away again. -/
theorem dropLast_appendNode {keys : IndexKeys O} {q : Queue O Task}
    {l₁ l₂ : List (Rung O Task)} {lv : Level O Task} (ho : OpenAt keys q l₁ l₂ lv)
    {n : Node O Task} (hn : n.keys = keys) :
    change Prod.fst keys.priority (fun e => (e.1, { e.2 with tasks := e.2.tasks.dropLast }))
      (appendNode n (openLevel keys q).levels) = (openLevel keys q).levels := by
  have happend := Around.change_mid (x := (keys.priority, lv))
    (f := fun e => (e.1, { e.2 with tasks := e.2.tasks ++ [n] })) ho.around
  have hdrop := Around.change_mid (x := (keys.priority, { lv with tasks := lv.tasks ++ [n] }))
    (f := fun e => (e.1, { e.2 with tasks := e.2.tasks.dropLast })) ho.around
  dsimp only at happend hdrop
  rw [appendNode, hn, ho.levels, happend, hdrop, List.dropLast_concat]

/-- What the rollback of a push relies on: the spine is ordered, and every index holds what the
    spine says. The tasks of a level may be of different queries and operators. -/
structure Consistent (q : Queue O Task) : Prop where
  sorted : SortedBy Prod.fst q.levels
  operators : ∀ k, q.operatorLevels.lookup k = pack (levelsWith (fun lv => lv.op = k) q.levels)
  queries : ∀ k, q.queryLevels.lookup k = pack (levelsWith (fun lv => lv.qid = k) q.levels)
  devices : ∀ dev, q.byDevice.lookup dev = pack (deviceBuckets dev q.levels)

theorem Inv.consistent {q : Queue O Task} (h : Inv q) : Consistent q :=
  ⟨h.sorted, h.operators, h.queries, h.devices⟩

/-- The queue holds what it held: the spine, what each index finds under each key, the size and
    whether it is open. Addresses are not given out again. -/
structure Unchanged (q q' : Queue O Task) : Prop where
  active : q'.active = q.active
  levels : q'.levels = q.levels
  operators : ∀ k, q'.operatorLevels.lookup k = q.operatorLevels.lookup k
  queries : ∀ k, q'.queryLevels.lookup k = q.queryLevels.lookup k
  devices : ∀ dev, q'.byDevice.lookup dev = q.byDevice.lookup dev
  size : q'.size = q.size
  nextId : q.nextId ≤ q'.nextId

theorem Unchanged.refl (q : Queue O Task) : Unchanged q q :=
  ⟨rfl, rfl, fun _ => rfl, fun _ => rfl, fun _ => rfl, rfl, le_refl _⟩

theorem Inv.of_unchanged {q q' : Queue O Task} (h : Inv q) (hq : Unchanged q q') : Inv q' :=
  h.of_same hq.levels hq.operators hq.queries hq.devices hq.size hq.nextId

/-- **The rollback leaves the queue as it was before the push.** -/
theorem Consistent.threw {q q' : Queue O Task} (h : Consistent q) {keys : IndexKeys O}
    {added : Option (Node O Task)} (hp : Partway keys q added q')
    (hadded : ∀ n, added = some n → n.keys = keys) :
    Unchanged q (rollback keys (isNewLevel keys q) added.isSome q') := by
  obtain ⟨l₁, l₂, lv, ho⟩ := exists_openAt h.sorted keys
  have hdevices := hp.devices.prune (h.devices _) (sortedBy_deviceBuckets h.sorted _)
    fun _ => ne_nil_of_mem_deviceBuckets
  -- the node that was added is popped again
  have hopen : (if added.isSome then change Prod.fst keys.priority
      (fun e => (e.1, { e.2 with tasks := e.2.tasks.dropLast })) q'.levels else q'.levels) =
      (openLevel keys q).levels := by
    rw [hp.levels]
    cases added with
    | none => rfl
    | some n => exact dropLast_appendNode ho (hadded n rfl)
  cases hnew : isNewLevel keys q with
  | true =>
    obtain ⟨hlevels, -⟩ := ho.fresh hnew
    have hroll : rollback keys true added.isSome q' =
        { q' with
          operatorLevels := unsetLevel q'.operatorLevels keys.operatorType keys.priority
          queryLevels := unsetLevel q'.queryLevels keys.queryId keys.priority
          byDevice := pruneEmptyDevice q'.byDevice keys.deviceId keys.priority
          levels := q.levels } := by
      have hdrop := Around.dropKey_mid (x := (keys.priority, lv)) ho.around
      rw [← ho.levels, ← hlevels, ← hopen] at hdrop
      dsimp only at hdrop
      rw [← hdrop]
      unfold rollback
      cases added <;> rfl
    have hoperators := h.operators keys.operatorType
    have hqueries := h.queries keys.queryId
    rw [hlevels, levelsWith_append] at hoperators hqueries
    rw [hroll]
    refine ⟨hp.active, rfl, ?_, ?_, hdevices, hp.size, hp.nextId⟩
    · exact hp.operators.unset hoperators (around_levelsWith _ ho.around)
    · exact hp.queries.unset hqueries (around_levelsWith _ ho.around)
  | false =>
    have hroll : rollback keys false added.isSome q' =
        { q' with
          byDevice := pruneEmptyDevice q'.byDevice keys.deviceId keys.priority
          levels := q.levels } := by
      have hlevels := ho.levels.trans (ho.old hnew).symm
      rw [← hlevels, ← hopen]
      unfold rollback
      cases added <;> rfl
    obtain ⟨hoperators, hqueries⟩ := hp.untouched hnew
    rw [hroll]
    refine ⟨hp.active, rfl, fun k => ?_, fun k => ?_, hdevices, hp.size, hp.nextId⟩
    · exact congrArg _ hoperators
    · exact congrArg _ hqueries

end Sirius.Exec.MultiIndex
