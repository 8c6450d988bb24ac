import Sirius.Exec.MultiIndexInvariant

/-!
# Pops, drains and sizes of the queue

What each operation that looks into the queue finds, as a search of the list of the nodes, and
what it leaves of that list.

* `Inv.extract`: `extract_node` removes the node, and its level with the last node.
* `endNode_eq`, `findIf_eq`: the node that a pop finds.
* `Inv.visited`: `mutable_pop_if` changes tasks and no index.
* `Inv.drainQuery`: `drain(query_index)` removes the nodes of the query.
* `sizeOf_eq`, `size_eq_dedup`: sizes and bucket counts.
-/

namespace Sirius.Exec.MultiIndex

open Sirius.Common

variable {O Task : Type} [DecidableEq O] {q : Queue O Task}

/-! ## Taking a node out -/

theorem Inv.deref_eq (h : Inv q) {n : Node O Task} (hn : n ∈ flat q.levels) :
    q.deref n.id = some n := by
  obtain ⟨l₁, l₂, hflat⟩ := List.append_of_mem hn
  have hnodup := h.distinct
  rw [hflat, List.map_append, List.map_cons] at hnodup
  unfold Queue.deref
  rw [hflat, List.find?_append, List.find?_eq_none.mpr]
  · simp
  · intro m hm
    simpa using (List.nodup_append.mp hnodup).2.2 m.id (List.mem_map_of_mem hm) n.id
      List.mem_cons_self

variable {l₁ l₂ : List (Rung O Task)}

/-- `remove_level` of a level whose nodes have left the device index. -/
theorem Inv.remove (h : Inv q) {p : ℤ} {lv lv' : Level O Task}
    (hlevels : q.levels = l₁ ++ (p, lv) :: l₂) (haround : Around Prod.fst p l₁ l₂)
    {q₁ : Queue O Task} (hq₁ : q₁.levels = l₁ ++ (p, lv') :: l₂)
    (hoperators : q₁.operatorLevels = q.operatorLevels)
    (hqueries : q₁.queryLevels = q.queryLevels)
    (hdevices : ∀ d, q₁.byDevice.lookup d = pack (deviceBuckets d (l₁ ++ l₂)))
    (hsize : q₁.size = (flat (l₁ ++ l₂)).length) (hnext : q₁.nextId = q.nextId) :
    Inv (removeLevel p lv q₁) ∧ (removeLevel p lv q₁).levels = l₁ ++ l₂ := by
  have hdrop : (removeLevel p lv q₁).levels = l₁ ++ l₂ := by
    have hmid := Around.dropKey_mid (x := (p, lv')) haround
    rw [← hq₁] at hmid
    exact hmid
  have hsub : (l₁ ++ l₂).Sublist q.levels := by
    rw [hlevels]
    exact List.Sublist.append_left (List.sublist_cons_self _ _) _
  have hflat : (flat (l₁ ++ l₂)).Sublist (flat q.levels) :=
    hsub.flatMap _
  refine ⟨⟨?_, ?_, ?_, ?_, ?_, ?_, ?_, ?_⟩, hdrop⟩ <;> rw [hdrop]
  · exact h.sorted.sublist hsub
  · exact fun e he => h.rungs e (hsub.subset he)
  · exact h.distinct.sublist (hflat.map _)
  · intro n hn
    show n.id < q₁.nextId
    rw [hnext]
    exact h.fresh n (hflat.subset hn)
  · refine unsetLevel_levels (f := Level.op) (e := (p, lv)) haround fun k => ?_
    rw [hoperators, h.operators, hlevels]
  · refine unsetLevel_levels (f := Level.qid) (e := (p, lv)) haround fun k => ?_
    rw [hqueries, h.queries, hlevels]
  · exact hdevices
  · exact hsize

omit [DecidableEq O] in
/-- A level without tasks has no device buckets. -/
theorem deviceBuckets_of_nil {p : ℤ} {lv : Level O Task} (d : ℤ) :
    deviceBuckets d (l₁ ++ (p, { lv with tasks := [] }) :: l₂) = deviceBuckets d (l₁ ++ l₂) := by
  have hbucket : bucketOf d ((p, { lv with tasks := [] }) : Rung O Task) = [] := by
    simp [bucketOf, idsOn, keepBucket]
  rw [deviceBuckets_mid, hbucket, List.nil_append, deviceBuckets_append]

/-- The level and the place of a queued node. -/
theorem Inv.locate (h : Inv q) {n : Node O Task} (hn : n ∈ flat q.levels) :
    ∃ l₁ l₂ lv t₁ t₂, Around Prod.fst n.keys.priority l₁ l₂ ∧ lv.tasks = t₁ ++ n :: t₂ ∧
      q.levels = l₁ ++ (n.keys.priority, lv) :: l₂ := by
  obtain ⟨⟨p, lv⟩, he, hn⟩ := List.mem_flatMap.mp hn
  obtain ⟨l₁, l₂, haround, hlevels⟩ := h.sorted.cut_mem he
  obtain ⟨t₁, t₂, htasks⟩ := List.append_of_mem hn
  obtain ⟨hp, -⟩ := (h.rungs _ he).keyed n hn
  dsimp only at hp haround htasks
  subst hp
  exact ⟨l₁, l₂, lv, t₁, t₂, haround, htasks, hlevels⟩

/-- **`extract_node` removes the node from the list** and keeps the indexes in agreement. -/
theorem Inv.extract (h : Inv q) {n : Node O Task} (hn : n ∈ flat q.levels) :
    ∃ q', extractNode n.id q = some (n.task, q') ∧ Inv q' ∧
      flat q'.levels = (flat q.levels).filter (fun m => m.id ≠ n.id) ∧ q'.active = q.active := by
  obtain ⟨l₁, l₂, lv, t₁, t₂, haround, htasks, hlevels⟩ := h.locate hn
  have hflat : flat q.levels = (flat l₁ ++ t₁) ++ n :: (t₂ ++ flat l₂) := by
    rw [hlevels]
    simp [htasks]
  have hfilter : (flat q.levels).filter (fun m => m.id ≠ n.id) =
      (flat l₁ ++ t₁) ++ (t₂ ++ flat l₂) := by
    have hdistinct := h.distinct
    rw [hflat] at hdistinct ⊢
    exact filter_ne_mid hdistinct
  have hids : ((t₁ ++ n :: t₂).map Node.id).Nodup := by
    refine h.distinct.sublist (List.Sublist.map _ ?_)
    rw [hlevels, flat_append, flat_cons, htasks]
    exact (List.sublist_append_left _ _).trans (List.sublist_append_right _ _)
  have hlevel : (t₁ ++ n :: t₂).filter (fun m => m.id ≠ n.id) = t₁ ++ t₂ := filter_ne_mid hids
  obtain ⟨devices, herase, hdevices⟩ := eraseFromDevice_levels lv haround hids fun d => by
    rw [h.devices, hlevels, ← htasks]
  have hchange := Around.change_mid (x := (n.keys.priority, lv))
    (f := fun e => (e.1, { e.2 with tasks := t₁ ++ t₂ })) haround
  have hseek := Around.seek_mid (x := (n.keys.priority, lv)) haround
  dsimp only at hchange hseek
  rw [← hlevels] at hchange hseek
  -- the queue before its level is looked at
  let q₁ : Queue O Task := { q with
    byDevice := devices
    levels := l₁ ++ (n.keys.priority, { lv with tasks := t₁ ++ t₂ }) :: l₂
    size := q.size - 1 }
  have hextract : extractNode n.id q =
      some (n.task, if t₁ ++ t₂ = [] then removeLevel n.keys.priority lv q₁ else q₁) := by
    unfold extractNode
    rw [h.deref_eq hn]
    simp only [Option.bind_eq_bind, Option.bind_some, hseek, herase, htasks, hlevel, hchange]
    rw [if_pos ⟨n, by simp, rfl⟩]
    rfl
  have hsize : q.size - 1 = (flat l₁ ++ t₁ ++ (t₂ ++ flat l₂)).length := by
    rw [h.size, hflat]
    simp only [List.length_append, List.length_cons]
    omega
  refine ⟨_, hextract, ?_⟩
  split_ifs with hnil
  · obtain ⟨rfl, rfl⟩ := List.append_eq_nil_iff.mp hnil
    have hremove := h.remove hlevels haround (rfl : q₁.levels = _) rfl rfl
      (fun d => (hdevices d).trans (congrArg pack (deviceBuckets_of_nil d)))
      (by rw [flat_append]; exact hsize.trans (by simp)) rfl
    refine ⟨hremove.1, ?_, rfl⟩
    rw [hremove.2, hfilter]
    simp
  · have hflat' : flat q₁.levels = (flat q.levels).filter (fun m => m.id ≠ n.id) := by
      rw [hfilter]
      simp [q₁]
    have hsub : (flat q₁.levels).Sublist (flat q.levels) := hflat' ▸ List.filter_sublist
    refine ⟨⟨?_, ?_, ?_, ?_, ?_, ?_, hdevices, ?_⟩, hflat', rfl⟩
    · exact Around.sortedBy_mid (x := (n.keys.priority, _)) haround (hlevels ▸ h.sorted).gap
    · intro e he
      rcases List.mem_append.mp he with he | he
      · exact h.rungs e (by rw [hlevels]; exact List.mem_append_left _ he)
      rcases List.mem_cons.mp he with rfl | he
      · refine ⟨hnil, fun m hm => ?_⟩
        refine (h.rungs (n.keys.priority, lv) (by simp [hlevels])).keyed m ?_
        rw [htasks]
        exact (List.Sublist.append_left (List.sublist_cons_self _ _) _).subset hm
      · exact h.rungs e (by
          rw [hlevels]
          exact List.mem_append_right _ (List.mem_cons_of_mem _ he))
    · exact h.distinct.sublist (hsub.map _)
    · exact fun m hm => h.fresh m (hsub.subset hm)
    · intro k
      rw [levelsWith_retask Level.op _ lv fun _ => rfl, ← hlevels]
      exact h.operators k
    · intro k
      rw [levelsWith_retask Level.qid _ lv fun _ => rfl, ← hlevels]
      exact h.queries k
    · rw [hflat', hfilter]
      exact hsize

/-! ## Finding a node -/

/-- The tasks that an index selects. -/
def Index.selects : Index O → IndexKeys O → Bool
  | .global, _ => true
  | .operator k, keys => keys.operatorType = k
  | .query k, keys => keys.queryId = k
  | .gpu dev, keys => keys.deviceId = dev

section EndOf

variable {α β : Type} {front : Bool}

theorem endOf_map (f : α → β) (l : List α) : endOf front (l.map f) = (endOf front l).map f := by
  cases front <;> simp [endOf]

theorem mem_of_endOf {l : List α} {a : α} (h : endOf front l = some a) : a ∈ l := by
  cases front with
  | true => exact List.mem_of_head? h
  | false => exact List.mem_of_getLast? h

theorem exists_endOf (front : Bool) {l : List α} (h : l ≠ []) : ∃ a, endOf front l = some a := by
  cases front with
  | true => exact ⟨_, List.head?_eq_some_head h⟩
  | false => exact ⟨_, List.getLast?_eq_some_getLast h⟩

theorem pack_bind_endOf (l : List α) : ((pack l).bind fun l => endOf front l) = endOf front l := by
  unfold pack
  split_ifs with hnil
  · rw [hnil]
    cases front <;> rfl
  · rfl

/-- The end of a list of lists that are not empty is the end of the list at that end. -/
theorem endOf_flatMap {f : α → List β} {l : List α} (h : ∀ a ∈ l, f a ≠ []) :
    endOf front (l.flatMap f) = (endOf front l).bind fun a => endOf front (f a) := by
  cases front with
  | true =>
    cases l with
    | nil => rfl
    | cons a l =>
      have ha := h a List.mem_cons_self
      simp only [endOf, if_true, List.flatMap_cons, List.head?_cons, Option.bind_some]
      exact List.head?_append_of_ne_nil _ ha
  | false =>
    rcases List.eq_nil_or_concat l with rfl | ⟨l', a, rfl⟩
    · rfl
    · have ha := h a (by simp)
      simp only [endOf, Bool.false_eq_true, if_false, List.concat_eq_append, List.flatMap_append,
        List.flatMap_singleton, List.getLast?_append, List.getLast?_singleton, Option.some_or,
        Option.bind_some]
      rw [List.getLast?_eq_some_getLast ha]
      rfl

end EndOf

omit [DecidableEq O] in
/-- The nodes with a key, for a key that is the same all over a level. -/
theorem filter_flat {κ : Type} [DecidableEq κ] {f : Level O Task → κ} {g : IndexKeys O → κ}
    {levels : List (Rung O Task)} (h : ∀ e ∈ levels, ∀ n ∈ e.2.tasks, g n.keys = f e.2) (k : κ) :
    (flat levels).filter (fun n => g n.keys = k) = flat (levels.filter fun e => f e.2 = k) := by
  induction levels with
  | nil => rfl
  | cons e levels ih =>
    have he := h e List.mem_cons_self
    rw [flat_cons, List.filter_append, ih fun e' he' => h e' (List.mem_cons_of_mem _ he'),
      List.filter_cons]
    by_cases hk : f e.2 = k
    · rw [if_pos (by simpa using hk), flat_cons, List.filter_eq_self.mpr]
      intro n hn
      simpa [he n hn] using hk
    · rw [if_neg (by simpa using hk), List.filter_eq_nil_iff.mpr, List.nil_append]
      intro n hn
      simpa [he n hn] using hk

theorem Inv.seek_eq (h : Inv q) {e : Rung O Task} (he : e ∈ q.levels) :
    seek Prod.fst e.1 q.levels = some e := by
  obtain ⟨l₁, l₂, haround, hlevels⟩ := h.sorted.cut_mem he
  rw [hlevels]
  exact haround.seek_mid

/-- What the set of a key is made of. -/
theorem Inv.filter_operator (h : Inv q) (k : O) :
    (flat q.levels).filter (fun n => n.keys.operatorType = k) =
      flat (q.levels.filter fun e => e.2.op = k) :=
  filter_flat (f := Level.op) (g := IndexKeys.operatorType)
    (fun e he n hn => ((h.rungs e he).keyed n hn).2.2) k

theorem Inv.filter_query (h : Inv q) (k : ℕ) :
    (flat q.levels).filter (fun n => n.keys.queryId = k) =
      flat (q.levels.filter fun e => e.2.qid = k) :=
  filter_flat (f := Level.qid) (g := IndexKeys.queryId)
    (fun e he n hn => ((h.rungs e he).keyed n hn).2.1) k

theorem Inv.endOfLevels_eq (h : Inv q) {levels : List (Rung O Task)}
    (hsub : ∀ e ∈ levels, e ∈ q.levels) (front : Bool) :
    endOfLevels q (pack (levels.map Prod.fst)) front =
      some ((endOf front (flat levels)).map Node.id) := by
  unfold endOfLevels flat
  rw [pack_bind_endOf, endOf_map, endOf_flatMap fun e he => (h.rungs e (hsub e he)).nonempty]
  cases he : endOf front levels with
  | none => rfl
  | some e =>
    have hmem := hsub e (mem_of_endOf he)
    obtain ⟨n, hn⟩ := exists_endOf front (h.rungs e hmem).nonempty
    simp [levelEndNode, h.seek_eq hmem, hn]

/-- **A pop by an index finds the end of the tasks that the index selects.** -/
theorem Inv.endNode_eq (h : Inv q) (front : Bool) (idx : Index O) :
    endNode q front idx =
      some ((endOf front ((flat q.levels).filter fun n => idx.selects n.keys)).map Node.id) := by
  cases idx with
  | global =>
    simp only [endNode, Index.selects, List.filter_true]
    unfold flat
    rw [endOf_flatMap fun e he => (h.rungs e he).nonempty]
    cases he : endOf front q.levels with
    | none => rfl
    | some e =>
      obtain ⟨n, hn⟩ := exists_endOf front (h.rungs e (mem_of_endOf he)).nonempty
      simp [hn]
  | operator k =>
    simp only [endNode, Index.selects]
    rw [h.operators, h.filter_operator]
    exact h.endOfLevels_eq (fun e he => List.mem_of_mem_filter he) front
  | query k =>
    simp only [endNode, Index.selects]
    rw [h.queries, h.filter_query]
    exact h.endOfLevels_eq (fun e he => List.mem_of_mem_filter he) front
  | gpu dev =>
    simp only [endNode, Index.selects]
    have hids : ((endOf front ((flat q.levels).filter fun n => n.keys.deviceId = dev)).map Node.id) =
        (endOf front (deviceBuckets dev q.levels)).bind fun b => endOf front b.2 := by
      rw [← endOf_map, ← endOf_flatMap fun b hb => ne_nil_of_mem_deviceBuckets hb,
        flatMap_deviceBuckets]
      rfl
    rw [hids, h.devices, pack_bind_endOf]
    cases hb : endOf front (deviceBuckets dev q.levels) with
    | none => rfl
    | some b =>
      have hne := ne_nil_of_mem_deviceBuckets (mem_of_endOf hb)
      obtain ⟨id, hid⟩ := exists_endOf front hne
      simp [hid]

theorem Inv.scanLevels_eq (h : Inv q) (pred : Task → Bool) {levels : List (Rung O Task)}
    (hsub : ∀ e ∈ levels, e ∈ q.levels) : scanLevels q pred (levels.map Prod.fst) =
      some (((flat levels).find? fun n => pred n.task).map Node.id) := by
  induction levels with
  | nil => rfl
  | cons e levels ih =>
    have hrest := ih fun e' he' => hsub e' (List.mem_cons_of_mem _ he')
    rw [List.map_cons, scanLevels, h.seek_eq (hsub e List.mem_cons_self), hrest, flat_cons,
      List.find?_append]
    simp only [Option.bind_eq_bind, Option.bind_some, findInList]
    cases e.2.tasks.find? fun n => pred n.task <;> rfl

theorem Inv.scanBuckets_eq (h : Inv q) (pred : Task → Bool) {nodes : List (Node O Task)}
    (hsub : ∀ n ∈ nodes, n ∈ flat q.levels) : scanBuckets q pred (nodes.map Node.id) =
      some ((nodes.find? fun n => pred n.task).map Node.id) := by
  induction nodes with
  | nil => rfl
  | cons n nodes ih =>
    have hrest := ih fun n' hn' => hsub n' (List.mem_cons_of_mem _ hn')
    rw [List.map_cons, scanBuckets, h.deref_eq (hsub n List.mem_cons_self), hrest,
      List.find?_cons]
    simp only [Option.bind_eq_bind, Option.bind_some]
    cases pred n.task <;> rfl

/-- **`try_pop_if` finds the first task that the index selects and the predicate accepts.** -/
theorem Inv.findIf_eq (h : Inv q) (pred : Task → Bool) (idx : Index O) :
    findIf q pred idx =
      some ((((flat q.levels).filter fun n => idx.selects n.keys).find? fun n =>
        pred n.task).map Node.id) := by
  cases idx with
  | global =>
    simp only [findIf, Index.selects, List.filter_true]
    congr 1
    induction q.levels with
    | nil => rfl
    | cons e levels ih =>
      rw [List.findSome?_cons, flat_cons, List.find?_append, ih, findInList]
      cases e.2.tasks.find? fun n => pred n.task <;> rfl
  | operator k =>
    simp only [findIf, Index.selects]
    rw [h.operators, getD_pack, h.filter_operator]
    exact h.scanLevels_eq pred fun e he => List.mem_of_mem_filter he
  | query k =>
    simp only [findIf, Index.selects]
    rw [h.queries, getD_pack, h.filter_query]
    exact h.scanLevels_eq pred fun e he => List.mem_of_mem_filter he
  | gpu dev =>
    simp only [findIf, Index.selects]
    rw [h.devices, getD_pack, flatMap_deviceBuckets]
    exact h.scanBuckets_eq pred fun n hn => List.mem_of_mem_filter hn

/-- What a pop does with the node that it found. -/
theorem Inv.extractFound_eq (h : Inv q) (found : Option (Node O Task))
    (hfound : ∀ n, found = some n → n ∈ flat q.levels) :
    ∃ q', extractFound q (found.map Node.id) = some (found.map Node.task, q') ∧ Inv q' ∧
      q'.active = q.active ∧ flat q'.levels =
        found.elim (flat q.levels) fun n => (flat q.levels).filter fun m => m.id ≠ n.id := by
  cases found with
  | none => exact ⟨q, rfl, h, rfl, rfl⟩
  | some n =>
    obtain ⟨q', hextract, hinv, hflat, hactive⟩ := h.extract (hfound n rfl)
    refine ⟨q', ?_, hinv, hactive, hflat⟩
    rw [Option.map_some, extractFound, hextract]
    rfl

/-! ## Predicates that change tasks -/

/-- A node without its task. -/
def Node.tag (n : Node O Task) : ℕ × IndexKeys O := (n.id, n.keys)

/-- A level without its tasks. -/
def shape (e : Rung O Task) : ℤ × ℕ × O × List (ℕ × IndexKeys O) :=
  (e.1, e.2.qid, e.2.op, e.2.tasks.map Node.tag)

section Shape

variable {levels levels' : List (Rung O Task)}

omit [DecidableEq O] in
theorem levelsWith_of_shape {κ : Type} [DecidableEq κ] {f : Level O Task → κ}
    {g : ℤ × ℕ × O × List (ℕ × IndexKeys O) → κ} (hg : ∀ e, g (shape e) = f e.2)
    (h : levels'.map shape = levels.map shape) (k : κ) :
    levelsWith (fun lv => f lv = k) levels' = levelsWith (fun lv => f lv = k) levels := by
  have hshape : ∀ l : List (Rung O Task), levelsWith (fun lv => f lv = k) l =
      ((l.map shape).filter fun s => g s = k).map Prod.fst := by
    intro l
    rw [List.filter_map, List.map_map, levelsWith]
    simp only [Function.comp_def, hg]
    rfl
  rw [hshape, hshape, h]

omit [DecidableEq O] in
theorem deviceBuckets_of_shape (h : levels'.map shape = levels.map shape) (dev : ℤ) :
    deviceBuckets dev levels' = deviceBuckets dev levels := by
  have hshape : ∀ l : List (Rung O Task), deviceBuckets dev l = (l.map shape).flatMap fun s =>
      keepBucket s.1 ((s.2.2.2.filter fun t => t.2.deviceId = dev).map Prod.fst) := by
    intro l
    rw [List.flatMap_map, deviceBuckets]
    congr 1
    funext e
    simp only [bucketOf, idsOn, shape, List.filter_map, List.map_map]
    rfl
  rw [hshape, hshape, h]

omit [DecidableEq O] in
theorem tags_of_shape (h : levels'.map shape = levels.map shape) :
    (flat levels').map Node.tag = (flat levels).map Node.tag := by
  have hshape : ∀ l : List (Rung O Task),
      (flat l).map Node.tag = (l.map shape).flatMap fun s => s.2.2.2 := by
    intro l
    rw [List.flatMap_map, flat, List.map_flatMap]
    rfl
  rw [hshape, hshape, h]

/-- **Changing tasks in place changes no index.** -/
theorem Inv.visited (h : Inv q) (hshape : levels'.map shape = q.levels.map shape) :
    Inv { q with levels := levels' } := by
  have htags := tags_of_shape hshape
  have hids : (flat levels').map Node.id = (flat q.levels).map Node.id := by
    have := congrArg (List.map Prod.fst) htags
    rwa [List.map_map, List.map_map] at this
  have hkeys : levels'.map Prod.fst = q.levels.map Prod.fst := by
    have := congrArg (List.map Prod.fst) hshape
    rwa [List.map_map, List.map_map] at this
  constructor
  · have hsorted := List.pairwise_map.mpr h.sorted
    rw [← hkeys] at hsorted
    exact List.pairwise_map.mp hsorted
  · intro e he
    obtain ⟨e₀, he₀, hsame⟩ := List.mem_map.mp (hshape ▸ List.mem_map_of_mem he)
    obtain ⟨hp, hqid, hop, htasks⟩ : e₀.1 = e.1 ∧ e₀.2.qid = e.2.qid ∧ e₀.2.op = e.2.op ∧
        e₀.2.tasks.map Node.tag = e.2.tasks.map Node.tag := by
      simpa [shape] using hsame
    have hrung := h.rungs e₀ he₀
    constructor
    · intro hnil
      rw [hnil, List.map_nil, List.map_eq_nil_iff] at htasks
      exact hrung.nonempty htasks
    · intro n hn
      obtain ⟨n₀, hn₀, htag⟩ := List.mem_map.mp (htasks ▸ List.mem_map_of_mem hn)
      have hn₀keys : n₀.keys = n.keys := congrArg Prod.snd htag
      rw [← hn₀keys, ← hp, ← hqid, ← hop]
      exact hrung.keyed n₀ hn₀
  · rw [hids]
    exact h.distinct
  · intro n hn
    obtain ⟨n₀, hn₀, hid⟩ := List.mem_map.mp (hids ▸ List.mem_map_of_mem hn)
    rw [← hid]
    exact h.fresh n₀ hn₀
  · intro k
    rw [levelsWith_of_shape (f := Level.op) (g := fun s => s.2.2.1) (fun _ => rfl) hshape]
    exact h.operators k
  · intro k
    rw [levelsWith_of_shape (f := Level.qid) (g := fun s => s.2.1) (fun _ => rfl) hshape]
    exact h.queries k
  · intro dev
    rw [deviceBuckets_of_shape hshape]
    exact h.devices dev
  · have hlength := congrArg List.length htags
    rw [List.length_map, List.length_map] at hlength
    rw [hlength]
    exact h.size

end Shape

section Visit

variable (pred : Task → Bool × Task)

omit [DecidableEq O] in
theorem tags_visit (l : List (Node O Task)) :
    (visit pred l).1.map Node.tag = l.map Node.tag := by
  induction l with
  | nil => rfl
  | cons n l ih =>
    unfold visit
    dsimp only
    split_ifs
    · rfl
    · rw [List.map_cons, ih]
      rfl

omit [DecidableEq O] in
theorem shape_visitLevels {v : List (Node O Task) → List (Node O Task) × Option ℕ}
    (hv : ∀ l, (v l).1.map Node.tag = l.map Node.tag) (levels : List (Rung O Task)) :
    (visitLevels v levels).1.map shape = levels.map shape := by
  induction levels with
  | nil => rfl
  | cons e levels ih =>
    have he : shape (e.1, { e.2 with tasks := (v e.2.tasks).1 }) = shape e := by
      simp [shape, hv]
    unfold visitLevels
    dsimp only
    split
    · rw [List.map_cons, List.map_cons, he]
    · rw [List.map_cons, List.map_cons, he, ih]

omit [DecidableEq O] in
theorem visit_append (l l' : List (Node O Task)) :
    visit pred (l ++ l') = match (visit pred l).2 with
      | some id => ((visit pred l).1 ++ l', some id)
      | none => ((visit pred l).1 ++ (visit pred l').1, (visit pred l').2) := by
  induction l with
  | nil => rfl
  | cons n l ih =>
    rw [List.cons_append, visit, visit, ih]
    cases (pred n.task).1 with
    | true => rfl
    | false => cases (visit pred l).2 <;> rfl

omit [DecidableEq O] in
/-- Visiting the levels visits the list, in the direction `r` in which both are read. -/
theorem visitLevels_flat {r : List (Node O Task) → List (Node O Task)}
    {v : List (Node O Task) → List (Node O Task) × Option ℕ}
    (hv : ∀ l, r (v l).1 = (visit pred (r l)).1 ∧ (v l).2 = (visit pred (r l)).2)
    (levels : List (Rung O Task)) :
    ((visitLevels v levels).1.flatMap fun e => r e.2.tasks) =
        (visit pred (levels.flatMap fun e => r e.2.tasks)).1 ∧
      (visitLevels v levels).2 = (visit pred (levels.flatMap fun e => r e.2.tasks)).2 := by
  induction levels with
  | nil => exact ⟨rfl, rfl⟩
  | cons e levels ih =>
    obtain ⟨htasks, hfound⟩ := hv e.2.tasks
    rw [List.flatMap_cons, visit_append, visitLevels, ← hfound]
    dsimp only
    cases (v e.2.tasks).2 with
    | some id => exact ⟨by rw [List.flatMap_cons, ← htasks], rfl⟩
    | none => exact ⟨by rw [List.flatMap_cons, ← htasks, ih.1], ih.2⟩

end Visit

/-- A list read from the front or from the back. -/
def directed {α : Type} (front : Bool) (l : List α) : List α := if front then l else l.reverse

/-- **`mutable_pop_if` visits the list of the nodes in its direction**, then extracts. -/
theorem Inv.mutablePopIf_eq (h : Inv q) (pred : Task → Bool × Task) (front : Bool) :
    ∃ q₁, Inv q₁ ∧ q₁.active = q.active ∧
      directed front (flat q₁.levels) = (visit pred (directed front (flat q.levels))).1 ∧
      mutablePopIf pred front q =
        extractFound q₁ (visit pred (directed front (flat q.levels))).2 := by
  cases front with
  | true =>
    have hvisit := visitLevels_flat pred (r := id) (v := visit pred) (fun _ => ⟨rfl, rfl⟩) q.levels
    refine ⟨{ q with levels := (visitLevels (visit pred) q.levels).1 },
      h.visited (shape_visitLevels (tags_visit pred) _), rfl, hvisit.1, ?_⟩
    exact congrArg (extractFound _) hvisit.2
  | false =>
    have hreverse : ∀ levels : List (Rung O Task),
        (flat levels).reverse = levels.reverse.flatMap fun e => e.2.tasks.reverse := by
      intro levels
      rw [flat, List.reverse_flatMap]
      rfl
    have hvisit := visitLevels_flat pred (r := List.reverse) (v := backwards (visit pred))
      (fun l => ⟨List.reverse_reverse _, rfl⟩) q.levels.reverse
    rw [← hreverse] at hvisit
    have hshape : (visitLevels (backwards (visit pred)) q.levels.reverse).1.reverse.map shape =
        q.levels.map shape := by
      rw [List.map_reverse, shape_visitLevels, List.map_reverse, List.reverse_reverse]
      intro l
      rw [backwards, List.map_reverse, tags_visit, List.map_reverse, List.reverse_reverse]
    refine ⟨{ q with levels := (visitLevels (backwards (visit pred)) q.levels.reverse).1.reverse },
      h.visited hshape, rfl, ?_, ?_⟩
    · show (flat _).reverse = _
      rw [hreverse, List.reverse_reverse]
      exact hvisit.1
    · exact congrArg (extractFound _) hvisit.2

/-! ## Drain -/

theorem inv_drain (q : Queue O Task) : Inv (drain q) where
  sorted := List.Pairwise.nil
  rungs := by simp [drain]
  distinct := List.Pairwise.nil
  fresh := by simp [drain, flat]
  operators := fun _ => rfl
  queries := fun _ => rfl
  devices := fun _ => rfl
  size := rfl

omit [DecidableEq O] in
/-- The nodes of a level leave the device index one by one. -/
theorem forgetDevices_levels {p : ℤ} (lv : Level O Task)
    (haround : Around Prod.fst p l₁ l₂) {tasks : List (Node O Task)}
    (hids : (tasks.map Node.id).Nodup) {devices : Table ℤ (List (ℤ × List ℕ))}
    (hdevices : ∀ d, devices.lookup d =
      pack (deviceBuckets d (l₁ ++ (p, { lv with tasks := tasks }) :: l₂))) :
    ∃ devices', forgetDevices p tasks devices = some devices' ∧
      ∀ d, devices'.lookup d = pack (deviceBuckets d (l₁ ++ l₂)) := by
  induction tasks generalizing devices with
  | nil => exact ⟨devices, rfl, fun d => (hdevices d).trans (by rw [deviceBuckets_of_nil])⟩
  | cons n tasks ih =>
    obtain ⟨devices₁, herase, hdevices₁⟩ :=
      eraseFromDevice_levels lv haround
        (show (([] ++ n :: tasks).map Node.id).Nodup from hids) hdevices
    obtain ⟨devices₂, hforget, hdevices₂⟩ := ih (List.nodup_cons.mp hids).2 hdevices₁
    refine ⟨devices₂, ?_, hdevices₂⟩
    rw [forgetDevices, herase]
    exact hforget

/-- One pass of the loop removes the first level of the query. -/
theorem Inv.drainPass (h : Inv q) {key : ℕ} {prios : List ℤ}
    (hlookup : q.queryLevels.lookup key = some prios) (passes : ℕ) :
    ∃ q', drainLoop key (passes + 1) q = drainLoop key passes q' ∧ Inv q' ∧
      q'.active = q.active ∧ q'.levels.length + 1 = q.levels.length ∧
      (flat q'.levels).filter (fun n => n.keys.queryId ≠ key) =
        (flat q.levels).filter fun n => n.keys.queryId ≠ key := by
  have hprios := h.queries key
  rw [hlookup, eq_comm, pack_eq_some] at hprios
  obtain ⟨rfl, hne⟩ := hprios
  obtain ⟨prio, hhead⟩ : ∃ prio, (levelsWith (fun lv => lv.qid = key) q.levels).head? = some prio :=
    ⟨_, List.head?_eq_some_head hne⟩
  obtain ⟨⟨p, lv⟩, he, rfl⟩ := List.mem_map.mp (List.mem_of_head? hhead)
  obtain ⟨hmem, hqid⟩ := List.mem_filter.mp he
  simp only [decide_eq_true_eq] at hqid
  obtain ⟨l₁, l₂, haround, hlevels⟩ := h.sorted.cut_mem hmem
  have hids : (lv.tasks.map Node.id).Nodup := by
    refine h.distinct.sublist (List.Sublist.map _ ?_)
    rw [hlevels, flat_append, flat_cons]
    exact (List.sublist_append_left _ _).trans (List.sublist_append_right _ _)
  obtain ⟨devices, hforget, hdevices⟩ := forgetDevices_levels lv haround hids fun d => by
    rw [h.devices, hlevels]
  have hsize : q.size - lv.tasks.length = (flat (l₁ ++ l₂)).length := by
    rw [h.size, hlevels]
    simp only [flat_append, flat_cons, List.length_append]
    omega
  have hkept : ({ q with byDevice := devices, size := q.size - lv.tasks.length } :
      Queue O Task).levels = l₁ ++ (p, lv) :: l₂ := hlevels
  obtain ⟨hinv, hrest⟩ := h.remove hlevels haround hkept rfl rfl hdevices hsize rfl
  refine ⟨_, ?_, hinv, rfl, ?_, ?_⟩
  · rw [drainLoop, hlookup]
    simp only [hhead, Option.bind_eq_bind, Option.bind_some, h.seek_eq hmem, hforget]
  · rw [hrest, hlevels]
    simp only [List.length_append, List.length_cons]
    omega
  · have hnone : lv.tasks.filter (fun n => n.keys.queryId ≠ key) = [] := by
      rw [List.filter_eq_nil_iff]
      intro n hn
      simpa using ((h.rungs _ hmem).keyed n hn).2.1.trans hqid
    rw [hrest, hlevels, flat_append, flat_append, flat_cons, List.filter_append, List.filter_append,
      List.filter_append, hnone, List.nil_append]

theorem Inv.drainLoop_eq (h : Inv q) {key passes : ℕ} (hpasses : q.levels.length < passes) :
    ∃ q', drainLoop key passes q = some q' ∧ Inv q' ∧ q'.active = q.active ∧
      flat q'.levels = (flat q.levels).filter fun n => n.keys.queryId ≠ key := by
  induction passes generalizing q with
  | zero => omega
  | succ passes ih =>
    cases hlookup : q.queryLevels.lookup key with
    | none =>
      refine ⟨q, by rw [drainLoop, hlookup], h, rfl, (List.filter_eq_self.mpr fun n hn => ?_).symm⟩
      have hnone := h.queries key
      rw [hlookup, eq_comm, pack_eq_none, levelsWith, List.map_eq_nil_iff,
        List.filter_eq_nil_iff] at hnone
      obtain ⟨e, he, hn⟩ := List.mem_flatMap.mp hn
      have hqid := hnone e he
      simp only [decide_eq_true_eq] at hqid
      simpa [((h.rungs e he).keyed n hn).2.1] using hqid
    | some prios =>
      obtain ⟨q₁, hpass, hinv, hactive, hlength, hfilter⟩ := h.drainPass hlookup passes
      obtain ⟨q₂, hloop, hinv₂, hactive₂, hflat⟩ := ih hinv (by omega)
      exact ⟨q₂, hpass.trans hloop, hinv₂, hactive₂.trans hactive, hflat.trans hfilter⟩

/-- **`drain(query_index)` removes exactly the nodes of the query.** -/
theorem Inv.drainQuery_eq (h : Inv q) (key : ℕ) :
    ∃ q', drainQuery key q = some q' ∧ Inv q' ∧ q'.active = q.active ∧
      flat q'.levels = (flat q.levels).filter fun n => n.keys.queryId ≠ key :=
  h.drainLoop_eq (Nat.lt_succ_self _)

/-! ## Sizes -/

theorem Inv.sumLevels_eq (h : Inv q) {levels : List (Rung O Task)}
    (hsub : ∀ e ∈ levels, e ∈ q.levels) :
    sumLevels q (levels.map Prod.fst) = some (flat levels).length := by
  induction levels with
  | nil => rfl
  | cons e levels ih =>
    have hrest := ih fun e' he' => hsub e' (List.mem_cons_of_mem _ he')
    rw [List.map_cons, sumLevels, h.seek_eq (hsub e List.mem_cons_self), hrest, flat_cons,
      List.length_append]
    rfl

/-- **The size of an index is the number of the tasks that it selects.** -/
theorem Inv.sizeOf_eq (h : Inv q) (idx : Index O) :
    sizeOf q idx = some ((flat q.levels).filter fun n => idx.selects n.keys).length := by
  cases idx with
  | global =>
    simp only [sizeOf, Index.selects, List.filter_true]
    rw [h.size]
  | operator k =>
    simp only [sizeOf, Index.selects]
    rw [h.operators, getD_pack, h.filter_operator]
    exact h.sumLevels_eq fun e he => List.mem_of_mem_filter he
  | query k =>
    simp only [sizeOf, Index.selects]
    rw [h.queries, getD_pack, h.filter_query]
    exact h.sumLevels_eq fun e he => List.mem_of_mem_filter he
  | gpu dev =>
    simp only [sizeOf, Index.selects]
    have hlength := congrArg List.length (flatMap_deviceBuckets dev q.levels)
    rw [List.length_flatMap, idsOn, List.length_map] at hlength
    rw [h.devices, getD_pack, ← hlength]

/-- The entries of a map are counted by the keys that have one. -/
theorem size_eq_dedup {κ ν : Type} [DecidableEq κ] {map : Table κ ν} {keys : List κ}
    (h : ∀ k, map.lookup k ≠ none ↔ k ∈ keys) : map.size = keys.dedup.length := by
  have hkeys : map.keys.toFinset = keys.toFinset := by
    ext k
    rw [List.mem_toFinset, List.mem_toFinset, ← h, ← AList.mem_keys, ← AList.lookup_isSome,
      Option.isSome_iff_ne_none]
  have hcard := congrArg Finset.card hkeys
  rw [List.toFinset_card_of_nodup map.keys_nodup, List.card_toFinset] at hcard
  rw [← hcard, AList.keys, List.keys, List.length_map, Table.size]

theorem pack_levelsWith_ne_none {κ : Type} [DecidableEq κ] {f : Level O Task → κ}
    {g : IndexKeys O → κ} (h : Inv q) (hfg : ∀ e ∈ q.levels, ∀ n ∈ e.2.tasks, g n.keys = f e.2)
    (k : κ) : pack (levelsWith (fun lv => f lv = k) q.levels) ≠ none ↔
      k ∈ (flat q.levels).map fun n => g n.keys := by
  rw [ne_eq, pack_eq_none, levelsWith, List.map_eq_nil_iff, List.filter_eq_nil_iff]
  simp only [decide_eq_true_eq, not_forall, not_not, exists_prop, List.mem_map]
  constructor
  · rintro ⟨e, he, hk⟩
    obtain ⟨n, hn⟩ := List.exists_mem_of_ne_nil _ (h.rungs e he).nonempty
    exact ⟨n, List.mem_flatMap.mpr ⟨e, he, hn⟩, (hfg e he n hn).trans hk⟩
  · rintro ⟨n, hn, hk⟩
    obtain ⟨e, he, hn⟩ := List.mem_flatMap.mp hn
    exact ⟨e, he, (hfg e he n hn).symm.trans hk⟩

/-- **There is a bucket for each key of a queued task, and no other.** -/
theorem Inv.bucketCounts_eq (h : Inv q) : bucketCounts q =
    (((flat q.levels).map fun n => n.keys.operatorType).dedup.length,
      ((flat q.levels).map fun n => n.keys.queryId).dedup.length,
      ((flat q.levels).map fun n => n.keys.deviceId).dedup.length) := by
  have hoperators : ∀ k, q.operatorLevels.lookup k ≠ none ↔
      k ∈ (flat q.levels).map fun n => n.keys.operatorType := by
    intro k
    rw [h.operators]
    exact pack_levelsWith_ne_none h (fun e he n hn => ((h.rungs e he).keyed n hn).2.2) k
  have hqueries : ∀ k, q.queryLevels.lookup k ≠ none ↔
      k ∈ (flat q.levels).map fun n => n.keys.queryId := by
    intro k
    rw [h.queries]
    exact pack_levelsWith_ne_none h (fun e he n hn => ((h.rungs e he).keyed n hn).2.1) k
  have hdevices : ∀ k, q.byDevice.lookup k ≠ none ↔
      k ∈ (flat q.levels).map fun n => n.keys.deviceId := by
    intro k
    have hids := flatMap_deviceBuckets k q.levels
    rw [h.devices, ne_eq, pack_eq_none]
    constructor
    · intro hne
      obtain ⟨b, hb⟩ := List.exists_mem_of_ne_nil _ hne
      obtain ⟨id, hid⟩ := List.exists_mem_of_ne_nil _ (ne_nil_of_mem_deviceBuckets hb)
      have hmem := List.mem_flatMap.mpr ⟨b, hb, hid⟩
      rw [hids] at hmem
      obtain ⟨n, hn, -⟩ := List.mem_map.mp hmem
      obtain ⟨hn, hdev⟩ := List.mem_filter.mp hn
      exact List.mem_map.mpr ⟨n, hn, by simpa using hdev⟩
    · intro hmem hnil
      obtain ⟨n, hn, hdev⟩ := List.mem_map.mp hmem
      have hid : n.id ∈ idsOn k (flat q.levels) :=
        List.mem_map_of_mem (List.mem_filter.mpr ⟨hn, by simpa using hdev⟩)
      rw [← hids, hnil] at hid
      exact List.not_mem_nil hid
  rw [bucketCounts, size_eq_dedup hoperators, size_eq_dedup hqueries, size_eq_dedup hdevices]

end Sirius.Exec.MultiIndex
