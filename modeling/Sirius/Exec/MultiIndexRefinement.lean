import Sirius.Exec.MultiIndexPops

/-!
# The queue refines a flat list

The queue is for one thing: to hand out the tasks of a list that is ordered by priority and,
within a priority, by insertion. `Flat.step` says so, without levels, indexes or addresses. The
queue of `MultiIndexQueue` answers every operation as the list does, as long as each priority is
used with one query and one operator.

* `Flat.step`: the operations on the list.
* `step_refines`: one operation, from a queue whose indexes agree with its levels.
* `failed_push_changes_nothing`: a push that throws at any of its allocations.
* `multi_index_queue_refines_flat_list`: every list of operations.
-/

namespace Sirius.Exec.MultiIndex

open Sirius.Common

variable {O Task : Type} [DecidableEq O]

/-! ## The flat list -/

/-- A queued task, with the keys it was pushed with. -/
abbrev Entry (O Task : Type) := IndexKeys O × Task

structure FlatQueue (O Task : Type) where
  active : Bool := true
  entries : List (Entry O Task) := []

/-- The stages that a push runs for a new priority only. -/
def PushStage.opensLevel : PushStage → Bool
  | .level | .operatorEntry | .operatorInsert | .queryEntry | .queryInsert => true
  | .extract | .node | .deviceEntry | .deviceBucket | .devicePush => false

namespace Flat

/-- Put a task behind those of its priority. A push that throws changes nothing. -/
def push (extract : Task → IndexKeys O) (fault : Option PushStage) (task : Task)
    (f : FlatQueue O Task) : PushOutcome × FlatQueue O Task :=
  let keys := extract task
  let newPriority := f.entries.all fun e => e.1.priority ≠ keys.priority
  if fault = some .extract then (.threw, f)
  else if !f.active then (.refused, f)
  else if fault.any fun s => newPriority || !s.opensLevel then (.threw, f)
  else (.pushed, { f with entries := place (fun e => e.1.priority) (keys, task) f.entries })

/-- Take the first task that satisfies `p`, from the front or from the back. -/
def take (front : Bool) (p : Entry O Task → Bool) (f : FlatQueue O Task) :
    Option Task × FlatQueue O Task :=
  (((directed front f.entries).find? p).map Prod.snd,
    { f with entries := directed front ((directed front f.entries).eraseP p) })

/-- Take the first task that `pred` accepts. The tasks before it stay as `pred` left them. -/
def takeMutable (pred : Task → Bool × Task) :
    List (Entry O Task) → Option Task × List (Entry O Task)
  | [] => (none, [])
  | e :: rest =>
    if (pred e.2).1 then (some (pred e.2).2, rest)
    else ((takeMutable pred rest).1, (e.1, (pred e.2).2) :: (takeMutable pred rest).2)

/-- A take, as an operation. -/
def taken : Option Task × FlatQueue O Task → FlatQueue O Task × Reply Task :=
  fun r => (r.2, .task r.1)

/-- One operation on the list. -/
def step (extract : Task → IndexKeys O) (f : FlatQueue O Task) :
    Op O Task → FlatQueue O Task × Reply Task
  | .push task fault => ((push extract fault task f).2, .push (push extract fault task f).1)
  | .pop front =>
    if f.entries = [] ∧ f.active then (f, .blocked) else taken (take front (fun _ => true) f)
  | .tryPop idx front => taken (take front (fun e => idx.selects e.1) f)
  | .tryPopIf idx pred => taken (take true (fun e => idx.selects e.1 ∧ pred e.2) f)
  | .mutablePopIf pred front =>
    let r := takeMutable pred (directed front f.entries)
    ({ f with entries := directed front r.2 }, .task r.1)
  | .drain => ({ f with entries := [] }, .done)
  | .drainQuery key => ({ f with entries := f.entries.filter fun e => e.1.queryId ≠ key }, .done)
  | .wait => if f.entries = [] ∧ f.active then (f, .blocked) else (f, .flag (!f.entries.isEmpty))
  | .isOpen => (f, .flag f.active)
  | .empty => (f, .flag f.entries.isEmpty)
  | .size idx => (f, .count (f.entries.filter fun e => idx.selects e.1).length)
  | .bucketCounts => (f, .counts
      ((f.entries.map fun e => e.1.operatorType).dedup.length,
        (f.entries.map fun e => e.1.queryId).dedup.length,
        (f.entries.map fun e => e.1.deviceId).dedup.length))
  | .interrupt => ({ f with active := false }, .done)
  | .reactivate => ({ f with active := true }, .done)

/-- A list of operations, with what they returned. -/
def runOps (extract : Task → IndexKeys O) :
    FlatQueue O Task → List (Op O Task) → FlatQueue O Task × List (Reply Task)
  | f, [] => (f, [])
  | f, op :: ops =>
    let r := step extract f op
    ((runOps extract r.1 ops).1, r.2 :: (runOps extract r.1 ops).2)

end Flat

/-! ## What the queue stands for -/

def Node.entry (n : Node O Task) : Entry O Task := (n.keys, n.task)

def Queue.toFlat (q : Queue O Task) : FlatQueue O Task :=
  ⟨q.active, (flat q.levels).map Node.entry⟩

omit [DecidableEq O] in
theorem toFlat_eq {q : Queue O Task} {f : FlatQueue O Task} {nodes : List (Node O Task)}
    (hactive : q.active = f.active) (hflat : flat q.levels = nodes)
    (hentries : nodes.map Node.entry = f.entries) : q.toFlat = f := by
  unfold Queue.toFlat
  rw [hactive, hflat, hentries]

section Directed

variable {α β : Type} (front : Bool)

@[simp] theorem directed_directed (l : List α) : directed front (directed front l) = l := by
  cases front <;> simp [directed]

theorem directed_map (f : α → β) (l : List α) :
    directed front (l.map f) = (directed front l).map f := by
  cases front <;> simp [directed]

theorem directed_filter (p : α → Bool) (l : List α) :
    directed front (l.filter p) = (directed front l).filter p := by
  cases front <;> simp [directed]

theorem mem_directed {l : List α} {a : α} : a ∈ directed front l ↔ a ∈ l := by
  cases front <;> simp [directed]

theorem endOf_filter (p : α → Bool) (l : List α) :
    endOf front (l.filter p) = (directed front l).find? p := by
  cases front with
  | true => exact List.head?_filter
  | false =>
    simp only [endOf, directed, Bool.false_eq_true, if_false]
    rw [List.getLast?_eq_head?_reverse, ← List.filter_reverse, List.head?_filter]

theorem nodup_directed {l : List α} (h : l.Nodup) : (directed front l).Nodup := by
  cases front with
  | true => exact h
  | false => exact List.nodup_reverse.mpr h

end Directed

omit [DecidableEq O] in
/-- Removing the node that a search found is removing the first match. -/
theorem erase_found {nodes : List (Node O Task)} (hids : (nodes.map Node.id).Nodup) (front : Bool)
    (p : Node O Task → Bool) :
    ((directed front nodes).find? p).elim nodes (fun n => nodes.filter fun m => m.id ≠ n.id) =
      directed front ((directed front nodes).eraseP p) := by
  cases hfind : (directed front nodes).find? p with
  | none =>
    rw [List.eraseP_of_forall_not fun a ha => List.find?_eq_none.mp hfind a ha, directed_directed]
    rfl
  | some n =>
    obtain ⟨hn, l₁, l₂, hl, hbefore⟩ := List.find?_eq_some_iff_append.mp hfind
    have hids' : ((l₁ ++ n :: l₂).map Node.id).Nodup := by
      rw [← hl, ← directed_map]
      exact nodup_directed front hids
    have herase : (l₁ ++ n :: l₂).eraseP p = l₁ ++ l₂ := by
      rw [List.eraseP_append_right _ fun b hb => by simpa using hbefore b hb,
        List.eraseP_cons_of_pos hn]
    rw [hl, herase, ← filter_ne_mid hids', ← hl, directed_filter, directed_directed]
    rfl

/-- A pop that extracts what a search of the list found takes it from the list. -/
theorem Inv.take_eq {q : Queue O Task} (h : Inv q) (front : Bool) (p : Entry O Task → Bool)
    {found : Option ℕ}
    (hfound : found = ((directed front (flat q.levels)).find? fun n => p n.entry).map Node.id) :
    ∃ q', extractFound q found = some ((Flat.take front p q.toFlat).1, q') ∧ Inv q' ∧
      q'.toFlat = (Flat.take front p q.toFlat).2 := by
  obtain ⟨q', hextract, hinv, hactive, hflat⟩ :=
    h.extractFound_eq ((directed front (flat q.levels)).find? fun n => p n.entry)
      fun n hn => (mem_directed front).mp (List.mem_of_find?_eq_some hn)
  refine ⟨q', ?_, hinv, toFlat_eq hactive hflat ?_⟩
  · rw [hfound, hextract, Flat.take, Queue.toFlat]
    dsimp only
    rw [directed_map, List.find?_map, Option.map_map]
    rfl
  · rw [erase_found h.distinct, Flat.take, Queue.toFlat]
    dsimp only
    rw [directed_map, List.eraseP_map, directed_map]
    rfl

/-! ## Push -/

/-- The tasks of a priority that is used with one query and one operator. -/
def Fits (keys : IndexKeys O) (keys' : IndexKeys O) : Prop :=
  keys'.priority = keys.priority →
    keys'.queryId = keys.queryId ∧ keys'.operatorType = keys.operatorType

variable {q : Queue O Task}

theorem Inv.isNewLevel_eq (h : Inv q) (keys : IndexKeys O) :
    isNewLevel keys q = q.toFlat.entries.all fun e => e.1.priority ≠ keys.priority := by
  rw [Bool.eq_iff_iff, isNewLevel, Option.isNone_iff_eq_none, seek, List.find?_eq_none,
    List.all_eq_true]
  constructor
  · intro hnone e he
    obtain ⟨n, hn, rfl⟩ := List.mem_map.mp he
    obtain ⟨rung, hrung, hn⟩ := List.mem_flatMap.mp hn
    have hne := hnone rung hrung
    simp only [decide_eq_true_eq] at hne
    simpa [Node.entry, ((h.rungs rung hrung).keyed n hn).1] using hne
  · intro hall rung hrung
    obtain ⟨n, hn⟩ := List.exists_mem_of_ne_nil _ (h.rungs rung hrung).nonempty
    have hne := hall n.entry (List.mem_map_of_mem (List.mem_flatMap.mpr ⟨rung, hrung, hn⟩))
    simpa [Node.entry, ((h.rungs rung hrung).keyed n hn).1] using hne

omit [DecidableEq O] in
/-- A push throws in its `try` block when the stage that fails is one of those it runs. -/
theorem takeWhile_pushUpdates [DecidableEq O] (keys : IndexKeys O) (newLevel : Bool) (task : Task)
    (id : ℕ) {fault : Option PushStage} (hextract : fault ≠ some .extract)
    (hlevel : ¬ (newLevel = true ∧ fault = some .level)) :
    (((pushUpdates keys newLevel task id).takeWhile fun u => fault ≠ some u.1).length =
      (pushUpdates keys newLevel task id).length) ↔
      (fault.any fun s => newLevel || !s.opensLevel) = false := by
  cases newLevel <;> rcases fault with _ | (_ | _ | _ | _ | _ | _ | _ | _ | _ | _) <;>
    simp_all [pushUpdates, PushStage.opensLevel]

/-- The push runs the stage: it is on the way to an open queue, and a level is opened for a new
    priority only. -/
def Reaches (extract : Task → IndexKeys O) (task : Task) (q : Queue O Task)
    (stage : PushStage) : Prop :=
  stage = .extract ∨
    q.active = true ∧ (isNewLevel (extract task) q = true ∨ stage.opensLevel = false)

theorem tryPush_threw (h : Consistent q) {extract : Task → IndexKeys O} {task : Task}
    {stage : PushStage} (hruns : Reaches extract task q stage) :
    (tryPush extract (some stage) task q).1 = .threw ∧
      Unchanged q (tryPush extract (some stage) task q).2 := by
  unfold tryPush
  by_cases hextract : stage = .extract
  · rw [if_pos (congrArg some hextract)]
    exact ⟨rfl, .refl q⟩
  obtain ⟨hactive, hlevels⟩ := hruns.resolve_left hextract
  have hfault : some stage ≠ some .extract := fun heq => hextract (Option.some.inj heq)
  rw [if_neg hfault]
  dsimp only
  rw [if_neg (by simp [hactive])]
  by_cases hlevel : isNewLevel (extract task) q = true ∧ some stage = some .level
  · rw [if_pos hlevel]
    exact ⟨rfl, .refl q⟩
  rw [if_neg hlevel]
  have hcut : ((pushUpdates (extract task) (isNewLevel (extract task) q) task q.nextId).takeWhile
        fun u => some stage ≠ some u.1).length ≠
      (pushUpdates (extract task) (isNewLevel (extract task) q) task q.nextId).length := by
    rw [Ne, takeWhile_pushUpdates _ _ _ _ hfault hlevel]
    rcases hlevels with hnew | hold
    · simp [hnew]
    · simp [hold]
  rw [if_neg hcut]
  have hroll := h.threw (partway (extract task) q task (some stage) rfl hcut) (by
    intro n hn
    split_ifs at hn
    rw [← Option.some.inj hn])
  have hsome : ∀ b : Bool, (if b then some (⟨q.nextId, extract task, task⟩ : Node O Task)
      else none).isSome = b := by
    intro b
    cases b <;> rfl
  rw [hsome] at hroll
  exact ⟨rfl, hroll⟩

theorem tryPush_refines {q : Queue O Task} (h : Inv q) (extract : Task → IndexKeys O)
    (fault : Option PushStage) (task : Task)
    (hfits : ∀ e ∈ q.toFlat.entries, Fits (extract task) e.1) :
    (tryPush extract fault task q).1 = (Flat.push extract fault task q.toFlat).1 ∧
      Inv (tryPush extract fault task q).2 ∧
      (tryPush extract fault task q).2.toFlat = (Flat.push extract fault task q.toFlat).2 := by
  have hsame : ∀ n ∈ flat q.levels, n.keys.priority = (extract task).priority →
      n.keys.queryId = (extract task).queryId ∧ n.keys.operatorType = (extract task).operatorType :=
    fun n hn => hfits n.entry (List.mem_map_of_mem hn)
  by_cases hthrows : ∃ stage, fault = some stage ∧ Reaches extract task q stage
  · obtain ⟨stage, rfl, hruns⟩ := hthrows
    obtain ⟨hthrew, hkept⟩ := tryPush_threw h.consistent hruns
    have hflat : Flat.push extract (some stage) task q.toFlat = (.threw, q.toFlat) := by
      simp only [Flat.push, ← h.isNewLevel_eq, Option.any_some]
      rcases hruns with rfl | ⟨hactive, hlevels⟩
      · rw [if_pos rfl]
      · have hany : (isNewLevel (extract task) q || !stage.opensLevel) = true := by
          rcases hlevels with hnew | hold
          · rw [hnew, Bool.true_or]
          · rw [hold, Bool.not_false, Bool.or_true]
        rw [show q.toFlat.active = q.active from rfl, hactive, hany]
        simp only [Bool.not_true, Bool.false_eq_true, if_false, if_true, ite_self]
    rw [hflat]
    exact ⟨hthrew, h.of_unchanged hkept, toFlat_eq hkept.active (congrArg flat hkept.levels) rfl⟩
  · have hextract : fault ≠ some .extract := fun heq => hthrows ⟨_, heq, .inl rfl⟩
    unfold tryPush Flat.push
    rw [if_neg hextract, if_neg hextract]
    dsimp only
    rw [← h.isNewLevel_eq, show q.toFlat.active = q.active from rfl]
    cases hactive : q.active with
    | false => exact ⟨rfl, h, rfl⟩
    | true =>
      have hdone : (fault.any fun s => isNewLevel (extract task) q || !s.opensLevel) = false := by
        rw [Option.any_eq_false]
        intro stage heq
        rw [Bool.eq_false_iff]
        intro hruns
        rw [Bool.or_eq_true, Bool.not_eq_true'] at hruns
        exact hthrows ⟨stage, heq, .inr ⟨hactive, hruns⟩⟩
      have hlevel : ¬(isNewLevel (extract task) q = true ∧ fault = some .level) := by
        rintro ⟨hnew, heq⟩
        exact hthrows ⟨.level, heq, .inr ⟨hactive, .inl hnew⟩⟩
      have hlength := (takeWhile_pushUpdates (extract task) (isNewLevel (extract task) q) task
        q.nextId hextract hlevel).mpr hdone
      have hall := List.IsPrefix.eq_of_length (List.takeWhile_prefix _) hlength
      simp only [Bool.not_true, Bool.false_eq_true, if_false]
      rw [if_neg hlevel, if_pos hlength, if_neg (by simp [hdone]), hall, foldl_pushUpdates]
      obtain ⟨hinv, hplace⟩ := h.push task hsame
      refine ⟨rfl, hinv, toFlat_eq hactive hplace ?_⟩
      exact map_place fun _ => rfl

/-- **A push that throws changes nothing**, at whichever of its allocations: the tasks and their
    order, what the operators, the queries and the devices find, the number of their entries, the
    size. It does not matter that the queue is used with one pipeline for a priority. -/
theorem failed_push_changes_nothing (extract : Task → IndexKeys O) (task : Task)
    {q : Queue O Task} (h : Consistent q) {stage : PushStage}
    (hruns : Reaches extract task q stage) :
    (tryPush extract (some stage) task q).1 = .threw ∧
      Unchanged q (tryPush extract (some stage) task q).2 ∧
      bucketCounts (tryPush extract (some stage) task q).2 = bucketCounts q := by
  obtain ⟨hthrew, hkept⟩ := tryPush_threw h hruns
  refine ⟨hthrew, hkept, ?_⟩
  simp only [bucketCounts, Table.size_congr hkept.operators, Table.size_congr hkept.queries,
    Table.size_congr hkept.devices]

/-- A queue with one task, and a push of another task of the same device that fails when its
    bucket is extended. -/
theorem failed_push_keeps_one_task :
    (tryPush id (some .devicePush) (⟨2, 5, 7, 0⟩ : IndexKeys ℕ)
        (tryPush id none ⟨1, 5, 7, 0⟩ ({} : Queue ℕ (IndexKeys ℕ))).2).1 = .threw ∧
      bucketCounts (tryPush id (some .devicePush) (⟨2, 5, 7, 0⟩ : IndexKeys ℕ)
        (tryPush id none ⟨1, 5, 7, 0⟩ ({} : Queue ℕ (IndexKeys ℕ))).2).2 = (1, 1, 1) := by
  have hinv : Inv (tryPush id none ⟨1, 5, 7, 0⟩ ({} : Queue ℕ (IndexKeys ℕ))).2 :=
    (tryPush_refines inv_init id none ⟨1, 5, 7, 0⟩ (by simp [Queue.toFlat, flat])).2.1
  have hruns : Reaches id (⟨2, 5, 7, 0⟩ : IndexKeys ℕ)
      (tryPush id none ⟨1, 5, 7, 0⟩ ({} : Queue ℕ (IndexKeys ℕ))).2 .devicePush :=
    .inr ⟨rfl, .inr rfl⟩
  obtain ⟨hthrew, -, hcounts⟩ := failed_push_changes_nothing id ⟨2, 5, 7, 0⟩ hinv.consistent hruns
  exact ⟨hthrew, hcounts⟩

/-! ## Pops -/

omit [DecidableEq O] in
/-- The node that a visit found, with its task as `pred` left it. -/
theorem visit_found (pred : Task → Bool × Task) {nodes : List (Node O Task)}
    (hids : (nodes.map Node.id).Nodup) :
    ∃ found : Option (Node O Task), (visit pred nodes).2 = found.map Node.id ∧
      (∀ n, found = some n → n ∈ (visit pred nodes).1) ∧
      Flat.takeMutable pred (nodes.map Node.entry) = (found.map Node.task,
        (found.elim (visit pred nodes).1 fun n =>
          (visit pred nodes).1.filter fun m => m.id ≠ n.id).map Node.entry) := by
  induction nodes with
  | nil => exact ⟨none, rfl, by simp, rfl⟩
  | cons n nodes ih =>
    obtain ⟨found, hfound, hmem, htake⟩ := ih (List.nodup_cons.mp hids).2
    rw [visit, List.map_cons, Flat.takeMutable]
    cases hpred : (pred n.task).1 with
    | true =>
      simp only [Node.entry, hpred, if_true]
      refine ⟨some { n with task := (pred n.task).2 }, rfl, by simp, ?_⟩
      have hfilter := filter_ne_mid
        (show (([] ++ n :: nodes).map Node.id).Nodup from hids)
      rw [List.nil_append, List.nil_append, List.filter_cons_of_neg (by simp)] at hfilter
      rw [Option.elim_some, List.filter_cons_of_neg (by simp), hfilter]
      rfl
    | false =>
      simp only [Node.entry, hpred, Bool.false_eq_true, if_false]
      refine ⟨found, hfound, fun m hm => List.mem_cons_of_mem _ (hmem m hm), ?_⟩
      rw [htake]
      cases found with
      | none => rfl
      | some m =>
        -- an earlier node is not the one that was found
        have hne : n.id ≠ m.id := by
          intro heq
          have hm := List.mem_map_of_mem (f := Node.tag) (hmem m rfl)
          rw [tags_visit] at hm
          obtain ⟨m', hm', htag⟩ := List.mem_map.mp hm
          have hid : m'.id = m.id := congrArg Prod.fst htag
          exact (List.nodup_cons.mp hids).1 (heq.trans hid.symm ▸ List.mem_map_of_mem hm')
        rw [Option.elim_some, Option.elim_some, List.filter_cons_of_pos (by simpa using hne)]
        rfl

theorem mutablePopIf_refines {q : Queue O Task} (h : Inv q) (pred : Task → Bool × Task)
    (front : Bool) :
    ∃ q', mutablePopIf pred front q =
        some ((Flat.takeMutable pred (directed front q.toFlat.entries)).1, q') ∧ Inv q' ∧
      q'.toFlat = { q.toFlat with
        entries := directed front (Flat.takeMutable pred (directed front q.toFlat.entries)).2 } := by
  obtain ⟨q₁, hinv₁, hactive₁, hvisit, hpop⟩ := h.mutablePopIf_eq pred front
  have hids : ((directed front (flat q.levels)).map Node.id).Nodup := by
    rw [← directed_map]
    exact nodup_directed front h.distinct
  obtain ⟨found, hfound, hmem, htake⟩ := visit_found pred hids
  rw [← directed_map] at htake
  obtain ⟨q', hextract, hinv, hactive, hflat⟩ := hinv₁.extractFound_eq found
    fun n hn => (mem_directed front).mp (hvisit ▸ hmem n hn)
  refine ⟨q', ?_, hinv, toFlat_eq (hactive.trans hactive₁) hflat ?_⟩
  · rw [hpop, hfound, hextract, Queue.toFlat]
    dsimp only
    rw [htake]
  · rw [Queue.toFlat]
    dsimp only
    rw [htake, ← hvisit, directed_map]
    cases found with
    | none => rw [Option.elim_none, Option.elim_none, directed_directed]
    | some n => rw [Option.elim_some, Option.elim_some, directed_filter, directed_directed]

theorem tryPop_refines (h : Inv q) (idx : Index O) (front : Bool) :
    ∃ q', tryPop idx front q =
        some ((Flat.take front (fun e => idx.selects e.1) q.toFlat).1, q') ∧ Inv q' ∧
      q'.toFlat = (Flat.take front (fun e => idx.selects e.1) q.toFlat).2 := by
  unfold tryPop
  rw [h.endNode_eq, Option.bind_some, endOf_filter]
  exact h.take_eq front (fun e => idx.selects e.1) rfl

theorem tryPopIf_refines (h : Inv q) (idx : Index O) (pred : Task → Bool) :
    ∃ q', tryPopIf idx pred q =
        some ((Flat.take true (fun e => idx.selects e.1 ∧ pred e.2) q.toFlat).1, q') ∧ Inv q' ∧
      q'.toFlat = (Flat.take true (fun e => idx.selects e.1 ∧ pred e.2) q.toFlat).2 := by
  unfold tryPopIf
  rw [h.findIf_eq, Option.bind_some, List.find?_filter]
  exact h.take_eq true (fun e => idx.selects e.1 ∧ pred e.2) rfl

/-! ## Runs -/

/-- The operation pushes only what fits the list. -/
def PushFits (extract : Task → IndexKeys O) (f : FlatQueue O Task) : Op O Task → Prop
  | .push task _ => ∀ e ∈ f.entries, Fits (extract task) e.1
  | _ => True

theorem Inv.isEmpty_eq {q : Queue O Task} (h : Inv q) :
    q.levels = [] ↔ q.toFlat.entries = [] := by
  rw [Queue.toFlat, List.map_eq_nil_iff]
  constructor
  · intro hnil
    rw [hnil]
    rfl
  · intro hnil
    rw [List.eq_nil_iff_forall_not_mem]
    intro e he
    obtain ⟨n, hn⟩ := List.exists_mem_of_ne_nil _ (h.rungs e he).nonempty
    have hmem : n ∈ flat q.levels := List.mem_flatMap.mpr ⟨e, he, hn⟩
    rw [hnil] at hmem
    exact List.not_mem_nil hmem

/-- **One operation answers as the list does, and leaves the queue in agreement with it.** -/
theorem step_refines {q : Queue O Task} (h : Inv q) (extract : Task → IndexKeys O)
    (op : Op O Task) (hfits : PushFits extract q.toFlat op) :
    ∃ q', step extract q op = some (q', (Flat.step extract q.toFlat op).2) ∧ Inv q' ∧
      q'.toFlat = (Flat.step extract q.toFlat op).1 := by
  have hempty : q.levels.isEmpty = q.toFlat.entries.isEmpty := by
    rw [Bool.eq_iff_iff, List.isEmpty_iff, List.isEmpty_iff]
    exact h.isEmpty_eq
  have hblocked : (q.levels = [] ∧ q.active) ↔ (q.toFlat.entries = [] ∧ q.toFlat.active) :=
    and_congr h.isEmpty_eq Iff.rfl
  cases op with
  | push task fault =>
    obtain ⟨houtcome, hinv, hflat⟩ := tryPush_refines h extract fault task hfits
    exact ⟨_, congrArg (fun o => some (_, Reply.push o)) houtcome, hinv, hflat⟩
  | pop front =>
    obtain ⟨q', hpop, hinv, hflat⟩ := tryPop_refines h .global front
    by_cases hb : q.levels = [] ∧ q.active
    · refine ⟨q, ?_, h, ?_⟩
      · rw [step, Flat.step, if_pos hb, if_pos (hblocked.mp hb)]
      · rw [Flat.step, if_pos (hblocked.mp hb)]
    · refine ⟨q', ?_, hinv, ?_⟩
      · rw [step, Flat.step, if_neg hb, if_neg fun hf => hb (hblocked.mpr hf), hpop]
        rfl
      · rw [Flat.step, if_neg fun hf => hb (hblocked.mpr hf)]
        exact hflat
  | tryPop idx front =>
    obtain ⟨q', hpop, hinv, hflat⟩ := tryPop_refines h idx front
    exact ⟨q', congrArg (Option.map popped) hpop, hinv, hflat⟩
  | tryPopIf idx pred =>
    obtain ⟨q', hpop, hinv, hflat⟩ := tryPopIf_refines h idx pred
    exact ⟨q', congrArg (Option.map popped) hpop, hinv, hflat⟩
  | mutablePopIf pred front =>
    obtain ⟨q', hpop, hinv, hflat⟩ := mutablePopIf_refines h pred front
    exact ⟨q', congrArg (Option.map popped) hpop, hinv, hflat⟩
  | drain => exact ⟨_, rfl, inv_drain q, rfl⟩
  | drainQuery key =>
    obtain ⟨q', hdrain, hinv, hactive, hflat⟩ := h.drainQuery_eq key
    refine ⟨q', congrArg (Option.map fun q => (q, Reply.done)) hdrain, hinv,
      toFlat_eq hactive hflat ?_⟩
    rw [Flat.step, Queue.toFlat, List.filter_map]
    rfl
  | wait =>
    refine ⟨q, ?_, h, ?_⟩
    · by_cases hb : q.levels = [] ∧ q.active
      · rw [step, Flat.step, if_pos hb, if_pos (hblocked.mp hb)]
      · rw [step, Flat.step, if_neg hb, if_neg fun hf => hb (hblocked.mpr hf), hempty]
    · rw [Flat.step]
      split_ifs <;> rfl
  | isOpen => exact ⟨q, rfl, h, rfl⟩
  | empty => exact ⟨q, by rw [step, Flat.step, hempty], h, rfl⟩
  | size idx =>
    refine ⟨q, ?_, h, rfl⟩
    rw [step, h.sizeOf_eq, Flat.step, Queue.toFlat]
    dsimp only
    rw [List.filter_map, List.length_map]
    rfl
  | bucketCounts =>
    refine ⟨q, ?_, h, rfl⟩
    rw [step, h.bucketCounts_eq, Flat.step, Queue.toFlat]
    dsimp only
    rw [List.map_map, List.map_map, List.map_map]
    rfl
  | interrupt | reactivate =>
    refine ⟨_, rfl, ?_, rfl⟩
    exact h.of_same rfl (fun _ => rfl) (fun _ => rfl) (fun _ => rfl) rfl le_rfl

/-- The scheduler's encoding: each priority is used with one query and one operator. -/
def OnePipelineAPriority (extract : Task → IndexKeys O) (ops : List (Op O Task)) : Prop :=
  ∀ task fault task' fault', Op.push task fault ∈ ops → Op.push task' fault' ∈ ops →
    Fits (extract task) (extract task')

section Known

variable {extract : Task → IndexKeys O} {S : IndexKeys O → Prop} {f : FlatQueue O Task}

omit [DecidableEq O] in
theorem mem_place {key : Entry O Task → ℤ} {e e' : Entry O Task} {l : List (Entry O Task)}
    (h : e' ∈ place key e l) : e' = e ∨ e' ∈ l := by
  induction l with
  | nil => exact .inl (List.mem_singleton.mp h)
  | cons y l ih =>
    unfold place at h
    split_ifs at h
    · rcases List.mem_cons.mp h with rfl | h
      · exact .inr List.mem_cons_self
      · exact (ih h).imp_right (List.mem_cons_of_mem y)
    · exact List.mem_cons.mp h

omit [DecidableEq O] in
theorem keys_takeMutable (pred : Task → Bool × Task) {l : List (Entry O Task)}
    (h : ∀ e ∈ l, S e.1) : ∀ e ∈ (Flat.takeMutable pred l).2, S e.1 := by
  induction l with
  | nil => exact h
  | cons e l ih =>
    obtain ⟨he, hl⟩ := List.forall_mem_cons.mp h
    unfold Flat.takeMutable
    split_ifs
    · exact hl
    · exact List.forall_mem_cons.mpr ⟨he, ih hl⟩

/-- What is on the list was pushed. -/
theorem known_step (h : ∀ e ∈ f.entries, S e.1) {op : Op O Task}
    (hop : ∀ task fault, op = .push task fault → S (extract task)) :
    ∀ e ∈ (Flat.step extract f op).1.entries, S e.1 := by
  have htake : ∀ front p, ∀ e ∈ (Flat.take front p f).2.entries, S e.1 := by
    intro front p e he
    have he := (List.eraseP_sublist.subset ((mem_directed front).mp he))
    exact h e ((mem_directed front).mp he)
  cases op with
  | push task fault =>
    intro e he
    simp only [Flat.step, Flat.push] at he
    split_ifs at he
    iterate 3 exact h e he
    rcases mem_place he with rfl | he
    · exact hop task fault rfl
    · exact h e he
  | pop front =>
    rw [Flat.step]
    split_ifs
    · exact h
    · exact htake front _
  | tryPop idx front => exact htake front _
  | tryPopIf idx pred => exact htake true _
  | mutablePopIf pred front =>
    intro e he
    refine keys_takeMutable pred (fun e he => ?_) e ((mem_directed front).mp he)
    exact h e ((mem_directed front).mp he)
  | drain => simp [Flat.step]
  | drainQuery key => exact fun e he => h e (List.mem_of_mem_filter he)
  | wait =>
    rw [Flat.step]
    split_ifs <;> exact h
  | isOpen => exact h
  | empty => exact h
  | size idx => exact h
  | bucketCounts => exact h
  | interrupt => exact h
  | reactivate => exact h

end Known

theorem run_refines (extract : Task → IndexKeys O) (ops : List (Op O Task))
    {S : IndexKeys O → Prop} (hS : ∀ keys keys', S keys → S keys' → Fits keys keys')
    (hops : ∀ task fault, Op.push task fault ∈ ops → S (extract task)) (h : Inv q)
    (hq : ∀ e ∈ q.toFlat.entries, S e.1) :
    ∃ q', runOps extract q ops = some (q', (Flat.runOps extract q.toFlat ops).2) ∧ Inv q' ∧
      q'.toFlat = (Flat.runOps extract q.toFlat ops).1 := by
  induction ops generalizing q with
  | nil => exact ⟨q, rfl, h, rfl⟩
  | cons op ops ih =>
    have hop : ∀ task fault, op = .push task fault → S (extract task) :=
      fun task fault heq => hops task fault (heq ▸ List.mem_cons_self)
    have hfits : PushFits extract q.toFlat op := by
      cases op with
      | push task fault => exact fun e he => hS _ _ (hop task fault rfl) (hq e he)
      | _ => trivial
    obtain ⟨q₁, hstep, hinv₁, hflat₁⟩ := step_refines h extract op hfits
    have hq₁ := known_step hq hop
    rw [← hflat₁] at hq₁
    obtain ⟨q₂, hrun, hinv₂, hflat₂⟩ :=
      ih (fun task fault hmem => hops task fault (List.mem_cons_of_mem _ hmem)) hinv₁ hq₁
    refine ⟨q₂, ?_, hinv₂, ?_⟩
    · rw [runOps, hstep, Option.bind_eq_bind, Option.bind_some, hrun, hflat₁]
      rfl
    · rw [hflat₂, hflat₁]
      rfl

/-- No index holds a task that is not queued, or an empty bucket: every priority of a set is that
    of a level with its key, and every address of a device bucket is that of a queued node with
    its device and priority. -/
structure NoStaleEntry (q : Queue O Task) : Prop where
  levels : ∀ e ∈ q.levels, e.2.tasks ≠ []
  operators : ∀ k prios, q.operatorLevels.lookup k = some prios → prios ≠ [] ∧
    ∀ p ∈ prios, ∃ e ∈ q.levels, e.1 = p ∧ e.2.op = k
  queries : ∀ k prios, q.queryLevels.lookup k = some prios → prios ≠ [] ∧
    ∀ p ∈ prios, ∃ e ∈ q.levels, e.1 = p ∧ e.2.qid = k
  devices : ∀ dev buckets, q.byDevice.lookup dev = some buckets → buckets ≠ [] ∧
    ∀ b ∈ buckets, b.2 ≠ [] ∧ ∀ id ∈ b.2, ∃ n ∈ flat q.levels,
      n.id = id ∧ n.keys.deviceId = dev ∧ n.keys.priority = b.1

omit [DecidableEq O] in
theorem mem_levelsWith {sel : Level O Task → Bool} {levels : List (Rung O Task)} {p : ℤ}
    (h : p ∈ levelsWith sel levels) : ∃ e ∈ levels, e.1 = p ∧ sel e.2 = true := by
  obtain ⟨e, he, hp⟩ := List.mem_map.mp h
  obtain ⟨he, hsel⟩ := List.mem_filter.mp he
  exact ⟨e, he, hp, hsel⟩

theorem Inv.noStaleEntry {q : Queue O Task} (h : Inv q) : NoStaleEntry q := by
  refine ⟨fun e he => (h.rungs e he).nonempty, fun k prios hk => ?_, fun k prios hk => ?_,
    fun dev buckets hdev => ?_⟩
  · rw [h.operators, pack_eq_some] at hk
    obtain ⟨rfl, hne⟩ := hk
    refine ⟨hne, fun p hp => ?_⟩
    obtain ⟨e, he, hfst, hop⟩ := mem_levelsWith hp
    exact ⟨e, he, hfst, by simpa using hop⟩
  · rw [h.queries, pack_eq_some] at hk
    obtain ⟨rfl, hne⟩ := hk
    refine ⟨hne, fun p hp => ?_⟩
    obtain ⟨e, he, hfst, hqid⟩ := mem_levelsWith hp
    exact ⟨e, he, hfst, by simpa using hqid⟩
  · rw [h.devices, pack_eq_some] at hdev
    obtain ⟨rfl, hne⟩ := hdev
    refine ⟨hne, fun b hb => ⟨ne_nil_of_mem_deviceBuckets hb, fun id hid => ?_⟩⟩
    obtain ⟨e, he, hb⟩ := List.mem_flatMap.mp hb
    unfold bucketOf keepBucket at hb
    split_ifs at hb
    · exact absurd hb List.not_mem_nil
    rw [List.mem_singleton.mp hb] at hid ⊢
    obtain ⟨n, hn, rfl⟩ := List.mem_map.mp hid
    obtain ⟨hn, hndev⟩ := List.mem_filter.mp hn
    exact ⟨n, List.mem_flatMap.mpr ⟨e, he, hn⟩, rfl, by simpa using hndev,
      ((h.rungs e he).keyed n hn).1⟩

/-- **The queue refines the flat list.** Over every list of operations in which each priority is
    used with one query and one operator, and with any of the pushes throwing at any stage, no
    operation meets a dangling pointer or a missing entry, each answers as the list ordered by
    priority and insertion does, the queue ends up holding that list, and no index has a stale
    entry or an empty bucket. -/
theorem multi_index_queue_refines_flat_list (extract : Task → IndexKeys O)
    (ops : List (Op O Task)) (h : OnePipelineAPriority extract ops) :
    ∃ q, runOps extract {} ops = some (q, (Flat.runOps extract {} ops).2) ∧
      q.toFlat = (Flat.runOps extract {} ops).1 ∧ NoStaleEntry q := by
  obtain ⟨q, hrun, hinv, hflat⟩ := run_refines extract ops (q := {})
    (S := fun keys => ∃ task fault, Op.push task fault ∈ ops ∧ extract task = keys)
    (by
      rintro keys keys' ⟨task, fault, hmem, rfl⟩ ⟨task', fault', hmem', rfl⟩
      exact h task fault task' fault' hmem hmem')
    (fun task fault hmem => ⟨task, fault, hmem, rfl⟩) inv_init (by simp [Queue.toFlat, flat])
  exact ⟨q, hrun, hflat, hinv.noStaleEntry⟩

/-- Two tasks of one pipeline that prefer different devices, and one of another. -/
def twoPipelines : List (Op ℕ (IndexKeys ℕ)) :=
  [.push ⟨1, 5, 7, 0⟩ none, .push ⟨0, 6, 8, -1⟩ none, .push ⟨1, 5, 7, 2⟩ none,
    .push ⟨1, 5, 7, 0⟩ (some .devicePush), .tryPop (.gpu 2) true, .size (.query 7),
    .tryPop .global false, .drainQuery 8, .bucketCounts]

theorem two_pipelines_refine_flat_list :
    OnePipelineAPriority id twoPipelines ∧ ∃ q, runOps id {} twoPipelines = some (q,
      [.push .pushed, .push .pushed, .push .pushed, .push .threw, .task (some ⟨1, 5, 7, 2⟩),
        .count 1, .task (some ⟨1, 5, 7, 0⟩), .done, .counts (0, 0, 0)]) ∧ NoStaleEntry q := by
  have hone : OnePipelineAPriority id twoPipelines := by
    intro task fault task' fault' hmem hmem' hp
    simp only [twoPipelines, List.mem_cons, Op.push.injEq, List.not_mem_nil, or_false, reduceCtorEq]
      at hmem hmem'
    rcases hmem with ⟨rfl, -⟩ | ⟨rfl, -⟩ | ⟨rfl, -⟩ | ⟨rfl, -⟩ <;>
      rcases hmem' with ⟨rfl, -⟩ | ⟨rfl, -⟩ | ⟨rfl, -⟩ | ⟨rfl, -⟩ <;> simp_all
  obtain ⟨q, hrun, -, hstale⟩ := multi_index_queue_refines_flat_list id twoPipelines hone
  refine ⟨hone, q, hrun.trans ?_, hstale⟩
  have hreplies : (Flat.runOps id {} twoPipelines).2 = [.push .pushed, .push .pushed, .push .pushed,
      .push .threw, .task (some ⟨1, 5, 7, 2⟩), .count 1, .task (some ⟨1, 5, 7, 0⟩), .done,
      .counts (0, 0, 0)] := by decide +kernel
  rw [hreplies]

end Sirius.Exec.MultiIndex
