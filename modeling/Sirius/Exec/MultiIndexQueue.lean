import Sirius.Common.Keyed
import Sirius.Common.Table

/-!
# The multi-index priority queue

Model of `multi_index_priority_queue` (`src/exec/multi_index_priority_queue.hpp`). Every
operation holds the mutex from its first to its last access, so a run is a list of operations.

A node is known by its address, a number that is never given out twice: a pointer to a node that
was freed finds nothing. The iterators that a node keeps are its places in the list of its level
and in its device bucket; erasing at an iterator removes the entry of that node. An operation
that would use a freed node, dereference an end iterator, erase a node from a list that does not
hold it, or let `at` throw has no result, `none`.

* `step`: one operation on the queue.
* `Flat.step`: the same operation on the list of the tasks, ordered by priority and insertion.
-/

namespace Sirius.Exec.MultiIndex

open Sirius.Common

/-! ## The queue -/

/-- The attributes of a task, taken once when it is pushed. The operator types are a parameter. -/
structure IndexKeys (O : Type) where
  priority : ℤ
  operatorType : O
  queryId : ℕ
  deviceId : ℤ
  deriving DecidableEq, Repr

/-- The per-task record, with its address. -/
structure Node (O Task : Type) where
  id : ℕ
  keys : IndexKeys O
  task : Task
  deriving DecidableEq, Repr

/-- The tasks of one priority, in insertion order. -/
structure Level (O Task : Type) where
  qid : ℕ
  op : O
  tasks : List (Node O Task)
  deriving DecidableEq, Repr

/-- An entry of the spine `_levels`. -/
abbrev Rung (O Task : Type) := ℤ × Level O Task

/-- The members of a `multi_index_priority_queue`. A set of priorities is the list of its
    elements in order; `nextId` is the next address. -/
structure Queue (O Task : Type) where
  active : Bool := true
  levels : List (Rung O Task) := []
  queryLevels : Table ℕ (List ℤ) := ∅
  operatorLevels : Table O (List ℤ) := ∅
  byDevice : Table ℤ (List (ℤ × List ℕ)) := ∅
  size : ℕ := 0
  nextId : ℕ := 0

variable {O Task : Type} [DecidableEq O]

/-- The queued nodes, level by level. -/
def flat (levels : List (Rung O Task)) : List (Node O Task) := levels.flatMap fun e => e.2.tasks

/-- Dereference a `node*`. -/
def Queue.deref (q : Queue O Task) (id : ℕ) : Option (Node O Task) :=
  (flat q.levels).find? fun n => n.id = id

/-! ## The indexes -/

section Indexes

variable {κ : Type} [DecidableEq κ]

/-- `map[key]` of a map of sets: the entry is made if it is not there. -/
def levelEntry (map : Table κ (List ℤ)) (key : κ) : Table κ (List ℤ) :=
  map.insert key ((map.lookup key).getD [])

/-- `map[key].insert(prio)`, for an entry that is there. -/
def levelInsert (map : Table κ (List ℤ)) (key : κ) (prio : ℤ) : Table κ (List ℤ) :=
  map.insert key (emplace id prio ((map.lookup key).getD []))

/-- `unset_level` (lines 668–675). -/
def unsetLevel (map : Table κ (List ℤ)) (key : κ) (prio : ℤ) : Table κ (List ℤ) :=
  match map.lookup key with
  | none => map
  | some prios =>
    if dropKey id prio prios = [] then map.erase key
    else map.insert key (dropKey id prio prios)

end Indexes

/-- `_by_device[dev]`. -/
def deviceEntry (map : Table ℤ (List (ℤ × List ℕ))) (dev : ℤ) : Table ℤ (List (ℤ × List ℕ)) :=
  map.insert dev ((map.lookup dev).getD [])

/-- `_by_device[dev][prio]`, for a device that is there. -/
def deviceBucket (map : Table ℤ (List (ℤ × List ℕ))) (dev prio : ℤ) :
    Table ℤ (List (ℤ × List ℕ)) :=
  map.insert dev (emplace Prod.fst (prio, []) ((map.lookup dev).getD []))

/-- `dlist.push_back(&n)`, for a bucket that is there. -/
def devicePush (map : Table ℤ (List (ℤ × List ℕ))) (dev prio : ℤ) (id : ℕ) :
    Table ℤ (List (ℤ × List ℕ)) :=
  map.insert dev
    (change Prod.fst prio (fun b => (b.1, b.2 ++ [id])) ((map.lookup dev).getD []))

/-- What is left of a device after its buckets changed: an empty device is erased. -/
def storeDevice (map : Table ℤ (List (ℤ × List ℕ))) (dev : ℤ) (buckets : List (ℤ × List ℕ)) :
    Table ℤ (List (ℤ × List ℕ)) :=
  if buckets = [] then map.erase dev else map.insert dev buckets

/-- `erase_from_device` (lines 640–655), at the iterator of node `id`. -/
def eraseFromDevice (map : Table ℤ (List (ℤ × List ℕ))) (dev prio : ℤ) (id : ℕ) :
    Option (Table ℤ (List (ℤ × List ℕ))) := do
  let buckets ← map.lookup dev
  let bucket ← seek Prod.fst prio buckets
  if id ∈ bucket.2 then
    let left := bucket.2.erase id
    pure <| storeDevice map dev <|
      if left = [] then dropKey Prod.fst prio buckets
      else change Prod.fst prio (fun b => (b.1, left)) buckets
  else none

/-- `prune_empty_device` (lines 658–665). -/
def pruneEmptyDevice (map : Table ℤ (List (ℤ × List ℕ))) (dev prio : ℤ) :
    Table ℤ (List (ℤ × List ℕ)) :=
  match map.lookup dev with
  | none => map
  | some buckets =>
    match seek Prod.fst prio buckets with
    | none => storeDevice map dev buckets
    | some bucket =>
      storeDevice map dev (if bucket.2 = [] then dropKey Prod.fst prio buckets else buckets)

/-! ## Push -/

/-- Where a push can throw. -/
inductive PushStage where
  | extract
  | level
  | operatorEntry
  | operatorInsert
  | queryEntry
  | queryInsert
  | node
  | deviceEntry
  | deviceBucket
  | devicePush
  deriving DecidableEq, Repr

/-- The updates of the `try` block of `try_push` (lines 206–226), each with the stage at which it
    can throw. After the last one nothing throws. -/
def pushUpdates (keys : IndexKeys O) (newLevel : Bool) (task : Task) (id : ℕ) :
    List (PushStage × (Queue O Task → Queue O Task)) :=
  (if newLevel then
    [(.operatorEntry, fun q =>
        { q with operatorLevels := levelEntry q.operatorLevels keys.operatorType }),
      (.operatorInsert, fun q =>
        { q with operatorLevels := levelInsert q.operatorLevels keys.operatorType keys.priority }),
      (.queryEntry, fun q => { q with queryLevels := levelEntry q.queryLevels keys.queryId }),
      (.queryInsert, fun q =>
        { q with queryLevels := levelInsert q.queryLevels keys.queryId keys.priority })]
  else []) ++
  [(.node, fun q =>
      { q with
        levels := change Prod.fst keys.priority
          (fun e => (e.1, { e.2 with tasks := e.2.tasks ++ [⟨id, keys, task⟩] })) q.levels
        nextId := id + 1 }),
    (.deviceEntry, fun q => { q with byDevice := deviceEntry q.byDevice keys.deviceId }),
    (.deviceBucket, fun q =>
      { q with byDevice := deviceBucket q.byDevice keys.deviceId keys.priority }),
    (.devicePush, fun q =>
      { q with
        byDevice := devicePush q.byDevice keys.deviceId keys.priority id
        size := q.size + 1 })]

/-- The `catch` block (lines 228–241). A push never throws once its device entry was added. -/
def rollback (keys : IndexKeys O) (newLevel nodeAdded : Bool) (q : Queue O Task) :
    Queue O Task :=
  let q := { q with byDevice := pruneEmptyDevice q.byDevice keys.deviceId keys.priority }
  let q := if nodeAdded then
      { q with
        levels := change Prod.fst keys.priority
          (fun e => (e.1, { e.2 with tasks := e.2.tasks.dropLast })) q.levels }
    else q
  if newLevel then
    { q with
      operatorLevels := unsetLevel q.operatorLevels keys.operatorType keys.priority
      queryLevels := unsetLevel q.queryLevels keys.queryId keys.priority
      levels := dropKey Prod.fst keys.priority q.levels }
  else q

inductive PushOutcome where
  | pushed
  | refused
  | threw
  deriving DecidableEq, Repr

/-- `new_level` (line 195). -/
def isNewLevel (keys : IndexKeys O) (q : Queue O Task) : Bool :=
  (seek Prod.fst keys.priority q.levels).isNone

/-- Emplace the level, if it is new (lines 196–198). -/
def openLevel (keys : IndexKeys O) (q : Queue O Task) : Queue O Task :=
  if isNewLevel keys q then
    { q with
      levels := emplace Prod.fst (keys.priority, ⟨keys.queryId, keys.operatorType, []⟩) q.levels }
  else q

/-- `try_push` (lines 186–245), with the stage at which it throws, if it does. A stage that is
    not run does not throw. -/
def tryPush (extract : Task → IndexKeys O) (fault : Option PushStage) (task : Task)
    (q : Queue O Task) : PushOutcome × Queue O Task :=
  if fault = some .extract then (.threw, q)
  else
    let keys := extract task
    if !q.active then (.refused, q)
    else
      let newLevel := isNewLevel keys q
      if newLevel ∧ fault = some .level then (.threw, q)
      else
        let updates := pushUpdates keys newLevel task q.nextId
        let done := updates.takeWhile fun u => fault ≠ some u.1
        let q' := done.foldl (fun q u => u.2 q) (openLevel keys q)
        if done.length = updates.length then (.pushed, q')
        else (.threw, rollback keys newLevel (done.any fun u => u.1 = .node) q')

/-! ## Taking a task out -/

/-- `remove_level` (lines 615–621). -/
def removeLevel (prio : ℤ) (lv : Level O Task) (q : Queue O Task) : Queue O Task :=
  { q with
    operatorLevels := unsetLevel q.operatorLevels lv.op prio
    queryLevels := unsetLevel q.queryLevels lv.qid prio
    levels := dropKey Prod.fst prio q.levels }

/-- `extract_node` (lines 555–570). -/
def extractNode (id : ℕ) (q : Queue O Task) : Option (Task × Queue O Task) := do
  let n ← q.deref id
  let prio := n.keys.priority
  let lit ← seek Prod.fst prio q.levels
  let byDevice ← eraseFromDevice q.byDevice n.keys.deviceId prio id
  if ∃ m ∈ lit.2.tasks, m.id = id then
    let tasks := lit.2.tasks.filter fun m => m.id ≠ id
    let q := { q with
      byDevice := byDevice
      levels := change Prod.fst prio (fun e => (e.1, { e.2 with tasks := tasks })) q.levels
      size := q.size - 1 }
    pure (n.task, if tasks = [] then removeLevel prio lit.2 q else q)
  else none

/-- The front or the back of a list. -/
def endOf (front : Bool) {α : Type} (l : List α) : Option α :=
  if front then l.head? else l.getLast?

/-- The indexes of the queue, with the key that is looked for. -/
inductive Index (O : Type) where
  | global
  | operator (value : O)
  | query (value : ℕ)
  | gpu (id : ℤ)
  deriving DecidableEq, Repr

/-- `level_end_node` (lines 608–612). -/
def levelEndNode (q : Queue O Task) (prio : ℤ) (front : Bool) : Option ℕ := do
  let lit ← seek Prod.fst prio q.levels
  let n ← endOf front lit.2.tasks
  pure n.id

/-- The node that `pop_from_levels` extracts (lines 574–581). -/
def endOfLevels (q : Queue O Task) (prios : Option (List ℤ)) (front : Bool) :
    Option (Option ℕ) :=
  match prios.bind fun prios => endOf front prios with
  | none => some none
  | some prio => (levelEndNode q prio front).map some

/-- The node that `try_pop`, `try_pop_back`, `pop_from_levels` and `pop_from_device` extract. -/
def endNode (q : Queue O Task) (front : Bool) : Index O → Option (Option ℕ)
  | .global =>
    match endOf front q.levels with
    | none => some none
    | some e => (endOf front e.2.tasks).map fun n => some n.id
  | .operator k => endOfLevels q (q.operatorLevels.lookup k) front
  | .query k => endOfLevels q (q.queryLevels.lookup k) front
  | .gpu dev =>
    match (q.byDevice.lookup dev).bind fun buckets => endOf front buckets with
    | none => some none
    | some b => (endOf front b.2).map some

/-- `extract_node` of the node that was found, if one was. -/
def extractFound (q : Queue O Task) : Option ℕ → Option (Option Task × Queue O Task)
  | none => some (none, q)
  | some id => (extractNode id q).map fun r => (some r.1, r.2)

/-- `try_pop`, `try_pop_back`, `try_pop_from` and `try_pop_back_from` (lines 285–325). -/
def tryPop (idx : Index O) (front : Bool) (q : Queue O Task) :
    Option (Option Task × Queue O Task) :=
  (endNode q front idx).bind (extractFound q)

/-- `find_in_list` (lines 584–591). -/
def findInList (pred : Task → Bool) (tasks : List (Node O Task)) : Option ℕ :=
  (tasks.find? fun n => pred n.task).map Node.id

/-- The loop of `pop_if_in_levels` (lines 600–602). -/
def scanLevels (q : Queue O Task) (pred : Task → Bool) : List ℤ → Option (Option ℕ)
  | [] => some none
  | prio :: prios => do
    let lit ← seek Prod.fst prio q.levels
    match findInList pred lit.2.tasks with
    | some id => some (some id)
    | none => scanLevels q pred prios

/-- The loops of `try_pop_if` over the buckets of a device (lines 365–369). -/
def scanBuckets (q : Queue O Task) (pred : Task → Bool) : List ℕ → Option (Option ℕ)
  | [] => some none
  | id :: ids => do
    let n ← q.deref id
    if pred n.task then some (some id) else scanBuckets q pred ids

/-- The node that `try_pop_if` extracts (lines 334–372). -/
def findIf (q : Queue O Task) (pred : Task → Bool) : Index O → Option (Option ℕ)
  | .global => some (q.levels.findSome? fun e => findInList pred e.2.tasks)
  | .operator k => scanLevels q pred ((q.operatorLevels.lookup k).getD [])
  | .query k => scanLevels q pred ((q.queryLevels.lookup k).getD [])
  | .gpu dev => scanBuckets q pred (((q.byDevice.lookup dev).getD []).flatMap Prod.snd)

def tryPopIf (idx : Index O) (pred : Task → Bool) (q : Queue O Task) :
    Option (Option Task × Queue O Task) :=
  (findIf q pred idx).bind (extractFound q)

/-- Call `pred` on the tasks in turn, until it answers `true`. It may change each task that it
    is called on. -/
def visit (pred : Task → Bool × Task) : List (Node O Task) → List (Node O Task) × Option ℕ
  | [] => ([], none)
  | n :: rest =>
    let n' := { n with task := (pred n.task).2 }
    if (pred n.task).1 then (n' :: rest, some n.id)
    else (n' :: (visit pred rest).1, (visit pred rest).2)

/-- Walk a list backwards. -/
def backwards {α β : Type} (f : List α → List α × β) (l : List α) : List α × β :=
  ((f l.reverse).1.reverse, (f l.reverse).2)

/-- The levels in turn, until a node was found. -/
def visitLevels (visitTasks : List (Node O Task) → List (Node O Task) × Option ℕ) :
    List (Rung O Task) → List (Rung O Task) × Option ℕ
  | [] => ([], none)
  | e :: rest =>
    let e' := (e.1, { e.2 with tasks := (visitTasks e.2.tasks).1 })
    match (visitTasks e.2.tasks).2 with
    | some id => (e' :: rest, some id)
    | none => (e' :: (visitLevels visitTasks rest).1, (visitLevels visitTasks rest).2)

/-- `mutable_pop_if` (lines 382–402). -/
def mutablePopIf (pred : Task → Bool × Task) (frontToBack : Bool) (q : Queue O Task) :
    Option (Option Task × Queue O Task) :=
  let r := if frontToBack then visitLevels (visit pred) q.levels
    else backwards (visitLevels (backwards (visit pred))) q.levels
  extractFound { q with levels := r.1 } r.2

/-! ## Drain and sizes -/

/-- `drain()` (lines 428–439). -/
def drain (q : Queue O Task) : Queue O Task :=
  { q with levels := [], queryLevels := ∅, operatorLevels := ∅, byDevice := ∅, size := 0 }

/-- Take the nodes of a level out of the device index. -/
def forgetDevices (prio : ℤ) :
    List (Node O Task) → Table ℤ (List (ℤ × List ℕ)) → Option (Table ℤ (List (ℤ × List ℕ)))
  | [], map => some map
  | n :: rest, map => (eraseFromDevice map n.keys.deviceId prio n.id).bind (forgetDevices prio rest)

/-- The loop of `drain(query_index)` (lines 448–458). Each pass removes a level, so `passes` is
    no limit when it is more than their number. -/
def drainLoop (key : ℕ) : ℕ → Queue O Task → Option (Queue O Task)
  | 0, _ => none
  | passes + 1, q =>
    match q.queryLevels.lookup key with
    | none => some q
    | some prios => do
      let prio ← prios.head?
      let lit ← seek Prod.fst prio q.levels
      let byDevice ← forgetDevices prio lit.2.tasks q.byDevice
      drainLoop key passes
        (removeLevel prio lit.2
          { q with byDevice := byDevice, size := q.size - lit.2.tasks.length })

def drainQuery (key : ℕ) (q : Queue O Task) : Option (Queue O Task) :=
  drainLoop key (q.levels.length + 1) q

/-- `sum_levels` (lines 678–685). -/
def sumLevels (q : Queue O Task) : List ℤ → Option ℕ
  | [] => some 0
  | prio :: prios => do
    let lit ← seek Prod.fst prio q.levels
    let total ← sumLevels q prios
    pure (lit.2.tasks.length + total)

/-- `size()` and `size(idx)` (lines 473–501). -/
def sizeOf (q : Queue O Task) : Index O → Option ℕ
  | .global => some q.size
  | .operator k => sumLevels q ((q.operatorLevels.lookup k).getD [])
  | .query k => sumLevels q ((q.queryLevels.lookup k).getD [])
  | .gpu dev => some (((q.byDevice.lookup dev).getD []).map fun b => b.2.length).sum

/-- `operator_bucket_count`, `query_bucket_count` and `device_bucket_count`. -/
def bucketCounts (q : Queue O Task) : ℕ × ℕ × ℕ :=
  (q.operatorLevels.size, q.queryLevels.size, q.byDevice.size)

/-! ## Operations -/

/-- The operations, with the stage at which a push throws. `pop` and `popBack` are the blocking
    pops from either end. -/
inductive Op (O Task : Type) where
  | push (task : Task) (fault : Option PushStage)
  | pop (front : Bool)
  | tryPop (idx : Index O) (front : Bool)
  | tryPopIf (idx : Index O) (pred : Task → Bool)
  | mutablePopIf (pred : Task → Bool × Task) (frontToBack : Bool)
  | drain
  | drainQuery (key : ℕ)
  | wait
  | isOpen
  | empty
  | size (idx : Index O)
  | bucketCounts
  | interrupt
  | reactivate

/-- What an operation returned. A `blocked` call is still waiting. -/
inductive Reply (Task : Type) where
  | push (outcome : PushOutcome)
  | task (result : Option Task)
  | blocked
  | done
  | flag (answer : Bool)
  | count (n : ℕ)
  | counts (n : ℕ × ℕ × ℕ)
  deriving DecidableEq, Repr

/-- A pop that found a task or `nullopt`. -/
def popped : Option Task × Queue O Task → Queue O Task × Reply Task := fun r => (r.2, .task r.1)

/-- One operation. -/
def step (extract : Task → IndexKeys O) (q : Queue O Task) :
    Op O Task → Option (Queue O Task × Reply Task)
  | .push task fault =>
    let r := tryPush extract fault task q
    some (r.2, .push r.1)
  | .pop front =>
    if q.levels = [] ∧ q.active then some (q, .blocked)
    else (tryPop .global front q).map popped
  | .tryPop idx front => (tryPop idx front q).map popped
  | .tryPopIf idx pred => (tryPopIf idx pred q).map popped
  | .mutablePopIf pred frontToBack => (mutablePopIf pred frontToBack q).map popped
  | .drain => some (drain q, .done)
  | .drainQuery key => (drainQuery key q).map fun q => (q, .done)
  | .wait =>
    if q.levels = [] ∧ q.active then some (q, .blocked) else some (q, .flag (!q.levels.isEmpty))
  | .isOpen => some (q, .flag q.active)
  | .empty => some (q, .flag q.levels.isEmpty)
  | .size idx => (sizeOf q idx).map fun n => (q, .count n)
  | .bucketCounts => some (q, .counts (bucketCounts q))
  | .interrupt => some ({ q with active := false }, .done)
  | .reactivate => some ({ q with active := true }, .done)

/-- A list of operations, with what they returned. -/
def runOps (extract : Task → IndexKeys O) :
    Queue O Task → List (Op O Task) → Option (Queue O Task × List (Reply Task))
  | q, [] => some (q, [])
  | q, op :: ops => do
    let r ← step extract q op
    let rest ← runOps extract r.1 ops
    pure (rest.1, r.2 :: rest.2)

end Sirius.Exec.MultiIndex
