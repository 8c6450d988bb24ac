import Sirius.Common.Actors
import Sirius.Common.Trace

/-!
# When a pipeline is finished

A pipeline of `pipeline/sirius_pipeline.cpp` is finished by `update_pipeline_status`, called when a
task is destroyed, when a creation worker (`creator/task_creator.cpp`) is done with the pipeline,
when a pipeline before it is finished and when the manager looks again. A worker pops the input of a
task and constructs the task under a guard, during which the status is not evaluated.

* `move`, `step`: pushes, workers, tasks and status updates, one at a time.
* `Sound`: a finished pipeline is exhausted and has no task, and one that can be finished is looked
  at again.
* `finish_contract`: every interleaving in which no limit finishes a pipeline that has input left.
* `closure_published_by_finisher`: every interleaving.
-/

namespace Sirius.Exec.PipelineFinish

open Sirius.Common

/-! ## Pipelines -/

/-- What a port gets its batches from. -/
inductive Feed where
  | pipeline (upstream : ℕ)
  | connector
  | nothing
  deriving DecidableEq

/-- A port of the source or of the first operator, and whether creation workers pop it. -/
structure Port where
  feed : Feed
  popped : Bool := true
  deriving DecidableEq

/-- The pipelines by number. The consumers of a pipeline are its parents
    (`setup_pipeline_parents`), and `global` says whether the query has a global state for the
    node whose tasks the pipeline runs. -/
structure Graph where
  ports : ℕ → List Port
  parents : ℕ → List ℕ
  global : ℕ → Bool := fun _ => true
  wired : ∀ p q, (∃ port ∈ ports p, port.feed = .pipeline q) → p ∈ parents q

/-- A pipeline with the batches at its ports, the connectors that are closed, and the tasks that
    exist. The repository of a port is outside this code: it is taken to hand out each batch once,
    so that a count of batches stands for it. -/
structure Pipeline where
  finished : Bool := false
  published : ℕ := 0
  created : ℕ := 0
  completed : ℕ := 0
  alive : ℕ := 0
  creationActive : Bool := false
  limitExhausted : Bool := false
  depth : ℕ → ℕ := fun _ => 0
  closed : ℕ → Bool := fun _ => false

/-- How far a creation worker is with its next task. -/
inductive Stage where
  | looping
  | guarded
  | holding
  | constructed
  deriving DecidableEq

inductive Worker where
  | on (p : ℕ) (lookahead : Bool) (stage : Stage)
  | done
  deriving DecidableEq

/-- What a call has yet to do. -/
inductive Todo where
  | update (p : ℕ)
  | publish (p : ℕ)
  deriving DecidableEq

/-- `due` marks the pipelines whose finish condition holds since a task was destroyed, a worker was
    done or a pipeline before them was finished. -/
structure System where
  pipe : ℕ → Pipeline := fun _ => {}
  workers : List Worker := []
  calls : List (List Todo) := []
  due : ℕ → Bool := fun _ => false

variable {g : Graph} {s s' : System} {p q k i : ℕ}

/-- `is_source_pipeline_finished` and `is_closed`, for one port. -/
def Feed.over (s : System) (p k : ℕ) : Feed → Bool
  | .pipeline q => (s.pipe q).finished
  | .connector => (s.pipe p).closed k
  | .nothing => true

/-- The source and the first operator are exhausted and empty (lines 415-418). -/
def exhausted (g : Graph) (s : System) (p : ℕ) : Bool :=
  (g.ports p).zipIdx.all fun x => x.1.feed.over s p x.2 && decide ((s.pipe p).depth x.2 = 0)

/-- The finish condition (lines 401-419). -/
def condition (g : Graph) (s : System) (p : ℕ) : Bool :=
  ((s.pipe p).limitExhausted || exhausted g s p) &&
    decide ((s.pipe p).created = (s.pipe p).completed)

/-! ## Steps -/

def System.set (s : System) (p : ℕ) (f : Pipeline → Pipeline) : System :=
  { s with pipe := Function.update s.pipe p (f (s.pipe p)) }

def System.setWorker (s : System) (i : ℕ) (w : Worker) : System :=
  { s with workers := s.workers.set i w }

def System.call (s : System) (todo : List Todo) : System := { s with calls := s.calls ++ [todo] }

/-- The ports that a worker pops hold no batch (`all_ports_empty`). -/
def nodeEmpty (g : Graph) (s : System) (p : ℕ) : Bool :=
  (g.ports p).zipIdx.all fun x => !x.1.popped || decide ((s.pipe p).depth x.2 = 0)

/-- One batch of each port (`get_next_task_input_data`). -/
def Pipeline.pop (ports : List Port) (pl : Pipeline) : Pipeline :=
  { pl with depth := fun k => if ports[k]?.any (·.popped) then pl.depth k - 1 else pl.depth k }

/-- A worker is done with its pipeline, whose status it updates (line 870). -/
def System.exit (s : System) (i p : ℕ) : System := (s.setWorker i .done).call [.update p]

/-- The pipelines behind a pipeline. -/
def fedBy (g : Graph) (q : ℕ) : ℕ → Bool :=
  fun p => (g.ports p).any fun port => port.feed = .pipeline q

def nowhere : ℕ → Bool := fun _ => false

/-- The loop of a creation worker (lines 705-862), and the pipeline that it is done with. -/
def work (g : Graph) (s : System) (i : ℕ) : Option (System × (ℕ → Bool)) :=
  match s.workers[i]? with
  | some (.on p lookahead .looping) =>
    if nodeEmpty g s p then some (s.exit i p, (· == p))
    else if (s.pipe p).creationActive then none
    else some ((s.set p fun pl => { pl with creationActive := true }).setWorker i
      (.on p lookahead .guarded), nowhere)
  | some (.on p lookahead .guarded) =>
    if nodeEmpty g s p then
      some ((s.set p fun pl => { pl with creationActive := false }).exit i p, (· == p))
    else some ((s.set p (Pipeline.pop (g.ports p))).setWorker i (.on p lookahead .holding), nowhere)
  | some (.on p lookahead .holding) =>
    if g.global p then
      some ((s.set p fun pl =>
        { pl with created := pl.created + 1, alive := pl.alive + 1 }).setWorker
        i (.on p lookahead .constructed), nowhere)
    -- what was popped is gone
    else some ((s.set p fun pl => { pl with creationActive := false }).exit i p, (· == p))
  | some (.on p lookahead .constructed) =>
    let s := s.set p fun pl => { pl with creationActive := false }
    if lookahead then some (s.exit i p, (· == p))
    else some (s.setWorker i (.on p lookahead .looping), nowhere)
  | _ => none

/-- The update of a status finishes the pipeline (lines 383-432). -/
def finishes (g : Graph) (s : System) (p : ℕ) : Bool :=
  !(s.pipe p).creationActive && !(s.pipe p).finished && condition g s p

/-- A call goes on: `update_pipeline_status` (lines 373-455) with the closure and the pipelines
    behind that it goes on to. -/
def callStep (g : Graph) (s : System) (i : ℕ) : Option (System × (ℕ → Bool)) :=
  match s.calls[i]? with
  | some (.publish p :: rest) =>
    some ({ s.set p fun pl => { pl with published := pl.published + 1 } with
      calls := s.calls.set i rest }, nowhere)
  | some (.update p :: rest) =>
    let notify := (g.parents p).map Todo.update ++ rest
    if finishes g s p then
      some ({ s.set p fun pl => { pl with finished := true } with
        calls := s.calls.set i (.publish p :: notify) }, fedBy g p)
    else if (s.pipe p).finished && !(s.pipe p).creationActive then
      some ({ s with calls := s.calls.set i notify }, nowhere)
    else some ({ s with calls := s.calls.set i rest }, nowhere)
  | _ => none

/-- A batch can come to a port as long as a task of the pipeline before exists, or the connector is
    open. -/
def Feed.open (s : System) (p k : ℕ) : Feed → Bool
  | .pipeline q => decide (0 < (s.pipe q).alive)
  | .connector => !(s.pipe p).closed k
  | .nothing => false

/-- A step of a request, of a worker, of a source, of a task or of a call. -/
inductive Act where
  | request (p : ℕ) (lookahead : Bool)
  | worker (i : ℕ)
  | push (p k : ℕ)
  | close (p k : ℕ)
  | exhaustLimit (p : ℕ)
  | destroy (p : ℕ)
  | recheck (p : ℕ)
  | call (i : ℕ)
  deriving DecidableEq

/-- A step, and the pipelines on which it may have made the finish condition true. -/
def move (g : Graph) (s : System) : Act → Option (System × (ℕ → Bool))
  | .request p lookahead =>
    some ({ s with workers := s.workers ++ [Worker.on p lookahead .looping] }, nowhere)
  | .worker i => work g s i
  | .push p k =>
    if (g.ports p)[k]?.any (·.feed.open s p k) then
      some (s.set p fun pl =>
        { pl with depth := Function.update pl.depth k (pl.depth k + 1) }, nowhere)
    else none
  | .close p k =>
    some (s.set p fun pl => { pl with closed := Function.update pl.closed k true }, nowhere)
  | .exhaustLimit p =>
    if 0 < (s.pipe p).alive then
      some (s.set p fun pl => { pl with limitExhausted := true }, nowhere)
    else none
  | .destroy p =>
    if 0 < (s.pipe p).alive then
      some ((s.set p fun pl =>
        { pl with completed := pl.completed + 1, alive := pl.alive - 1 }).call [.update p],
        (· == p))
    else none
  | .recheck p => some (s.call [.update p], nowhere)
  | .call i => callStep g s i

/-- One step, after which the conditions that it made true are due. -/
def step (g : Graph) (s : System) (act : Act) : Option System :=
  (move g s act).map fun x =>
    { x.1 with due := fun p => condition g x.1 p && (x.2 p || s.due p) }

def System.after (s : System) (p : ℕ) (pl : Pipeline) (workers : List Worker)
    (calls : List (List Todo)) : System :=
  { s with pipe := Function.update s.pipe p pl, workers := workers, calls := calls }

/-- What a worker does to its pipeline: it starts or ends its guard, pops, or constructs a task. -/
inductive Worked (g : Graph) (s : System) (p : ℕ) : Stage → Stage → Pipeline → Prop where
  | lock (h : (s.pipe p).creationActive = false) :
    Worked g s p .looping .guarded { s.pipe p with creationActive := true }
  | pop (h : nodeEmpty g s p = false) :
    Worked g s p .guarded .holding ((s.pipe p).pop (g.ports p))
  | construct : Worked g s p .holding .constructed
      { s.pipe p with created := (s.pipe p).created + 1, alive := (s.pipe p).alive + 1 }
  | unlock : Worked g s p .constructed .looping { s.pipe p with creationActive := false }

/-- What a step comes to: a pipeline after it, the workers, the calls and the pipelines to look at.
    An update that finishes a pipeline finishes an exhausted one if the step is `ok`. -/
inductive Effect (g : Graph) (s : System) (ok : Prop) :
    ℕ → Pipeline → List Worker → List (List Todo) → (ℕ → Bool) → Prop where
  /-- A batch comes only to a port that is open. -/
  | quiet (p : ℕ) (limit : Bool) (depth : ℕ → ℕ) (closed : ℕ → Bool)
    (hclosed : ∀ k, (s.pipe p).closed k → closed k)
    (hdepth : ∀ k port, (g.ports p)[k]? = some port → (s.pipe p).depth k = 0 → depth k ≠ 0 →
      port.feed.open s p k) :
    Effect g s ok p { s.pipe p with limitExhausted := limit, depth := depth, closed := closed }
      s.workers s.calls nowhere
  | request (p : ℕ) (lookahead : Bool) :
    Effect g s ok p (s.pipe p) (s.workers ++ [Worker.on p lookahead .looping]) s.calls nowhere
  | worked {i p : ℕ} {lookahead : Bool} {a b : Stage} {pl : Pipeline}
    (hi : s.workers[i]? = some (.on p lookahead a)) (h : Worked g s p a b pl) :
    Effect g s ok p pl (s.workers.set i (.on p lookahead b)) s.calls nowhere
  | exit {i p : ℕ} {lookahead : Bool} {a : Stage} (hi : s.workers[i]? = some (.on p lookahead a)) :
    Effect g s ok p
      { s.pipe p with creationActive := decide (a = .looping) && (s.pipe p).creationActive }
      (s.workers.set i .done) (s.calls ++ [[Todo.update p]]) (· == p)
  | destroy (p : ℕ) (h : 0 < (s.pipe p).alive) :
    Effect g s ok p
      { s.pipe p with completed := (s.pipe p).completed + 1, alive := (s.pipe p).alive - 1 }
      s.workers (s.calls ++ [[Todo.update p]]) (· == p)
  | recheck (p : ℕ) : Effect g s ok p (s.pipe p) s.workers (s.calls ++ [[Todo.update p]]) nowhere
  | publish {i p : ℕ} {rest : List Todo} (hi : s.calls[i]? = some (.publish p :: rest)) :
    Effect g s ok p { s.pipe p with published := (s.pipe p).published + 1 } s.workers
      (s.calls.set i rest) nowhere
  | finish {i p : ℕ} {rest : List Todo} (hi : s.calls[i]? = some (.update p :: rest))
    (h : finishes g s p) (hok : ok → exhausted g s p) :
    Effect g s ok p { s.pipe p with finished := true } s.workers
      (s.calls.set i (.publish p :: ((g.parents p).map .update ++ rest))) (fedBy g p)
  | skip {i p : ℕ} {rest todo : List Todo} (hi : s.calls[i]? = some (.update p :: rest))
    (h : finishes g s p = false)
    (htodo : todo = rest ∨ todo = (g.parents p).map .update ++ rest) :
    Effect g s ok p (s.pipe p) s.workers (s.calls.set i todo) nowhere

variable {ok : Prop} {pl : Pipeline} {workers : List Worker} {calls : List (List Todo)}
  {trig : ℕ → Bool}

/-- A worker counts for a pipeline while it has the guard. -/
def guards (p : ℕ) : Worker → ℕ
  | .on q _ stage => if q = p ∧ stage ≠ .looping then 1 else 0
  | .done => 0

/-- The closures of a pipeline that calls have yet to publish. -/
def owed (calls : List (List Todo)) (p : ℕ) : ℕ := total (List.count (.publish p)) calls

/-- The counters of a pipeline agree with its tasks, with the worker that has its guard and with the
    calls that have yet to publish its closure. -/
structure Ledger (workers : List Worker) (calls : List (List Todo)) (p : ℕ) (pl : Pipeline) :
    Prop where
  counts : pl.created = pl.completed + pl.alive
  guard : total (guards p) workers = pl.creationActive.toNat
  publish : pl.published + owed calls p = pl.finished.toNat

@[simp] theorem owed_call (calls : List (List Todo)) (p q : ℕ) :
    owed (calls ++ [[Todo.update p]]) q = owed calls q := by
  simp [owed]

theorem owed_set {old : List Todo} (hi : s.calls[i]? = some old) (todo : List Todo) (q : ℕ) :
    owed (s.calls.set i todo) q + old.count (.publish q) =
      owed s.calls q + todo.count (.publish q) := total_set hi todo

theorem count_notify (rest : List Todo) :
    ((g.parents p).map Todo.update ++ rest).count (.publish q) = rest.count (.publish q) := by
  rw [List.count_append, List.count_eq_zero.mpr (by simp), zero_add]

theorem owed_skip {rest todo : List Todo} (hi : s.calls[i]? = some (.update p :: rest))
    (htodo : todo = rest ∨ todo = (g.parents p).map .update ++ rest) (q : ℕ) :
    owed (s.calls.set i todo) q = owed s.calls q := by
  have hset := owed_set hi todo q
  obtain rfl | rfl := htodo <;> grind [count_notify]

theorem finishes_iff : finishes g s p ↔ (s.pipe p).creationActive = false ∧
    (s.pipe p).finished = false ∧ condition g s p := by
  simp [finishes, and_assoc]

theorem pipe_after (s : System) (p : ℕ) (pl : Pipeline) (workers : List Worker)
    (calls : List (List Todo)) (q : ℕ) :
    (s.after p pl workers calls).pipe q = if q = p then pl else s.pipe q :=
  Function.update_apply ..

theorem Effect.ledger (he : Effect g s ok p pl workers calls trig)
    (h : Ledger s.workers s.calls q (s.pipe q)) :
    Ledger workers calls q ((s.after p pl workers calls).pipe q) := by
  obtain ⟨hcounts, hguard, hpublish⟩ := h
  rw [pipe_after]
  cases he with
  | quiet => constructor <;> grind
  | request => constructor <;> grind [guards, total_append, total_cons, total_nil]
  | @worked i p lookahead a b _ hi hw =>
    have hset := total_set (w := guards q) hi (.on p lookahead b)
    cases hw <;> constructor <;> grind [guards, Pipeline.pop, Bool.toNat]
  | @exit i p lookahead a hi =>
    have hset := total_set (w := guards q) hi .done
    constructor <;> grind [guards, Bool.toNat, owed_call]
  | destroy | recheck => constructor <;> grind [owed_call]
  | @publish i p rest hi =>
    have hset := owed_set hi rest q
    constructor <;> grind
  | @finish i p rest hi hp hok =>
    have hset := owed_set hi (.publish p :: ((g.parents p).map .update ++ rest)) q
    constructor <;> grind [finishes_iff, count_notify, Bool.toNat]
  | skip hi hp htodo => constructor <;> grind [owed_skip hi htodo]

/-- A pipeline that is finished has no input left, no task and no worker that makes one. -/
def Ended (g : Graph) (s : System) (p : ℕ) : Prop :=
  exhausted g s p ∧ (s.pipe p).alive = 0 ∧ ∀ lookahead, Worker.on p lookahead .holding ∉ s.workers

/-- A pipeline after a step: what is over stays over, and it is finished by an update only. -/
structure Turn (g : Graph) (s : System) (ok : Prop) (p : ℕ) (pl : Pipeline) : Prop where
  finished : (s.pipe p).finished → pl.finished
  closed : ∀ k, (s.pipe p).closed k → pl.closed k
  depth : ∀ k port, (g.ports p)[k]? = some port → (s.pipe p).depth k = 0 → pl.depth k ≠ 0 →
    port.feed.open s p k
  newly : pl.finished → (s.pipe p).finished ∨ finishes g s p ∧ (ok → exhausted g s p)
  created : pl.created = (s.pipe p).created ∧ pl.alive ≤ (s.pipe p).alive ∨
    ∃ lookahead, Worker.on p lookahead .holding ∈ s.workers

theorem Turn.refl : Turn g s ok p (s.pipe p) :=
  ⟨id, fun _ => id, fun _ _ _ h0 hne => absurd h0 hne, .inl, .inl ⟨rfl, le_rfl⟩⟩

theorem Effect.turn (he : Effect g s ok p pl workers calls trig) (q : ℕ) :
    Turn g s ok q ((s.after p pl workers calls).pipe q) := by
  have hsame : Turn g s ok p (s.pipe p) := Turn.refl
  suffices h : Turn g s ok p pl by
    rw [pipe_after]
    split_ifs with hq
    · exact hq ▸ h
    · exact Turn.refl
  cases he with
  | quiet p limit depth closed hclosed hdepth =>
    exact { hsame with closed := hclosed, depth := hdepth }
  | request | recheck | skip => exact hsame
  | @worked i p lookahead a b pl hi hw =>
    cases hw with
    | lock | unlock => exact { hsame with }
    | pop =>
      refine { hsame with depth := fun k port hk h0 hne => absurd ?_ hne }
      simp only [Pipeline.pop, h0, Nat.zero_sub, ite_self]
    | construct => exact { hsame with created := .inr ⟨lookahead, List.mem_of_getElem? hi⟩ }
  | exit | publish => exact { hsame with }
  | destroy => exact { hsame with created := .inl ⟨rfl, Nat.sub_le ..⟩ }
  | finish hi hp hok =>
    exact { hsame with finished := fun _ => rfl, newly := fun _ => .inr ⟨hp, hok⟩ }

theorem Effect.holding (he : Effect g s ok p pl workers calls trig) {lookahead : Bool}
    (h : Worker.on q lookahead .holding ∈ workers) :
    Worker.on q lookahead .holding ∈ s.workers ∨ nodeEmpty g s q = false := by
  cases he with
  | quiet | recheck | skip | destroy | publish | finish => exact .inl h
  | request | exit => grind
  | worked hi hw => cases hw <;> grind

/-- The status of a pipeline is looked at again. -/
def Pending (workers : List Worker) (calls : List (List Todo)) (p : ℕ) : Prop :=
  (∃ todo ∈ calls, Todo.update p ∈ todo) ∨ ∃ lookahead stage, Worker.on p lookahead stage ∈ workers

/-- The invariant. -/
structure Sound (g : Graph) (s : System) : Prop where
  ledger : ∀ p, Ledger s.workers s.calls p (s.pipe p)
  ended : ∀ p, (s.pipe p).finished → Ended g s p
  pending : ∀ p, s.due p → (s.pipe p).finished = false → Pending s.workers s.calls p

theorem sound_init : Sound g {} where
  ledger _ := ⟨rfl, rfl, rfl⟩
  ended := nofun
  pending := nofun

/-- The call that finishes pipeline `p` with this step. -/
def finishedBy (g : Graph) (p : ℕ) (s : System) : Act → List ℕ
  | .call i => if s.calls[i]?.bind List.head? = some (.update p) ∧ finishes g s p then [i] else []
  | _ => []

/-- The call that publishes the closure of pipeline `p` with this step. -/
def publishedBy (p : ℕ) (s : System) : Act → List ℕ
  | .call i => if s.calls[i]?.bind List.head? = some (.publish p) then [i] else []
  | _ => []

/-- The calls that finish pipeline `p` in a run, and those that publish its closure. -/
def finishers (g : Graph) (p : ℕ) (as : List Act) : List ℕ :=
  observed (step g) (finishedBy g p) {} as

def publishers (g : Graph) (p : ℕ) (as : List Act) : List ℕ :=
  observed (step g) (publishedBy p) {} as

/-- What a step is to the finish of pipeline `p`: it finishes `p`, it publishes its closure, or it
    is neither and leaves a call that has yet to publish it where it is. -/
inductive Closes (g : Graph) (p : ℕ) (s s' : System) (act : Act) : Prop where
  | finish {i : ℕ} {t : List Todo} (hfin : finishedBy g p s act = [i])
    (hpub : publishedBy p s act = []) (h : (s.pipe p).finished = false)
    (hfinished : (s'.pipe p).finished = true)
    (hpublished : (s'.pipe p).published = (s.pipe p).published)
    (hi : s'.calls[i]? = some (.publish p :: t))
  | publish {i : ℕ} {rest : List Todo} (hfin : finishedBy g p s act = [])
    (hpub : publishedBy p s act = [i]) (hi : s.calls[i]? = some (.publish p :: rest))
    (hfinished : (s'.pipe p).finished = (s.pipe p).finished)
    (hpublished : (s'.pipe p).published = (s.pipe p).published + 1)
  | other (hfin : finishedBy g p s act = []) (hpub : publishedBy p s act = [])
    (hfinished : (s'.pipe p).finished = (s.pipe p).finished)
    (hpublished : (s'.pipe p).published = (s.pipe p).published)
    (hcalls : ∀ (i : ℕ) (rest : List Todo), s.calls[i]? = some (.publish p :: rest) →
      s'.calls[i]? = some (.publish p :: rest))

/-- A step of a worker, a task or a connector. -/
theorem Closes.quiet {act : Act} (hfin : finishedBy g p s act = [])
    (hpub : publishedBy p s act = []) {pl : Pipeline} (hpipe : s'.pipe = Function.update s.pipe q pl)
    (hfinished : pl.finished = (s.pipe q).finished)
    (hpublished : pl.published = (s.pipe q).published)
    (hcalls : s'.calls = s.calls ∨ s'.calls = s.calls ++ [[Todo.update q]]) :
    Closes g p s s' act := by
  refine .other hfin hpub ?_ ?_ fun i rest hi => ?_
  · rw [hpipe]
    grind [Function.update_apply]
  · rw [hpipe]
    grind [Function.update_apply]
  · obtain hcalls | hcalls := hcalls
    · rwa [hcalls]
    · rw [hcalls, List.getElem?_append_left (List.getElem?_eq_some_iff.mp hi).1, hi]

/-- A pipeline is finished by one call if at all, and its closure is published once, by the call
    that finished it, whose next step that is. -/
structure Closure (g : Graph) (p : ℕ) (as : List Act) (s : System) : Prop where
  finished : (finishers g p as).length = (s.pipe p).finished.toNat
  published : (s.pipe p).published = (publishers g p as).length
  byFinisher : publishers g p as = finishers g p as ∨ publishers g p as = [] ∧
    ∃ i rest, finishers g p as = [i] ∧ s.calls[i]? = some (.publish p :: rest)

end Sirius.Exec.PipelineFinish
