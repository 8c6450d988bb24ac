import Sirius.Common.Checked
import Sirius.Common.Ranking

/-!
# The data flow between pipelines

Model of `pipeline_dag` and `pf_dag` (src/planner/query_index.cpp:32-107, 149-202): the edges from
the pipelines to those that they feed, each with the barrier of the port that it enters. The two
maps of the code are the edges of one list here, in the order in which they are found.

* `Plan`: the pipelines of a query and what the index reads of them.
* `buildDag`, `buildPfDag`: the edges.
* `Feeds`: the relation between a pipeline and the one that it feeds.
-/

namespace Sirius.Planner.PipelineDag

open Sirius.Common

/-! ## Plans -/

/-- `MemoryBarrierType`. -/
inductive Barrier where
  | pipeline
  | partialBarrier
  | full
  deriving DecidableEq, Repr

/-- `SiriusPhysicalOperatorType`, as far as the index distinguishes it. -/
inductive OperatorType where
  | gpuScan
  | hashJoin
  | other (n : ℕ)
  deriving DecidableEq, Repr

variable {α : Type} [DecidableEq α]

/-- `sirius_physical_operator`, with its pipeline (`none` for the null pointer) and its ports. A
    port may be there and be null. -/
structure Operator (α : Type) where
  operatorId : ℕ
  type : OperatorType
  pipeline : Option α
  ports : List (String × Option Barrier)
  deriving DecidableEq, Repr

/-- `get_port(port_id)` throws when the operator has no such port
    (src/op/sirius_physical_operator.cpp:324-333). -/
def Operator.getPort (op : Operator α) (name : String) : Except String (Option Barrier) :=
  match op.ports.lookup name with
  | some port => .ok port
  | none => .error "Port not found in operator"

/-- `next_port_info`. -/
structure NextPort (α : Type) where
  nextOperator : Option (Operator α)
  portName : String
  deriving DecidableEq, Repr

/-- The pipelines of a query, in execution order, and what the index reads of one. -/
structure Plan (α : Type) where
  pipelines : List (Option α)
  nextPorts : α → List (NextPort α)
  source : α → Option (Operator α)
  operators : α → List (Operator α)
  pipelineId : α → ℕ

/-- The pipelines that are there. -/
def Plan.nodes (plan : Plan α) : List α := plan.pipelines.filterMap id

/-! ## Edges -/

/-- An edge between two pipelines (`dag_edge`, `pf_edge`). -/
structure Edge (α : Type) where
  producer : α
  consumer : α
  barrier : Barrier
  consumerOp : Operator α
  deriving DecidableEq, Repr

/-- `kHashJoinBuildPort`. -/
def hashJoinBuildPort : String := "build"

/-- The edge of one next-port, or none (lines 86–103). -/
def edgeOf (probeAsPipeline : Bool) (producer : α) (next : NextPort α) :
    Except String (Option (Edge α)) :=
  match next.nextOperator with
  | none => .ok none
  | some op =>
    match op.pipeline with
    | none => .ok none
    | some consumer =>
      if consumer = producer then .ok none
      else (op.getPort next.portName).map fun port =>
        let barrier := port.getD .full
        let barrier :=
          if probeAsPipeline && op.type = .hashJoin && next.portName ≠ hashJoinBuildPort then
            .pipeline
          else barrier
        some { producer := producer, consumer := consumer, barrier := barrier, consumerOp := op }

/-- The edges of the pipelines, in order. -/
def edgesOf (plan : Plan α) (probeAsPipeline : Bool) (pipelines : List α) :
    Except String (List (Edge α)) := do
  let found ← pipelines.mapM fun producer =>
    (plan.nextPorts producer).mapM (edgeOf probeAsPipeline producer)
  return found.flatten.filterMap id

/-- `build_dag(pipelines, probe_as_pipeline)` (lines 80–107). -/
def buildDag (plan : Plan α) (probeAsPipeline : Bool) : Except String (List (Edge α)) :=
  edgesOf plan probeAsPipeline plan.nodes

/-- `build_pf_dag(pipelines)` (lines 181–202). -/
def buildPfDag (plan : Plan α) (pipelines : List α) : Except String (List (Edge α)) :=
  edgesOf plan false pipelines

/-- `dag.out(p)`. -/
def out (edges : List (Edge α)) (p : α) : List (Edge α) := edges.filter fun e => e.producer = p

/-- `dag.in(p)`. -/
def incoming (edges : List (Edge α)) (p : α) : List (Edge α) :=
  edges.filter fun e => e.consumer = p

/-! ## The graph -/

/-- The first pipeline feeds the second. -/
def Feeds (edges : List (Edge α)) (p q : α) : Prop :=
  ∃ e ∈ edges, e.producer = p ∧ e.consumer = q

variable {plan : Plan α} {probe : Bool} {edges : List (Edge α)} {pipelines : List α} {p q : α}
  {e : Edge α}

theorem mem_out : e ∈ out edges p ↔ e ∈ edges ∧ e.producer = p := by
  rw [out, List.mem_filter, decide_eq_true_eq]

theorem mem_incoming : e ∈ incoming edges p ↔ e ∈ edges ∧ e.consumer = p := by
  rw [incoming, List.mem_filter, decide_eq_true_eq]

/-- An edge comes from a pipeline of the list and leads to another. -/
theorem edgesOf_spec (h : edgesOf plan probe pipelines = .ok edges) (he : e ∈ edges) :
    e.producer ∈ pipelines ∧ e.consumer ≠ e.producer := by
  obtain ⟨found, hfound, hedges⟩ := bind_eq_ok.mp h
  rw [← Except.ok.inj hedges, List.mem_filterMap] at he
  obtain ⟨edge, hedge, rfl⟩ := he
  obtain ⟨row, hrow, hmem⟩ := List.mem_flatten.mp hedge
  obtain ⟨producer, hproducer, hports⟩ := exists_of_mapM_eq_ok hfound row hrow
  obtain ⟨next, -, hnext⟩ := exists_of_mapM_eq_ok hports _ hmem
  rw [edgeOf] at hnext
  split at hnext
  · cases hnext
  next op _ =>
  split at hnext
  · cases hnext
  next consumer _ =>
  by_cases hne : consumer = producer
  · rw [if_pos hne] at hnext
    cases hnext
  · rw [if_neg hne] at hnext
    cases hport : op.getPort next.portName with
    | error what =>
      rw [hport] at hnext
      cases hnext
    | ok port =>
      rw [hport] at hnext
      cases hnext
      exact ⟨hproducer, hne⟩

omit [DecidableEq α] in
/-- An acyclic graph can be followed upstream only finitely often. -/
theorem wellFounded_feeds (h : Acyclic (Feeds edges)) : WellFounded (Feeds edges) := by
  refine h.wellFounded (edges.map Edge.producer).finite_toSet fun p q ⟨e, he, hp, _⟩ => ?_
  exact hp ▸ List.mem_map_of_mem he

omit [DecidableEq α] in
/-- And downstream. -/
theorem wellFounded_consumers (h : Acyclic (Feeds edges)) :
    WellFounded (Function.swap (Feeds edges)) := by
  have hswap : Acyclic (Function.swap (Feeds edges)) :=
    fun p hp => h p (Relation.transGen_swap.mp hp)
  refine hswap.wellFounded (edges.map Edge.consumer).finite_toSet fun p q ⟨e, he, _, hp⟩ => ?_
  exact hp ▸ List.mem_map_of_mem he

end Sirius.Planner.PipelineDag
