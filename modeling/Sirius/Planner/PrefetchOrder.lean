import Sirius.Common.Traversal
import Sirius.Planner.PipelineDag

/-!
# The order of prefetches

Model of `query_index::prefetching_orders` (src/planner/query_index.cpp:205-253, 313-386): a walk
upstream from the pipelines that feed nothing, and then over all, that emits a step for each scan.
At a fan-in the producers behind a FULL port are visited first.

* `prefetchingOrders`: the steps.
* `visit_visited`: the walk is a traversal; `Emitted`: the steps are those of the scans entered.
* `prefetch_order`: one step for each scan, and the FULL sides before the others.
-/

namespace Sirius.Planner.PipelineDag

open Sirius.Common

variable {α : Type} [DecidableEq α]

/-! ## Steps -/

/-- `scheduling_mode`. -/
inductive SchedulingMode where
  | barrierAll
  | barrierSerial
  | pipeline
  deriving DecidableEq, Repr

/-- `prefetch_step`. -/
structure PrefetchStep (α : Type) where
  scan : Operator α
  branchId : ℕ
  mode : SchedulingMode
  count : ℕ
  deriving DecidableEq, Repr

/-- `is_gpu_scan(o)`. -/
def isGpuScan (op : Operator α) : Bool := op.type = .gpuScan

/-- `scan_of(p)` (lines 211–220). -/
def scanOf (plan : Plan α) (p : α) : Option (Operator α) :=
  match (plan.source p).filter isGpuScan with
  | some source => some source
  | none => (plan.operators p).find? isGpuScan

/-- `is_branch(p)`. -/
def isBranch (edges : List (Edge α)) (p : α) : Bool := (incoming edges p).length > 1

/-- The loop of `classify_scan` (lines 238–253). -/
def classifyFrom (edges : List (Edge α)) (atFirstBranch : Bool) (cur : α) (seen : List α) :
    SchedulingMode × ℕ :=
  if _hseen : cur ∈ seen then (.pipeline, 0)
  else
    match _hout : out edges cur with
    | [] => (.pipeline, 0)
    | edge :: _ =>
      if isBranch edges edge.consumer && edge.barrier = .full then
        (if atFirstBranch then .barrierAll else .barrierSerial, edge.consumerOp.operatorId)
      else
        classifyFrom edges (atFirstBranch && !isBranch edges edge.consumer) edge.consumer
          (cur :: seen)
termination_by ((edges.map Edge.producer).toFinset \ seen.toFinset).card
decreasing_by
  apply Finset.card_lt_card
  have hmem : edge ∈ out edges cur := by
    rw [_hout]
    exact List.mem_cons_self
  rw [Finset.ssubset_iff_of_subset]
  · refine ⟨cur, ?_, by simp⟩
    simpa using ⟨⟨edge, mem_out.mp hmem⟩, _hseen⟩
  · intro x hx
    simp only [Finset.mem_sdiff, List.mem_toFinset, List.mem_cons, not_or] at hx ⊢
    exact ⟨hx.1, hx.2.2⟩

/-- `classify_scan(dag, scan_pipe)`. -/
def classifyScan (edges : List (Edge α)) (p : α) : SchedulingMode × ℕ :=
  classifyFrom edges true p []

/-! ## The walk -/

/-- The order of the producers (lines 355–361). -/
def producerLess (plan : Plan α) (a b : Edge α) : Prop :=
  if (a.barrier = .full) ≠ (b.barrier = .full) then a.barrier = .full
  else plan.pipelineId a.producer < plan.pipelineId b.producer

instance (plan : Plan α) : DecidableRel (producerLess plan) := fun a b => by
  unfold producerLess
  infer_instance

/-- The producers of a pipeline after `std::stable_sort`. -/
def sortedProducers (plan : Plan α) (edges : List (Edge α)) (p : α) : List (Edge α) :=
  (incoming edges p).insertionSort fun a b => ¬ producerLess plan b a

/-- What the walk has collected: `visited`, in the order of insertion, the steps, and the first
    branch. -/
structure Walk (α : Type) where
  visited : List α := []
  steps : List (PrefetchStep α) := []
  firstBranch : Option ℕ := none

/-- What a step is worth (lines 334–346). -/
def stepOf (edges : List (Edge α)) (serialCount : ℕ) (w : Walk α) (p : α) (scan : Operator α) :
    PrefetchStep α :=
  match classifyScan edges p with
  | (.barrierAll, id) => ⟨scan, id, .barrierAll, 2 ^ 64 - 1⟩
  | (.barrierSerial, id) => ⟨scan, id, .barrierSerial, serialCount⟩
  | (.pipeline, _) => ⟨scan, w.firstBranch.getD 0, .pipeline, 1⟩

/-- A pipeline that was not visited is entered (lines 330–353). -/
def Walk.enter (plan : Plan α) (edges : List (Edge α)) (serialCount : ℕ) (w : Walk α) (p : α) :
    Walk α :=
  let visited := w.visited ++ [p]
  match incoming edges p with
  | [] =>
    match scanOf plan p with
    | some scan =>
      { w with visited := visited, steps := w.steps ++ [stepOf edges serialCount w p scan] }
    | none => { w with visited := visited }
  | first :: others =>
    if w.firstBranch.isNone && !others.isEmpty then
      { w with visited := visited, firstBranch := some first.consumerOp.operatorId }
    else { w with visited := visited }

/-- The pipelines that come next in the walk. -/
def upstream (plan : Plan α) (edges : List (Edge α)) : Arrows α where
  next p := (sortedProducers plan edges p).map Edge.producer
  all := (edges.map Edge.producer).toFinset
  next_mem p q hq := by
    obtain ⟨e, he, rfl⟩ := List.mem_map.mp hq
    have hmem := (List.perm_insertionSort _ _).mem_iff.mp he
    exact List.mem_toFinset.mpr (List.mem_map_of_mem (mem_incoming.mp hmem).1)

@[simp] theorem Walk.enter_visited (plan : Plan α) (edges : List (Edge α)) (serialCount : ℕ)
    (w : Walk α) (p : α) : (w.enter plan edges serialCount p).visited = w.visited ++ [p] := by
  rw [Walk.enter]
  split
  · split <;> rfl
  · split_ifs <;> rfl

/-- `visit` on the calls that are pending (lines 330–366). -/
def visit (plan : Plan α) (edges : List (Edge α)) (serialCount : ℕ) (w : Walk α) :
    List α → Walk α
  | [] => w
  | p :: pending =>
    if _h : p ∈ w.visited then visit plan edges serialCount w pending
    else
      visit plan edges serialCount (w.enter plan edges serialCount p)
        ((sortedProducers plan edges p).map Edge.producer ++ pending)
termination_by pending => (((upstream plan edges).unmarked w.visited pending).card, pending.length)
decreasing_by
  · rw [Prod.lex_def]
    rcases ((upstream plan edges).unmarked_skip w.visited pending p).lt_or_eq with hlt | heq
    · exact .inl hlt
    · exact .inr ⟨heq, Nat.lt_succ_self _⟩
  · rw [Walk.enter_visited]
    exact Prod.Lex.left _ _ ((upstream plan edges).unmarked_enter _h)

/-- `prefetching_orders(concat_batch_bytes, scan_task_batch_size)`. -/
def prefetchingOrders (plan : Plan α) (concatBatchBytes scanTaskBatchSize : ℕ) :
    Except String (List (PrefetchStep α)) :=
  if plan.nodes.isEmpty then .ok []
  else do
    let edges ← buildPfDag plan plan.nodes
    let serialCount := max (concatBatchBytes / max scanTaskBatchSize 1) 1
    let roots := plan.nodes.filter fun p => (out edges p).isEmpty
    let walk := visit plan edges serialCount {} roots
    return (visit plan edges serialCount walk plan.nodes).steps

/-! ## The walk is a traversal -/

variable {plan : Plan α} {edges : List (Edge α)} {serialCount : ℕ} {w : Walk α} {pending : List α}
  {p q c s t : α}

theorem visit_visited (plan : Plan α) (edges : List (Edge α)) (serialCount : ℕ) (w : Walk α)
    (pending : List α) : (visit plan edges serialCount w pending).visited =
      traverse (upstream plan edges) w.visited pending := by
  fun_induction visit plan edges serialCount w pending with
  | case1 w => rw [Common.traverse]
  | case2 w p pending hp ih => rw [traverse_skip hp, ih]
  | case3 w p pending hp ih =>
    rw [traverse_enter hp, ih, Walk.enter_visited]
    rfl

/-- A pipeline without producers that reads a scan. -/
def isScanLeaf (plan : Plan α) (edges : List (Edge α)) (p : α) : Bool :=
  (incoming edges p).isEmpty && (scanOf plan p).isSome

/-- The steps are those of the scans that were entered, in order. -/
def Emitted (plan : Plan α) (edges : List (Edge α)) (w : Walk α) : Prop :=
  List.Forall₂ (fun p (step : PrefetchStep α) => scanOf plan p = some step.scan)
    (w.visited.filter (isScanLeaf plan edges)) w.steps

theorem scan_stepOf (edges : List (Edge α)) (serialCount : ℕ) (w : Walk α) (p : α)
    (scan : Operator α) : (stepOf edges serialCount w p scan).scan = scan := by
  rw [stepOf]
  split <;> rfl

theorem Emitted.enter (h : Emitted plan edges w) (serialCount : ℕ) (p : α) :
    Emitted plan edges (w.enter plan edges serialCount p) := by
  rw [Emitted, Walk.enter_visited, List.filter_append]
  cases hproducers : incoming edges p with
  | nil =>
    cases hscan : scanOf plan p with
    | some scan =>
      have hleaf : isScanLeaf plan edges p = true := by simp [isScanLeaf, hproducers, hscan]
      rw [List.filter_cons_of_pos hleaf, List.filter_nil, Walk.enter, hproducers, hscan]
      refine List.rel_append h (.cons ?_ .nil)
      rw [hscan, scan_stepOf]
    | none =>
      have hleaf : ¬ isScanLeaf plan edges p = true := by simp [isScanLeaf, hscan]
      rw [List.filter_cons_of_neg hleaf, List.filter_nil, List.append_nil, Walk.enter, hproducers,
        hscan]
      exact h
  | cons first others =>
    have hleaf : ¬ isScanLeaf plan edges p = true := by simp [isScanLeaf, hproducers]
    rw [List.filter_cons_of_neg hleaf, List.filter_nil, List.append_nil, Walk.enter, hproducers]
    dsimp only
    split_ifs
    · exact h
    · exact h

theorem Emitted.visit (h : Emitted plan edges w) (serialCount : ℕ) (pending : List α) :
    Emitted plan edges (visit plan edges serialCount w pending) := by
  fun_induction PipelineDag.visit plan edges serialCount w pending with
  | case1 w => exact h
  | case2 w p pending hp ih => exact ih h
  | case3 w p pending hp ih => exact ih (h.enter serialCount p)

/-! ## The order at a fan-in -/

theorem pairwise_sortedProducers (plan : Plan α) (edges : List (Edge α)) (c : α) :
    (sortedProducers plan edges c).Pairwise fun a b => ¬ producerLess plan b a := by
  have htotal : Std.Total fun a b : Edge α => ¬ producerLess plan b a := by
    refine ⟨fun a b => ?_⟩
    unfold producerLess
    by_cases ha : a.barrier = .full <;> by_cases hb : b.barrier = .full <;> simp [ha, hb]
    · omega
    · omega
  have htrans : IsTrans (Edge α) fun a b => ¬ producerLess plan b a := by
    refine ⟨fun a b c => ?_⟩
    unfold producerLess
    by_cases ha : a.barrier = .full <;> by_cases hb : b.barrier = .full <;>
      by_cases hc : c.barrier = .full <;> simp [ha, hb, hc]
    · omega
    · omega
  exact List.pairwise_insertionSort _ _

/-- The producers behind a FULL port come first. -/
theorem sortedProducers_eq (plan : Plan α) (edges : List (Edge α)) (c : α) :
    sortedProducers plan edges c =
      (sortedProducers plan edges c).filter (fun e => e.barrier = .full) ++
        (sortedProducers plan edges c).filter (fun e => ¬ e.barrier = .full) := by
  have hsorted := pairwise_sortedProducers plan edges c
  generalize sortedProducers plan edges c = l at hsorted
  induction l with
  | nil => rfl
  | cons e l ih =>
    obtain ⟨hhead, htail⟩ := List.pairwise_cons.mp hsorted
    by_cases hfull : e.barrier = .full
    · rw [List.filter_cons_of_pos (by simpa using hfull),
        List.filter_cons_of_neg (by simpa using hfull), List.cons_append, ← ih htail]
    · have hnone : l.filter (fun e => e.barrier = .full) = [] := by
        rw [List.filter_eq_nil_iff]
        intro x hx hxfull
        refine hhead x hx ?_
        rw [producerLess, if_pos (by simp [hfull, of_decide_eq_true hxfull])]
        exact of_decide_eq_true hxfull
      rw [List.filter_cons_of_neg (by simpa using hfull),
        List.filter_cons_of_pos (by simpa using hfull), hnone, List.nil_append]
      rw [hnone, List.nil_append] at ih
      rw [← ih htail]

theorem mem_sortedProducers {e : Edge α} :
    e ∈ sortedProducers plan edges c ↔ e ∈ edges ∧ e.consumer = c := by
  rw [sortedProducers, (List.perm_insertionSort _ _).mem_iff, mem_incoming]

theorem mem_upstream : p ∈ (upstream plan edges).next q ↔ Feeds edges p q := by
  constructor
  · intro h
    obtain ⟨e, he, rfl⟩ := List.mem_map.mp h
    obtain ⟨hmem, hc⟩ := mem_sortedProducers.mp he
    exact ⟨e, hmem, rfl, hc⟩
  · rintro ⟨e, he, rfl, rfl⟩
    exact List.mem_map_of_mem (mem_sortedProducers.mpr ⟨he, rfl⟩)

/-! ## The pipelines that the walk reaches -/

/-- The pipelines of which nothing else is fed. -/
def rootsOf (nodes : List α) (edges : List (Edge α)) : List α :=
  nodes.filter fun p => (out edges p).isEmpty

/-- Every pipeline feeds at most one other. -/
def OneConsumer (edges : List (Edge α)) : Prop :=
  ∀ e ∈ edges, ∀ f ∈ edges, e.producer = f.producer → e.consumer = f.consumer

theorem transGen_upstream :
    Relation.TransGen (fun a b => b ∈ (upstream plan edges).next a) p q ↔
      Relation.TransGen (Feeds edges) q p := by
  rw [← Relation.transGen_swap]
  refine iff_of_eq (congrArg (fun r => Relation.TransGen r q p) ?_)
  funext a b
  exact propext mem_upstream

theorem reflTransGen_upstream :
    Relation.ReflTransGen (fun a b => b ∈ (upstream plan edges).next a) p q ↔
      Relation.ReflTransGen (Feeds edges) q p := by
  rw [← Relation.reflTransGen_swap]
  refine iff_of_eq (congrArg (fun r => Relation.ReflTransGen r q p) ?_)
  funext a b
  exact propext mem_upstream

theorem forest_upstream (hone : OneConsumer edges) (hacyclic : Acyclic (Feeds edges))
    (nodes : List α) : (upstream plan edges).Forest (rootsOf nodes edges) where
  unique a b q ha hb := by
    obtain ⟨e, he, hq, rfl⟩ := mem_upstream.mp ha
    obtain ⟨f, hf, hq', rfl⟩ := mem_upstream.mp hb
    exact hone e he f hf (hq.trans hq'.symm)
  root r hr a ha := by
    obtain ⟨e, he, hproducer, -⟩ := mem_upstream.mp ha
    have hempty := (List.mem_filter.mp hr).2
    rw [List.isEmpty_iff] at hempty
    have hmem := mem_out.mpr ⟨he, hproducer⟩
    rw [hempty] at hmem
    cases hmem
  acyclic a ha := hacyclic a (transGen_upstream.mp ha)

/-- In an acyclic graph the walk from the roots reaches every pipeline. -/
theorem mem_traverse_roots {nodes : List α} (hclosed : ∀ e ∈ edges, e.consumer ∈ nodes)
    (hacyclic : Acyclic (Feeds edges)) (hp : p ∈ nodes) :
    p ∈ traverse (upstream plan edges) [] (rootsOf nodes edges) := by
  have hall : ClosedUpTo (upstream plan edges) []
      (traverse (upstream plan edges) [] (rootsOf nodes edges)) [] :=
    ClosedUpTo.traverse fun v hv => nomatch hv
  induction p using (wellFounded_consumers hacyclic).induction with
  | _ p ih =>
    cases hout : out edges p with
    | nil => exact mem_traverse (.inr (List.mem_filter.mpr ⟨hp, by rw [hout]; rfl⟩))
    | cons e _ =>
      have hmem : e ∈ out edges p := by
        rw [hout]
        exact List.mem_cons_self
      obtain ⟨he, rfl⟩ := mem_out.mp hmem
      have hfeeds : Feeds edges e.producer e.consumer := ⟨e, he, rfl, rfl⟩
      have hconsumer := ih e.consumer hfeeds (hclosed e he)
      rcases hall _ hconsumer _ (mem_upstream.mpr hfeeds) with h | h | h
      · exact h
      · cases h
      · cases h

/-- What is in a part at the front of a list has a smaller index than what is not. -/
theorem idxOf_lt_of_front {l first : List α} (hfirst : first <+: l) (hs : s ∈ first)
    (ht : t ∉ first) : l.idxOf s < l.idxOf t := by
  obtain ⟨rest, rfl⟩ := hfirst
  rw [List.idxOf_append_of_mem hs, List.idxOf_append_of_notMem ht]
  exact Nat.lt_add_right _ (List.idxOf_lt_length_of_mem hs)

/-! ## The steps -/

/-- The scans of which the steps are emitted, in order. -/
def scanOrder (plan : Plan α) (edges : List (Edge α)) : List α :=
  (traverse (upstream plan edges) (traverse (upstream plan edges) [] (rootsOf plan.nodes edges))
    plan.nodes).filter (isScanLeaf plan edges)

theorem forall₂_scanOrder {concatBatchBytes scanTaskBatchSize : ℕ} {steps : List (PrefetchStep α)}
    (hdag : buildPfDag plan plan.nodes = .ok edges)
    (h : prefetchingOrders plan concatBatchBytes scanTaskBatchSize = .ok steps) :
    List.Forall₂ (fun p (step : PrefetchStep α) => scanOf plan p = some step.scan)
      (scanOrder plan edges) steps := by
  rw [prefetchingOrders] at h
  by_cases hempty : plan.nodes.isEmpty
  · rw [if_pos hempty] at h
    rw [← Except.ok.inj h, scanOrder, List.isEmpty_iff.mp hempty, rootsOf, List.filter_nil,
      Common.traverse, Common.traverse]
    exact .nil
  · rw [if_neg hempty, hdag, ok_bind] at h
    rw [← Except.ok.inj h]
    have hstart : Emitted plan edges ({} : Walk α) := .nil
    have hroots := hstart.visit (max (concatBatchBytes / max scanTaskBatchSize 1) 1)
      (rootsOf plan.nodes edges)
    have hemitted := hroots.visit (max (concatBatchBytes / max scanTaskBatchSize 1) 1) plan.nodes
    rw [Emitted, visit_visited, visit_visited] at hemitted
    exact hemitted

theorem mem_scanOrder (hdag : buildPfDag plan plan.nodes = .ok edges) :
    p ∈ scanOrder plan edges ↔
      p ∈ plan.nodes ∧ incoming edges p = [] ∧ (scanOf plan p).isSome := by
  have hproducers : ∀ a b, b ∈ (upstream plan edges).next a → b ∈ plan.nodes := by
    intro a b hb
    obtain ⟨e, he, rfl, -⟩ := mem_upstream.mp hb
    exact (edgesOf_spec hdag he).1
  have hreached : ∀ x ∈ plan.nodes, ∀ y, Relation.ReflTransGen
      (fun a b => b ∈ (upstream plan edges).next a) x y → y ∈ plan.nodes := by
    intro x hx y hxy
    induction hxy with
    | refl => exact hx
    | tail _ hb _ => exact hproducers _ _ hb
  have hwalk : p ∈ traverse (upstream plan edges) (traverse (upstream plan edges) []
      (rootsOf plan.nodes edges)) plan.nodes ↔ p ∈ plan.nodes := by
    constructor
    · intro h
      rw [← traverse_append] at h
      rcases reached_of_mem_traverse h with h | ⟨x, hx, hxp⟩
      · cases h
      · refine hreached x ?_ p hxp
        rcases List.mem_append.mp hx with hx | hx
        · exact (List.mem_filter.mp hx).1
        · exact hx
    · exact fun h => mem_traverse (.inr h)
  rw [scanOrder, List.mem_filter, hwalk, isScanLeaf, Bool.and_eq_true, List.isEmpty_iff]

/-- At a fan-in what is upstream of a FULL input is entered before what is upstream of other inputs
    only. -/
theorem full_side_first (plan : Plan α) (hclosed : ∀ e ∈ edges, e.consumer ∈ plan.nodes)
    (hacyclic : Acyclic (Feeds edges)) (hone : OneConsumer edges) {e f : Edge α}
    (he : e ∈ incoming edges c) (hf : f ∈ incoming edges c) (hefull : e.barrier = .full)
    (hffull : f.barrier ≠ .full) (hse : Relation.ReflTransGen (Feeds edges) s e.producer)
    (htf : Relation.ReflTransGen (Feeds edges) t f.producer)
    (hnot : ∀ e' ∈ incoming edges c, e'.barrier = .full →
      ¬ Relation.ReflTransGen (Feeds edges) t e'.producer) :
    ∃ first, first <+: traverse (upstream plan edges) [] (rootsOf plan.nodes edges) ∧
      s ∈ first ∧ t ∉ first := by
  have hc : c ∈ plan.nodes := by
    obtain ⟨hmem, rfl⟩ := mem_incoming.mp he
    exact hclosed e hmem
  have hnext : (upstream plan edges).next c =
      ((sortedProducers plan edges c).filter (fun e => e.barrier = .full)).map Edge.producer ++
        ((sortedProducers plan edges c).filter (fun e => ¬ e.barrier = .full)).map
          Edge.producer := by
    rw [← List.map_append, ← sortedProducers_eq]
    rfl
  have hside : ∀ {e : Edge α} {P : Edge α → Prop} [DecidablePred P], e ∈ incoming edges c → P e →
      e.producer ∈ ((sortedProducers plan edges c).filter fun e => P e).map Edge.producer := by
    intro e P _ he hP
    refine List.mem_map_of_mem (List.mem_filter.mpr ⟨?_, decide_eq_true hP⟩)
    exact mem_sortedProducers.mpr (mem_incoming.mp he)
  refine before_of_forest (forest_upstream hone hacyclic plan.nodes)
    (mem_traverse_roots hclosed hacyclic hc) hnext
    ⟨e.producer, hside he hefull, reflTransGen_upstream.mpr hse⟩
    ⟨f.producer, hside hf hffull, reflTransGen_upstream.mpr htf⟩ ?_
  rintro ⟨x, hx, hxt⟩
  obtain ⟨e', he', rfl⟩ := List.mem_map.mp hx
  obtain ⟨hmem, hfull⟩ := List.mem_filter.mp he'
  exact hnot e' (mem_incoming.mpr (mem_sortedProducers.mp hmem)) (of_decide_eq_true hfull)
    (reflTransGen_upstream.mp hxt)

/-- **The order of prefetches.** Whatever the graph, there is exactly one step for each pipeline
    that has no producer and reads a scan, and none for any other. In an acyclic graph where every
    pipeline feeds at most one consumer, at every fan-in the scans upstream of a FULL input come
    before the scans that are upstream of other inputs only. -/
theorem prefetch_order (plan : Plan α) (concatBatchBytes scanTaskBatchSize : ℕ)
    (hdag : buildPfDag plan plan.nodes = .ok edges) :
    ∃ steps scans, prefetchingOrders plan concatBatchBytes scanTaskBatchSize = .ok steps ∧
      List.Forall₂ (fun p (step : PrefetchStep α) => scanOf plan p = some step.scan) scans steps ∧
      scans.Nodup ∧
      (∀ p, p ∈ scans ↔ p ∈ plan.nodes ∧ incoming edges p = [] ∧ (scanOf plan p).isSome) ∧
      ((∀ e ∈ edges, e.consumer ∈ plan.nodes) → Acyclic (Feeds edges) → OneConsumer edges →
        ∀ c, ∀ e ∈ incoming edges c, ∀ f ∈ incoming edges c, e.barrier = .full → f.barrier ≠ .full →
        ∀ s ∈ scans, ∀ t ∈ scans, Relation.ReflTransGen (Feeds edges) s e.producer →
          Relation.ReflTransGen (Feeds edges) t f.producer →
          (∀ e' ∈ incoming edges c, e'.barrier = .full →
            ¬ Relation.ReflTransGen (Feeds edges) t e'.producer) →
          scans.idxOf s < scans.idxOf t) := by
  have hok : ∃ steps, prefetchingOrders plan concatBatchBytes scanTaskBatchSize = .ok steps := by
    rw [prefetchingOrders]
    split_ifs
    · exact ⟨_, rfl⟩
    · rw [hdag]
      exact ⟨_, rfl⟩
  obtain ⟨steps, hsteps⟩ := hok
  refine ⟨steps, scanOrder plan edges, hsteps, forall₂_scanOrder hdag hsteps, ?_,
    fun p => mem_scanOrder hdag, ?_⟩
  · exact (traverse_nodup (traverse_nodup List.nodup_nil)).filter _
  · intro hclosed hacyclic hone c e he f hf hefull hffull s hs t _ hse htf hnot
    have hroots : traverse (upstream plan edges) (traverse (upstream plan edges) []
        (rootsOf plan.nodes edges)) plan.nodes =
        traverse (upstream plan edges) [] (rootsOf plan.nodes edges) :=
      traverse_of_subset fun p hp => mem_traverse_roots hclosed hacyclic hp
    obtain ⟨first, hfirst, hsfirst, htfirst⟩ :=
      full_side_first plan hclosed hacyclic hone he hf hefull hffull hse htf hnot
    have hfront : first.filter (isScanLeaf plan edges) <+: scanOrder plan edges := by
      rw [scanOrder, hroots]
      exact hfirst.filter _
    refine idxOf_lt_of_front hfront ?_ fun h => htfirst (List.mem_filter.mp h).1
    exact List.mem_filter.mpr ⟨hsfirst, (List.mem_filter.mp hs).2⟩

/-- A scan. -/
def scanOperator (id : ℕ) : Operator ℕ :=
  { operatorId := id, type := .gpuScan, pipeline := none, ports := [] }

/-- An operator of a pipeline, with its ports. -/
def portsOperator (id pipeline : ℕ) (ports : List (String × Option Barrier)) : Operator ℕ :=
  { operatorId := id, type := .other 0, pipeline := some pipeline, ports := ports }

/-- Two scans feed a join: the second its FULL port. -/
def buildSideJoin : Operator ℕ :=
  portsOperator 12 2 [("build", some .full), ("default", some .pipeline)]

def buildSidePlan : Plan ℕ where
  pipelines := [some 0, some 1, some 2]
  nextPorts p :=
    if p = 0 then [⟨some buildSideJoin, "default"⟩]
    else if p = 1 then [⟨some buildSideJoin, "build"⟩]
    else []
  source p := if p < 2 then some (scanOperator (10 + p)) else none
  operators _ := []
  pipelineId p := p

def buildSideEdges : List (Edge ℕ) :=
  [⟨0, 2, .pipeline, buildSideJoin⟩, ⟨1, 2, .full, buildSideJoin⟩]

theorem feeds_increases {edges : List (Edge ℕ)} (h : ∀ e ∈ edges, e.producer < e.consumer) :
    Ranks (fun p : ℕ => p) (Feeds edges) := by
  rintro p q ⟨e, he, rfl, rfl⟩
  exact h e he

theorem prefetch_order_buildSidePlan :
    buildPfDag buildSidePlan buildSidePlan.nodes = .ok buildSideEdges ∧
      ∃ steps scans, prefetchingOrders buildSidePlan 0 0 = .ok steps ∧
        List.Forall₂ (fun p step => scanOf buildSidePlan p = some step.scan) scans steps ∧
        scans.idxOf 1 < scans.idxOf 0 := by
  have hdag : buildPfDag buildSidePlan buildSidePlan.nodes = .ok buildSideEdges := rfl
  obtain ⟨steps, scans, hsteps, hscans, -, hmem, horder⟩ := prefetch_order buildSidePlan 0 0 hdag
  refine ⟨hdag, steps, scans, hsteps, hscans, ?_⟩
  have hacyclic := (feeds_increases (by decide : ∀ e ∈ buildSideEdges, _)).acyclic
  have hnot : ¬ Relation.ReflTransGen (Feeds buildSideEdges) 0 1 := by
    intro h
    rcases h.cases_tail with h | ⟨p, -, e, he, -, hq⟩
    · cases h
    · exact (by decide : ∀ e ∈ buildSideEdges, e.consumer ≠ 1) e he hq
  refine horder (by decide) hacyclic (by unfold OneConsumer; decide) 2
    ⟨1, 2, .full, buildSideJoin⟩ (by decide) ⟨0, 2, .pipeline, buildSideJoin⟩ (by decide) rfl
    (by decide) 1 ((hmem 1).mpr (by decide)) 0 ((hmem 0).mpr (by decide)) .refl .refl ?_
  intro e' he' hfull
  have hproducer : ∀ e ∈ incoming buildSideEdges 2, e.barrier = .full → e.producer = 1 := by
    decide
  rw [hproducer e' he' hfull]
  exact hnot

/-- Two scans feed a pipeline, which feeds both a FULL port and another of one consumer. -/
def twoPortsMerge : Operator ℕ :=
  portsOperator 12 2 [("left", some .pipeline), ("right", some .pipeline)]

def twoPortsSink : Operator ℕ :=
  portsOperator 13 3 [("build", some .full), ("default", some .pipeline)]

def twoPortsPlan : Plan ℕ where
  pipelines := [some 0, some 1, some 2, some 3]
  nextPorts p :=
    if p = 0 then [⟨some twoPortsMerge, "left"⟩]
    else if p = 1 then [⟨some twoPortsMerge, "right"⟩]
    else if p = 2 then [⟨some twoPortsSink, "build"⟩, ⟨some twoPortsSink, "default"⟩]
    else []
  source p := if p < 2 then some (scanOperator (10 + p)) else none
  operators _ := []
  pipelineId p := p

def twoPortsEdges : List (Edge ℕ) :=
  [⟨0, 2, .pipeline, twoPortsMerge⟩, ⟨1, 2, .pipeline, twoPortsMerge⟩, ⟨2, 3, .full, twoPortsSink⟩,
    ⟨2, 3, .pipeline, twoPortsSink⟩]

theorem scanOrder_twoPortsPlan : scanOrder twoPortsPlan twoPortsEdges = [0, 1] := by
  have h3 : (upstream twoPortsPlan twoPortsEdges).next 3 = [2, 2] := by rfl
  have h2 : (upstream twoPortsPlan twoPortsEdges).next 2 = [0, 1] := by rfl
  have h1 : (upstream twoPortsPlan twoPortsEdges).next 1 = [] := by rfl
  have h0 : (upstream twoPortsPlan twoPortsEdges).next 0 = [] := by rfl
  have hwalk : traverse (upstream twoPortsPlan twoPortsEdges) []
      (rootsOf twoPortsPlan.nodes twoPortsEdges) = [3, 2, 0, 1] := by
    have hroots : rootsOf twoPortsPlan.nodes twoPortsEdges = [3] := by rfl
    simp [hroots, traverse_enter, traverse_skip, h3, h2, h1, h0, Common.traverse]
  rw [scanOrder, hwalk, traverse_of_subset (by decide)]
  rfl

/-- The scan `1` is upstream of the FULL input of the last pipeline and the scan `0` of the other,
    but the step of `0` comes first. -/
theorem prefetch_order_twoPortsPlan :
    buildPfDag twoPortsPlan twoPortsPlan.nodes = .ok twoPortsEdges ∧
      (∀ e ∈ twoPortsEdges, e.consumer ∈ twoPortsPlan.nodes) ∧ Acyclic (Feeds twoPortsEdges) ∧
      OneConsumer twoPortsEdges ∧
      (∃ e ∈ incoming twoPortsEdges 3, ∃ f ∈ incoming twoPortsEdges 3, e.barrier = .full ∧
        f.barrier ≠ .full ∧ Relation.ReflTransGen (Feeds twoPortsEdges) 1 e.producer ∧
        Relation.ReflTransGen (Feeds twoPortsEdges) 0 f.producer) ∧
      ∃ steps, prefetchingOrders twoPortsPlan 0 0 = .ok steps ∧
        steps.map PrefetchStep.scan = [scanOperator 10, scanOperator 11] := by
  have hdag : buildPfDag twoPortsPlan twoPortsPlan.nodes = .ok twoPortsEdges := rfl
  have hacyclic := (feeds_increases (by decide : ∀ e ∈ twoPortsEdges, _)).acyclic
  have hmerge : ∀ e ∈ twoPortsEdges, Feeds twoPortsEdges e.producer e.consumer :=
    fun e he => ⟨e, he, rfl, rfl⟩
  refine ⟨hdag, by decide, hacyclic, by unfold OneConsumer; decide, ?_, ?_⟩
  · refine ⟨⟨2, 3, .full, twoPortsSink⟩, by decide, ⟨2, 3, .pipeline, twoPortsSink⟩, by decide, rfl,
      by decide, .single ?_, .single ?_⟩
    · exact hmerge ⟨1, 2, .pipeline, twoPortsMerge⟩ (by decide)
    · exact hmerge ⟨0, 2, .pipeline, twoPortsMerge⟩ (by decide)
  · have hok : ∃ steps, prefetchingOrders twoPortsPlan 0 0 = .ok steps := by
      rw [prefetchingOrders, if_neg (by decide), hdag]
      exact ⟨_, rfl⟩
    obtain ⟨steps, hsteps⟩ := hok
    refine ⟨steps, hsteps, ?_⟩
    have hscans := forall₂_scanOrder hdag hsteps
    rw [scanOrder_twoPortsPlan] at hscans
    cases hscans with
    | cons h0 hrest =>
      cases hrest with
      | cons h1 hnil =>
        cases hnil
        rw [List.map_cons, List.map_cons, ← Option.some.inj h0, ← Option.some.inj h1]
        rfl

end Sirius.Planner.PipelineDag
