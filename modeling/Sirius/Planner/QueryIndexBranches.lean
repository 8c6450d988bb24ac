import Sirius.Planner.PipelineDag

/-!
# The branches of a query index

Model of `query_index::build_index` (src/planner/query_index.cpp:109-140, 263-302), which cuts the
pipelines into branches: chains that start at a head and follow the only consumer until there is a
fork, an end, or an edge that cuts.

* `isBranchHead`, `walkBranch`, `buildIndex`: the branches.
* `Absorbs`: the walk goes from one pipeline to the next.
* `exists_branch`: every pipeline is in a branch.
* `heads_add_branch_le`: there are no more heads and pipelines of one branch than pipelines.
-/

namespace Sirius.Planner.PipelineDag

open Sirius.Common

variable {α : Type} [DecidableEq α]

/-! ## Branches -/

/-- `is_multiport(c)`. -/
def isMultiport (edges : List (Edge α)) (c : α) : Bool := (incoming edges c).length > 1

/-- `cuts(consumer, barrier, barrier_aware)` (lines 56–60). -/
def cuts (edges : List (Edge α)) (barrierAware : Bool) (consumer : α) (barrier : Barrier) : Bool :=
  isMultiport edges consumer && (!barrierAware || barrier = .full)

/-- `is_branch_head(dag, p, barrier_aware)` (lines 112–121). -/
def isBranchHead (edges : List (Edge α)) (barrierAware : Bool) (p : α) : Bool :=
  (incoming edges p).all fun e =>
    cuts edges barrierAware p e.barrier || (out edges e.producer).length ≠ 1

/-- The pipelines that are fed and were not visited. -/
def unvisited (edges : List (Edge α)) (visited : List α) : Finset α :=
  (edges.map Edge.consumer).toFinset \ visited.toFinset

theorem unvisited_lt {edges : List (Edge α)} {visited : List α} {e : Edge α} (he : e ∈ edges)
    (hnew : e.consumer ∉ visited) :
    (unvisited edges (e.consumer :: visited)).card < (unvisited edges visited).card := by
  apply Finset.card_lt_card
  rw [Finset.ssubset_iff_of_subset]
  · refine ⟨e.consumer, ?_, ?_⟩
    · simpa [unvisited] using ⟨⟨e, he, rfl⟩, hnew⟩
    · simp [unvisited]
  · intro x hx
    simp only [unvisited, Finset.mem_sdiff, List.mem_toFinset, List.mem_cons, not_or] at hx ⊢
    exact ⟨hx.1, hx.2.2⟩

/-- The loop of `walk_branch` (lines 131–138): what is appended behind the current pipeline. -/
def walkFrom (edges : List (Edge α)) (barrierAware : Bool) (cur : α) (visited : List α) : List α :=
  match _hout : out edges cur with
  | [edge] =>
    if cuts edges barrierAware edge.consumer edge.barrier then []
    else if _hnew : edge.consumer ∈ visited then []
    else
      edge.consumer :: walkFrom edges barrierAware edge.consumer (edge.consumer :: visited)
  | _ => []
termination_by (unvisited edges visited).card
decreasing_by
  have hmem : edge ∈ out edges cur := by
    rw [_hout]
    exact List.mem_singleton_self edge
  exact unvisited_lt (mem_out.mp hmem).1 _hnew

/-- `walk_branch(dag, head, barrier_aware)` (lines 125–140). -/
def walkBranch (edges : List (Edge α)) (barrierAware : Bool) (head : α) : List α :=
  head :: walkFrom edges barrierAware head [head]

/-- `branch_order`. -/
inductive BranchOrder where
  | pipelineOrder
  | barrierOrder
  | buildProbe
  deriving DecidableEq, Repr

/-- `build_index(pipelines, options)` (lines 263–302): the branches, in the order of their heads. -/
def buildIndex (plan : Plan α) (order : BranchOrder) : Except String (List (List α)) :=
  (buildDag plan (order = .buildProbe)).map fun edges =>
    (plan.nodes.filter (isBranchHead edges (order ≠ .pipelineOrder))).map
      (walkBranch edges (order ≠ .pipelineOrder))

/-! ## The walk -/

/-- The walk goes on from the first pipeline to the second: its only edge leads there and does not
    cut. -/
def Absorbs (edges : List (Edge α)) (aware : Bool) (p q : α) : Prop :=
  ∃ e, out edges p = [e] ∧ e.consumer = q ∧ cuts edges aware q e.barrier = false

variable {edges : List (Edge α)} {aware : Bool} {p q r : α} {visited : List α}

theorem Absorbs.mem (h : Absorbs edges aware p q) :
    ∃ e ∈ edges, e.producer = p ∧ e.consumer = q ∧ (out edges p).length = 1 ∧
      cuts edges aware q e.barrier = false := by
  obtain ⟨e, hout, hconsumer, hcut⟩ := h
  have hmem : e ∈ out edges p := by
    rw [hout]
    exact List.mem_singleton_self e
  exact ⟨e, (mem_out.mp hmem).1, (mem_out.mp hmem).2, hconsumer, by rw [hout]; rfl, hcut⟩

theorem Absorbs.feeds (h : Absorbs edges aware p q) : Feeds edges p q := by
  obtain ⟨e, he, hp, hq, -⟩ := h.mem
  exact ⟨e, he, hp, hq⟩

/-- A pipeline is no head exactly when another absorbs it. -/
theorem isBranchHead_eq_false : isBranchHead edges aware p = false ↔
    ∃ q, Absorbs edges aware q p := by
  rw [isBranchHead, List.all_eq_false]
  constructor
  · rintro ⟨e, he, hcond⟩
    rw [Bool.or_eq_true, not_or, Bool.not_eq_true, decide_eq_true_eq, not_not] at hcond
    obtain ⟨hmem, rfl⟩ := mem_incoming.mp he
    obtain ⟨e', he'⟩ := List.length_eq_one_iff.mp hcond.2
    have : e ∈ out edges e.producer := mem_out.mpr ⟨hmem, rfl⟩
    rw [he', List.mem_singleton] at this
    rw [← this] at he'
    exact ⟨e.producer, e, he', rfl, hcond.1⟩
  · rintro ⟨q, h⟩
    obtain ⟨e, he, rfl, rfl, hone, hcut⟩ := h.mem
    exact ⟨e, mem_incoming.mpr ⟨he, rfl⟩, by simp [hcut, hone]⟩

/-- What the walk appends is a chain of absorbed pipelines, all new. -/
theorem walkFrom_chain (edges : List (Edge α)) (aware : Bool) (cur : α) (visited : List α) :
    List.IsChain (Absorbs edges aware) (cur :: walkFrom edges aware cur visited) ∧
      (walkFrom edges aware cur visited).Nodup ∧
      ∀ x ∈ walkFrom edges aware cur visited, x ∉ visited := by
  fun_induction walkFrom edges aware cur visited with
  | case1 cur visited edge hout hcut => simp
  | case2 cur visited edge hout hcut hold => simp
  | case3 cur visited edge hout hcut hnew ih =>
    obtain ⟨hchain, hnodup, hfresh⟩ := ih
    refine ⟨?_, ?_, ?_⟩
    · exact List.isChain_cons_cons.mpr ⟨⟨edge, hout, rfl, by simpa using hcut⟩, hchain⟩
    · exact List.nodup_cons.mpr ⟨fun h => hfresh _ h List.mem_cons_self, hnodup⟩
    · intro x hx
      rcases List.mem_cons.mp hx with rfl | hx
      · exact hnew
      · exact fun h => hfresh x hx (List.mem_cons_of_mem _ h)
  | case4 cur visited _ => simp

/-- The walk stops only where nothing new is absorbed. -/
theorem walkFrom_closed (edges : List (Edge α)) (aware : Bool) (cur : α) (visited : List α) :
    ∀ p ∈ cur :: walkFrom edges aware cur visited, ∀ q, Absorbs edges aware p q →
      q ∈ visited ∨ q ∈ walkFrom edges aware cur visited := by
  fun_induction walkFrom edges aware cur visited with
  | case1 cur visited edge hout hcut =>
    intro p hp q h
    rw [List.mem_singleton.mp hp] at h
    obtain ⟨e, he, rfl, hcut'⟩ := h
    rw [hout] at he
    cases he
    rw [hcut'] at hcut
    cases hcut
  | case2 cur visited edge hout hcut hold =>
    intro p hp q h
    rw [List.mem_singleton.mp hp] at h
    obtain ⟨e, he, rfl, -⟩ := h
    rw [hout] at he
    cases he
    exact .inl hold
  | case3 cur visited edge hout hcut hnew ih =>
    intro p hp q h
    rcases List.mem_cons.mp hp with rfl | hp
    · obtain ⟨e, he, rfl, -⟩ := h
      rw [hout] at he
      cases he
      exact .inr List.mem_cons_self
    · rcases ih p hp q h with hq | hq
      · rcases List.mem_cons.mp hq with rfl | hq
        · exact .inr List.mem_cons_self
        · exact .inl hq
      · exact .inr (List.mem_cons_of_mem _ hq)
  | case4 cur visited hout =>
    intro p hp q h
    rw [List.mem_singleton.mp hp] at h
    obtain ⟨e, he, -⟩ := h
    exact absurd he (hout e)

/-- Behind the first of a chain everything is reached by a step. -/
theorem exists_absorbs_of_mem_tail {l : List α} (h : List.IsChain (Absorbs edges aware) (r :: l))
    (hp : p ∈ l) : ∃ q, Absorbs edges aware q p := by
  induction l generalizing r with
  | nil => cases hp
  | cons x l ih =>
    obtain ⟨hrx, hl⟩ := List.isChain_cons_cons.mp h
    rcases List.mem_cons.mp hp with rfl | hp
    · exact ⟨r, hrx⟩
    · exact ih hl hp

theorem walkBranch_chain (edges : List (Edge α)) (aware : Bool) (head : α) :
    List.IsChain (Absorbs edges aware) (walkBranch edges aware head) ∧
      (walkBranch edges aware head).Nodup := by
  obtain ⟨hchain, hnodup, hfresh⟩ := walkFrom_chain edges aware head [head]
  exact ⟨hchain, List.nodup_cons.mpr ⟨fun h => hfresh head h List.mem_cons_self, hnodup⟩⟩

theorem walkBranch_closed (h : p ∈ walkBranch edges aware r) (hq : Absorbs edges aware p q) :
    q ∈ walkBranch edges aware r := by
  rcases walkFrom_closed edges aware r [r] p h q hq with hq | hq
  · rw [List.mem_singleton.mp hq]
    exact List.mem_cons_self
  · exact List.mem_cons_of_mem _ hq

/-- Behind the head of a branch there is no other head. -/
theorem not_head_of_mem_tail (h : p ∈ walkFrom edges aware r [r]) :
    isBranchHead edges aware p = false := by
  have hchain := (walkBranch_chain edges aware r).1
  rw [walkBranch] at hchain
  obtain ⟨q, hq⟩ := exists_absorbs_of_mem_tail hchain h
  exact isBranchHead_eq_false.mpr ⟨q, hq⟩

/-! ## Coverage -/

/-- The pipelines are distinct, and what they feed is among them. -/
structure Graph (nodes : List α) (edges : List (Edge α)) : Prop where
  nodup : nodes.Nodup
  producer_mem : ∀ e ∈ edges, e.producer ∈ nodes
  consumer_mem : ∀ e ∈ edges, e.consumer ∈ nodes

/-- The branches of the index over the edges. -/
def branchesOf (nodes : List α) (edges : List (Edge α)) (aware : Bool) : List (List α) :=
  (nodes.filter (isBranchHead edges aware)).map (walkBranch edges aware)

variable {nodes : List α}

/-- Every pipeline of an acyclic graph is in a branch: it is a head, or the branch of the one that
    absorbs it goes on to it. -/
theorem exists_branch (hg : Graph nodes edges) (hacyclic : Acyclic (Feeds edges)) (aware : Bool)
    (hp : p ∈ nodes) : ∃ b ∈ branchesOf nodes edges aware, p ∈ b := by
  induction p using (wellFounded_feeds hacyclic).induction with
  | _ p ih =>
    by_cases hhead : isBranchHead edges aware p = true
    · refine ⟨walkBranch edges aware p, ?_, List.mem_cons_self⟩
      exact List.mem_map_of_mem (List.mem_filter.mpr ⟨hp, hhead⟩)
    · obtain ⟨q, hq⟩ := isBranchHead_eq_false.mp (Bool.not_eq_true _ ▸ hhead)
      obtain ⟨e, he, hproducer, -⟩ := hq.mem
      obtain ⟨b, hb, hmem⟩ := ih q hq.feeds (hproducer ▸ hg.producer_mem e he)
      obtain ⟨head, hin, rfl⟩ := List.mem_map.mp hb
      exact ⟨_, hb, walkBranch_closed hmem hq⟩

theorem mem_nodes_of_branch (hg : Graph nodes edges) {b : List α}
    (hb : b ∈ branchesOf nodes edges aware) (hp : p ∈ b) : p ∈ nodes := by
  obtain ⟨head, hhead, rfl⟩ := List.mem_map.mp hb
  rcases List.mem_cons.mp hp with rfl | hp
  · exact (List.mem_filter.mp hhead).1
  · obtain ⟨q, hq⟩ := exists_absorbs_of_mem_tail (walkBranch_chain edges aware head).1 hp
    obtain ⟨e, he, -, rfl, -⟩ := hq.mem
    exact hg.consumer_mem e he

/-- The heads, and what is behind the head of a branch, are different pipelines. -/
theorem heads_add_branch_le (hg : Graph nodes edges) {b : List α}
    (hb : b ∈ branchesOf nodes edges aware) :
    (branchesOf nodes edges aware).length + b.length ≤ nodes.length + 1 := by
  obtain ⟨head, hhead, rfl⟩ := List.mem_map.mp hb
  have hnodup : (nodes.filter (isBranchHead edges aware) ++
      walkFrom edges aware head [head]).Nodup := by
    have hchain := (walkFrom_chain edges aware head [head]).2.1
    refine List.nodup_append'.mpr ⟨hg.nodup.filter _, hchain, ?_⟩
    intro x hx hx'
    have hhead := (List.mem_filter.mp hx).2
    rw [not_head_of_mem_tail hx'] at hhead
    cases hhead
  have hsub : nodes.filter (isBranchHead edges aware) ++ walkFrom edges aware head [head] ⊆
      nodes := by
    intro x hx
    rcases List.mem_append.mp hx with hx | hx
    · exact (List.mem_filter.mp hx).1
    · exact mem_nodes_of_branch hg hb (List.mem_cons_of_mem _ hx)
  have hle := (hnodup.subperm hsub).length_le
  rw [List.length_append] at hle
  rw [branchesOf, List.length_map, walkBranch, List.length_cons]
  omega

end Sirius.Planner.PipelineDag
