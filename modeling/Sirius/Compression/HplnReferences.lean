import Sirius.Common.Ranking
import Sirius.Compression.HplnRead
import Sirius.Compression.PlanTree

/-!
# The references of a tree read from a file

The reader of a .hpln header checks the node of a leaf, and `compute_input_sources` the
node and the channel of what a node consumes
(src/compression/simpatico_codegen/src/api/compressed_table_io.cpp:441-598, 663-749 and
plan/plan_tree.cpp:168-189). Nothing checks the child of an edge, or that the references
do not run in a circle.

* `sources_in_range`: every input source of a reconstructed tree is one of its nodes.
* `valueDslPathWithin_isSome`: the recursive walk ends where the nodes can be ranked.
* `trees_wellFormed_iff`: the trees of an accepted file are well formed exactly if the
  edges of its header name nodes and its nodes can be ranked.
-/

namespace Sirius.Compression.Hpln

open Sirius.Common Sirius.Common.Wire

/-! ## The reconstructed tree -/

/-- The characters of a string of bytes. -/
def toChars (s : Str) : Plan.Str := s.map fun b => Char.ofNat b.toNat

/-- A node that the reader has rebuilt; the packed type of a bitjoin is not looked at. -/
def planNode (n : PlanNode) : Plan.PlanNode where
  op := toChars n.op
  children := n.children.map fun e => (toChars e.channel, e.child.toNat)
  bitjoin := n.bitjoin.map fun bj =>
    ⟨bj.inputs.map fun i => ⟨i.node.toNat, toChars i.channel, i.range⟩, none⟩
  outputNames := n.outputNames.map toChars
  outputPaths := n.outputPaths.map toChars

/-- The tree of a column (compressed_table_io.cpp:684-742). -/
def reconstructTree (r : ColRecord) : Except Plan.PlanError (List Plan.PlanNode) :=
  Plan.computeInputSources (r.nodes.map planNode)

/-- Whether `compute_input_sources` and the dictionary hints accept a column
(compressed_table_io.cpp:741-748). -/
def finishColumn (hints : ColRecord → Bool) (r : ColRecord) : Bool :=
  (reconstructTree r).isOk && hints r

/-! ## The recursive walks -/

/-- `value_dsl_path` (plan_tree.cpp:197-213), or `none` where it nests deeper than `depth`
calls. -/
def valueDslPathWithin (nodes : List Plan.PlanNode) : ℕ → Plan.ValueId → Option Plan.Str
  | 0, _ => none
  | depth + 1, v =>
    match if v.node = 0 then none else nodes[v.node]? with
    | none => some "input".toList
    | some p => do
      let base ←
        if p.bitjoin.isSome then some p.op
        else if p.source.node = 0 then some (Plan.bitextractCanonicalName p.op)
        else valueDslPathWithin nodes depth p.source
      let chan := (p.outputNames[v.channel.toNat]?).getD []
      some (if base = [] then chan else if chan = [] then base else base ++ '.' :: chan)

/-- The values whose paths `render_plan_tree` asks for (plan_tree.cpp:223-232). -/
def renderedValues (n : Plan.PlanNode) : List Plan.ValueId :=
  if n.bitjoin.isSome then n.inputSources else [n.source]

/-- `render_plan_tree` returns: every walk it starts ends. -/
def RenderEnds (nodes : List Plan.PlanNode) : Prop :=
  ∃ depth, ∀ n ∈ nodes.tail, ∀ v ∈ renderedValues n, (valueDslPathWithin nodes depth v).isSome

/-! ## Specification -/

/-- Node `j` refers to node `i`, as a child or as an input. -/
def Refers (nodes : List Plan.PlanNode) (i j : ℕ) : Prop :=
  (∃ n, nodes[i]? = some n ∧ ∃ e ∈ n.children, e.2 = j) ∨
    ∃ n, nodes[j]? = some n ∧ ∃ v ∈ n.inputSources, v.node = i

/-- What must hold of a reconstructed tree. -/
structure WellFormed (nodes : List Plan.PlanNode) : Prop where
  children : ∀ n ∈ nodes, ∀ e ∈ n.children, e.2 < nodes.length
  sources : ∀ n ∈ nodes, ∀ v ∈ n.inputSources, v.node < nodes.length
  acyclic : Acyclic (Refers nodes)
  paths : ∀ v, ∃ depth, (valueDslPathWithin nodes depth v).isSome
  render : RenderEnds nodes

/-- What the header must list: edges to nodes of the column, and a rank of the nodes below
that of their children and above that of the inputs of a bitjoin. -/
structure Ordered (nodes : List PlanNode) : Prop where
  children : ∀ n ∈ nodes, ∀ e ∈ n.children, e.child.toNat < nodes.length
  ranked : ∃ rank : ℕ → ℕ, ∀ i n, nodes[i]? = some n →
    (∀ e ∈ n.children, rank i < rank e.child.toNat) ∧
      ∀ bj, n.bitjoin = some bj → ∀ b ∈ bj.inputs, rank b.node.toNat < rank i

/-! ## Input sources -/

section Sources

variable {nodes t : List Plan.PlanNode} (h : Plan.computeInputSources nodes = .ok t)
include h

theorem length_sources : t.length = nodes.length := by
  have := length_of_mapM_eq_ok h
  rw [List.length_zipIdx] at this
  exact this.symm

/-- A node of the tree is a node of the list, with sources. -/
theorem source_node {j : ℕ} {n : Plan.PlanNode} (hn : t[j]? = some n) :
    ∃ n₀ sources, nodes[j]? = some n₀ ∧ n = { n₀ with inputSources := sources } ∧
      (Plan.consumedRefs nodes j n₀).mapM (Plan.consumedValue nodes j) = .ok sources := by
  have hpairs := (forall₂_of_mapM_eq_ok h).flip
  obtain ⟨⟨n₀, k⟩, hk, hrun⟩ := forall₂_getElem? hpairs hn
  rw [List.getElem?_zipIdx, Option.map_eq_some_iff] at hk
  obtain ⟨n₁, hn₁, hpair⟩ := hk
  simp only [Nat.zero_add, Prod.mk.injEq] at hpair
  obtain ⟨rfl, rfl⟩ := hpair
  obtain ⟨sources, hsources, hn⟩ := bind_eq_ok.mp hrun
  exact ⟨n₁, sources, hn₁, (Except.ok.inj hn).symm, hsources⟩

omit h in
theorem consumedValue_node {consumer : ℕ} {ref : ℕ × Plan.Str} {v : Plan.ValueId}
    (hv : Plan.consumedValue nodes consumer ref = .ok v) :
    v.node = ref.1 ∧ ref.1 < nodes.length := by
  unfold Plan.consumedValue at hv
  split at hv
  · cases hv
  · rename_i port hport
    obtain ⟨rfl⟩ := hv
    refine ⟨rfl, ?_⟩
    unfold Plan.outputPort at hport
    split at hport
    · cases hport
    · rename_i n hn
      exact (List.getElem?_eq_some_iff.mp hn).1

/-- Where a source comes from: an input of the bitjoin, or a node with an edge to it. -/
theorem source_refers {j : ℕ} {n : Plan.PlanNode} (hn : t[j]? = some n) {v : Plan.ValueId}
    (hv : v ∈ n.inputSources) : v.node < nodes.length ∧
      ∃ n₀, nodes[j]? = some n₀ ∧ n₀.bitjoin = n.bitjoin ∧
        ((∃ bj, n₀.bitjoin = some bj ∧ ∃ b ∈ bj.inputs, b.node = v.node) ∨
          n₀.bitjoin = none ∧ ∃ p, nodes[v.node]? = some p ∧ ∃ e ∈ p.children, e.2 = j) := by
  obtain ⟨n₀, sources, hn₀, rfl, hsources⟩ := source_node h hn
  obtain ⟨ref, href, hvalue⟩ := exists_of_mapM_eq_ok hsources v hv
  obtain ⟨hnode, hlt⟩ := consumedValue_node hvalue
  refine ⟨hnode ▸ hlt, n₀, hn₀, rfl, ?_⟩
  unfold Plan.consumedRefs at href
  split at href
  · rename_i bj hbj
    obtain ⟨b, hb, rfl⟩ := List.mem_map.mp href
    exact .inl ⟨bj, hbj, b, hb, hnode.symm⟩
  · rename_i hnone
    obtain ⟨⟨p, i⟩, hp, href⟩ := List.mem_flatMap.mp href
    obtain ⟨e, he, rfl⟩ := List.mem_map.mp href
    obtain ⟨hmem, hchild⟩ := List.mem_filter.mp he
    refine .inr ⟨hnone, p, ?_, e, hmem, by simpa using hchild⟩
    rw [hnode]
    exact List.mem_zipIdx_iff_getElem?.mp hp

/-- **Every input source of a reconstructed tree is one of its nodes**: a name that its
producer does not output stops the reader. -/
theorem sources_in_range : ∀ n ∈ t, ∀ v ∈ n.inputSources, v.node < t.length := by
  intro n hn v hv
  obtain ⟨j, hj⟩ := List.mem_iff_getElem?.mp hn
  rw [length_sources h]
  exact (source_refers h hj hv).1

end Sources

/-! ## Ranks -/

theorem refers_start {nodes : List Plan.PlanNode}
    (hsources : ∀ n ∈ nodes, ∀ v ∈ n.inputSources, v.node < nodes.length) {i j : ℕ}
    (hij : Refers nodes i j) : i ∈ {i | i < nodes.length} := by
  rcases hij with ⟨n, hn, -⟩ | ⟨n, hn, v, hv, rfl⟩
  · exact (List.getElem?_eq_some_iff.mp hn).1
  · exact hsources n (List.mem_of_getElem? hn) v hv

variable {r : ColRecord}

/-- A node of the header, in its tree. -/
theorem tree_node {t : List Plan.PlanNode} (h : reconstructTree r = .ok t) {i : ℕ} {n : PlanNode}
    (hn : r.nodes[i]? = some n) :
    ∃ sources, t[i]? = some { planNode n with inputSources := sources } ∧
      (Plan.consumedRefs (r.nodes.map planNode) i (planNode n)).mapM
        (Plan.consumedValue (r.nodes.map planNode) i) = .ok sources := by
  have hnode : (r.nodes.map planNode)[i]? = some (planNode n) := by
    rw [List.getElem?_map, hn]
    rfl
  have hi : i < t.length := by
    rw [length_sources h]
    exact (List.getElem?_eq_some_iff.mp hnode).1
  obtain ⟨n₀, sources, hn₀, hti, hsources⟩ := source_node h (List.getElem?_eq_getElem hi)
  obtain rfl := Option.some.inj (hnode.symm.trans hn₀)
  exact ⟨sources, by rw [List.getElem?_eq_getElem hi, hti], hsources⟩

/-- A node of the tree, in its header. -/
theorem header_node {t : List Plan.PlanNode} (h : reconstructTree r = .ok t) {i : ℕ}
    {n : Plan.PlanNode} (hn : t[i]? = some n) :
    ∃ m sources, r.nodes[i]? = some m ∧ n = { planNode m with inputSources := sources } := by
  obtain ⟨n₀, sources, hn₀, rfl, -⟩ := source_node h hn
  rw [List.getElem?_map, Option.map_eq_some_iff] at hn₀
  obtain ⟨m, hm, rfl⟩ := hn₀
  exact ⟨m, sources, hm, rfl⟩

theorem children_iff {t : List Plan.PlanNode} (h : reconstructTree r = .ok t) :
    (∀ n ∈ t, ∀ e ∈ n.children, e.2 < t.length) ↔
      ∀ n ∈ r.nodes, ∀ e ∈ n.children, e.child.toNat < r.nodes.length := by
  have hlength : t.length = r.nodes.length := by rw [length_sources h, List.length_map]
  rw [hlength]
  constructor
  · intro htree n hn e he
    obtain ⟨i, hi⟩ := List.mem_iff_getElem?.mp hn
    obtain ⟨sources, hti, -⟩ := tree_node h hi
    exact htree _ (List.mem_of_getElem? hti) (toChars e.channel, e.child.toNat)
      (List.mem_map.mpr ⟨e, he, rfl⟩)
  · intro hheader n hn e he
    obtain ⟨i, hi⟩ := List.mem_iff_getElem?.mp hn
    obtain ⟨m, sources, hm, rfl⟩ := header_node h hi
    obtain ⟨edge, hedge, rfl⟩ := List.mem_map.mp he
    exact hheader m (List.mem_of_getElem? hm) edge hedge

/-- The header's ranks are those of the references of its tree. -/
theorem ranks_iff {t : List Plan.PlanNode} (h : reconstructTree r = .ok t) (rank : ℕ → ℕ) :
    Ranks rank (Refers t) ↔ ∀ i n, r.nodes[i]? = some n →
      (∀ e ∈ n.children, rank i < rank e.child.toNat) ∧
        ∀ bj, n.bitjoin = some bj → ∀ b ∈ bj.inputs, rank b.node.toNat < rank i := by
  constructor
  · intro hranks i n hn
    obtain ⟨sources, hti, hsources⟩ := tree_node h hn
    refine ⟨fun e he => hranks i _ (.inl ⟨_, hti, (toChars e.channel, e.child.toNat),
      List.mem_map.mpr ⟨e, he, rfl⟩, rfl⟩), fun bj hbj b hb => ?_⟩
    have hrefs : (b.node.toNat, toChars b.channel) ∈
        Plan.consumedRefs (r.nodes.map planNode) i (planNode n) := by
      simp only [Plan.consumedRefs, planNode, hbj, Option.map_some, List.map_map]
      exact List.mem_map.mpr ⟨b, hb, rfl⟩
    obtain ⟨v, hv, hvalue⟩ := exists_of_mem_mapM hsources _ hrefs
    exact hranks _ i (.inr ⟨_, hti, v, hv, (consumedValue_node hvalue).1⟩)
  · rintro hheader i j (⟨n, hn, e, he, rfl⟩ | ⟨n, hn, v, hv, rfl⟩)
    · obtain ⟨m, sources, hm, rfl⟩ := header_node h hn
      obtain ⟨edge, hedge, rfl⟩ := List.mem_map.mp he
      exact (hheader i m hm).1 edge hedge
    · obtain ⟨-, n₀, hn₀, -, ⟨bj, hbj, b, hb, hnode⟩ | ⟨-, p, hp, e, he, hchild⟩⟩ :=
        source_refers h hn hv
      · rw [List.getElem?_map, Option.map_eq_some_iff] at hn₀
        obtain ⟨m, hm, rfl⟩ := hn₀
        simp only [planNode, Option.map_eq_some_iff] at hbj
        obtain ⟨bj', hbj', rfl⟩ := hbj
        obtain ⟨b', hb', rfl⟩ := List.mem_map.mp hb
        rw [← hnode]
        exact (hheader j m hm).2 bj' hbj' b' hb'
      · rw [List.getElem?_map, Option.map_eq_some_iff] at hp
        obtain ⟨q, hq, rfl⟩ := hp
        obtain ⟨edge, hedge, rfl⟩ := List.mem_map.mp he
        rw [← hchild]
        exact (hheader v.node q hq).1 edge hedge

/-- The walk ends where the rank of its value is below the depth. -/
theorem valueDslPathWithin_isSome {nodes : List Plan.PlanNode} {rank : ℕ → ℕ}
    (hranks : Ranks rank (Refers nodes)) {depth : ℕ} {v : Plan.ValueId}
    (hdepth : rank v.node < depth) : (valueDslPathWithin nodes depth v).isSome := by
  induction depth generalizing v with
  | zero => omega
  | succ depth ih =>
    rw [valueDslPathWithin]
    split
    · rfl
    rename_i p hp
    have hnode : nodes[v.node]? = some p := by
      split_ifs at hp
      exact hp
    split_ifs with hbitjoin hroot
    · rfl
    · rfl
    -- the source of a node that is not fed by the root has a lower rank
    have hsource : p.source ∈ p.inputSources := by
      unfold Plan.PlanNode.source at hroot ⊢
      cases hsources : p.inputSources with
      | nil => simp [hsources] at hroot
      | cons w ws => simp
    have hlt : rank p.source.node < rank v.node :=
      hranks _ _ (.inr ⟨p, hnode, p.source, hsource, rfl⟩)
    obtain ⟨base, hbase⟩ := Option.isSome_iff_exists.mp (ih (v := p.source) (by omega))
    rw [hbase]
    rfl

theorem render_ends {nodes : List Plan.PlanNode} {rank : ℕ → ℕ}
    (hsources : ∀ n ∈ nodes, ∀ v ∈ n.inputSources, v.node < nodes.length)
    (hranks : Ranks rank (Refers nodes)) : RenderEnds nodes := by
  refine ⟨(∑ i ∈ Finset.range (nodes.length + 1), rank i) + 1, fun n hn v hv => ?_⟩
  have hmem : n ∈ nodes := List.mem_of_mem_tail hn
  have hnode : v.node < nodes.length + 1 := by
    unfold renderedValues at hv
    split_ifs at hv
    · exact (hsources n hmem v hv).trans (Nat.lt_succ_self _)
    · obtain rfl := List.mem_singleton.mp hv
      unfold Plan.PlanNode.source
      cases hhead : n.inputSources with
      | nil => exact Nat.succ_pos _
      | cons w ws =>
        have hw : w ∈ n.inputSources := hhead ▸ List.mem_cons_self
        exact (hsources n hmem w hw).trans (Nat.lt_succ_self _)
  refine valueDslPathWithin_isSome hranks (Nat.lt_succ_of_le ?_)
  exact Finset.single_le_sum (f := rank) (fun i _ => Nat.zero_le _) (Finset.mem_range.mpr hnode)

/-- The trees of a header that ranks its nodes are well formed, and only those. -/
theorem wellFormed_iff {t : List Plan.PlanNode} (h : reconstructTree r = .ok t) :
    WellFormed t ↔ Ordered r.nodes := by
  have hsources := sources_in_range h
  have hfinite : ∀ j, {i | Relation.TransGen (Refers t) i j}.Finite :=
    finite_ancestors (Set.finite_lt_nat t.length) fun i j hij => refers_start hsources hij
  constructor
  · intro hwf
    obtain ⟨rank, hranks⟩ := (acyclic_iff_ranked hfinite).mp hwf.acyclic
    exact ⟨(children_iff h).mp hwf.children, rank, (ranks_iff h rank).mp hranks⟩
  · intro hordered
    obtain ⟨rank, hrank⟩ := hordered.ranked
    have hranks := (ranks_iff h rank).mpr hrank
    refine ⟨(children_iff h).mpr hordered.children, hsources, hranks.acyclic, fun v => ?_,
      render_ends hsources hranks⟩
    exact ⟨rank v.node + 1, valueDslPathWithin_isSome hranks (Nat.lt_succ_self _)⟩

/-- **The reader accepts trees with dangling children and with cycles.** In every byte string
that the parser and the reconstruction accept, the trees are well formed (children and
inputs among the nodes, no cycle of references, walks that end) if and only if, in every
column with a plan, the edges of the header name nodes of the column and the nodes can be
ranked below their children and above the inputs of a bitjoin. -/
theorem trees_wellFormed_iff (cudf : Cudf) (major : UInt8) (rebuild : LeafDesc → Bool)
    (hints : ColRecord → Bool) (raw payload : List UInt8) (recs : List ColRecord)
    (reads : List ColumnRead) (hparse : (parseHplnHeader cudf major).run raw = .ok (recs, payload))
    (hread : readCompressedTable cudf major rebuild (finishColumn hints) raw = .ok reads) :
    (∀ r ∈ recs, r.nodes ≠ [] → ∃ t, reconstructTree r = .ok t ∧ WellFormed t) ↔
      ∀ r ∈ recs, r.nodes ≠ [] → Ordered r.nodes := by
  obtain ⟨-, hmap⟩ := readCompressedTable_records hparse hread
  have htree : ∀ r ∈ recs, r.nodes ≠ [] → ∃ t, reconstructTree r = .ok t := by
    intro r hr hne
    obtain ⟨c, -, hcolumn⟩ := exists_of_mem_mapM hmap r hr
    rw [reconstructColumn, if_neg hne] at hcolumn
    obtain ⟨leaves, -, hfinish⟩ := bind_eq_ok.mp hcolumn
    have hok : finishColumn hints r = true := by
      by_contra hfalse
      rw [if_neg hfalse] at hfinish
      cases hfinish
    rw [finishColumn, Bool.and_eq_true] at hok
    cases ht : reconstructTree r with
    | error e => simp [ht, Except.isOk, Except.toBool] at hok
    | ok t => exact ⟨t, rfl⟩
  constructor
  · intro hwf r hr hne
    obtain ⟨t, ht, hwellFormed⟩ := hwf r hr hne
    exact (wellFormed_iff ht).mp hwellFormed
  · intro hordered r hr hne
    obtain ⟨t, ht⟩ := htree r hr hne
    exact ⟨t, ht, (wellFormed_iff ht).mpr (hordered r hr hne)⟩

/-- One `delta` below the root. -/
theorem trees_wellFormed_delta :
    ∃ t, reconstructTree (deltaRecord 8) = .ok t ∧ WellFormed t := by
  have hread : readCompressedTable standardCudf 5 (fun _ => true) (finishColumn fun _ => true)
      (deltaFile 8 [1, 2, 3, 4, 5, 6, 7, 8]) = .ok [⟨1, none, [[⟨0, 8, 8⟩]]⟩] := by
    decide +kernel
  refine (trees_wellFormed_iff standardCudf 5 _ _ _ _ _ _ parse_deltaFile hread).mpr ?_
    (deltaRecord 8) (List.mem_singleton.mpr rfl) (by simp [deltaRecord])
  intro r hr _
  obtain rfl := List.mem_singleton.mp hr
  refine ⟨by simp [deltaRecord], id, fun i n hn => ?_⟩
  rcases i with _ | _ | i
  · obtain rfl := Option.some.inj hn
    simp
  · obtain rfl := Option.some.inj hn
    simp
  · cases hn

/-- A file whose `delta` is its own child. -/
def selfEdgeFile : List UInt8 :=
  magic ++ pushU8 version ++ pushU16 1 ++
    (pushStr16 [97] ++ pushU8 2 ++ pushI32 0 ++ pushI64 1 ++ pushU8 ValidityKind.allValid.code) ++
    pushU16 2 ++ pushNode ⟨[105, 110, 112, 117, 116], none, [], [], [], none, []⟩ ++
    pushNode ⟨[100, 101, 108, 116, 97], none, [⟨[100, 101, 108, 116, 97, 115], 1⟩],
      [[100, 101, 108, 116, 97, 115]], [[100, 101, 108, 116, 97, 115]], none, []⟩ ++ pushU16 0

/-- The record of its column. -/
def selfEdgeRecord : ColRecord where
  name := [97]
  dtypeTag := 2
  scale := 0
  numRows := 1
  validity := ⟨.allValid, 0, 0, 0⟩
  nodes := [⟨[105, 110, 112, 117, 116], none, [], [], [], none, []⟩,
    ⟨[100, 101, 108, 116, 97], none, [⟨[100, 101, 108, 116, 97, 115], 1⟩],
      [[100, 101, 108, 116, 97, 115]], [[100, 101, 108, 116, 97, 115]], none, []⟩]
  leafDescs := []
  bufOffsets := []

/-- Its tree. -/
def selfEdgeTree : List Plan.PlanNode :=
  [{ op := "input".toList },
    { op := "delta".toList, children := [("deltas".toList, 1)], outputNames := ["deltas".toList]
      outputPaths := ["deltas".toList], inputSources := [⟨1, 0⟩] }]

set_option maxRecDepth 20000 in
/-- The reader accepts the file, and the walk to the path of its `deltas` does not end. -/
theorem self_edge_accepted :
    (parseHplnHeader standardCudf 5).run selfEdgeFile = .ok ([selfEdgeRecord], []) ∧
      readCompressedTable standardCudf 5 (fun _ => true) (finishColumn fun _ => true)
        selfEdgeFile = .ok [⟨1, none, []⟩] ∧
      reconstructTree selfEdgeRecord = .ok selfEdgeTree ∧
      Relation.TransGen (Refers selfEdgeTree) 1 1 ∧
      ∀ depth, valueDslPathWithin selfEdgeTree depth ⟨1, 0⟩ = none := by
  refine ⟨rfl, by decide +kernel, by decide +kernel,
    .single (.inr ⟨_, rfl, ⟨1, 0⟩, List.mem_singleton.mpr rfl, rfl⟩), fun depth => ?_⟩
  induction depth with
  | zero => rfl
  | succ depth ih =>
    -- the base of its path is its own path
    show Option.bind (valueDslPathWithin selfEdgeTree depth ⟨1, 0⟩) _ = none
    rw [ih]
    rfl

end Sirius.Compression.Hpln
