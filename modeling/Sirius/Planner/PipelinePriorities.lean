import Sirius.Common.Assoc
import Sirius.Planner.QueryIndexBranches

/-!
# The priorities of pipelines

Model of `task_creator::compute_pipeline_priorities` (src/creator/task_creator.cpp:196-266) and
`query_priority_bits` (src/query_id.hpp:65-70). A pipeline gets the least of the values that the
branches through it give it; the values are then ranked, and the query is put above the ranks. A
`queue_priority` is a signed integer of 64 bits; the values wrap here, and stay below `2 ^ 63`.

* `computePipelinePriorities`: the function.
* `Least`: what the map holds after the loop over the branches.
* `rawPriority`: the value of a pipeline, by its first branch and its place there.
* `pipeline_priorities`: the ranks are a bijection, ordered by branch and place.
-/

namespace Sirius.Planner.PipelineDag

open Sirius.Common

variable {α : Type} [DecidableEq α]

/-! ## The function -/

/-- `max_query_id`. -/
def maxQueryId : ℕ := 0x7FFFFFFF

/-- `query_priority_bits(id)`. -/
def queryPriorityBits (id : ℕ) : Except String ℕ :=
  if id > maxQueryId then .error "Sirius query priority exhausted" else .ok (id <<< 32)

/-- `try_emplace` and, when the pipeline is there, the minimum. -/
def upsertMin (p : α) (v : ℕ) : List (α × ℕ) → List (α × ℕ)
  | [] => [(p, v)]
  | (q, w) :: m => if q = p then (q, min w v) :: m else (q, w) :: upsertMin p v m

/-- The length of the longest branch, and one more. -/
def stride (branches : List (List α)) : ℕ := (branches.map List.length).foldl max 0 + 1

/-- The place in a branch of the given length, from the head or from the sink. -/
def within (sinkFirst : Bool) (length pos : ℕ) : ℕ := if sinkFirst then length - 1 - pos else pos

/-- What the loop over one branch assigns (lines 229–243). -/
def branchValues (sinkFirst : Bool) (stride : ℕ) (chain : List α) (b : ℕ) : List (α × ℕ) :=
  let base := b * stride % 2 ^ 64
  chain.zipIdx.map fun (p, pos) => (p, (base + within sinkFirst chain.length pos) % 2 ^ 64)

/-- What the loop over the branches assigns, in order. -/
def assignments (sinkFirst : Bool) (branches : List (List α)) : List (α × ℕ) :=
  branches.zipIdx.flatMap fun (chain, b) => branchValues sinkFirst (stride branches) chain b

/-- The map after the loop. -/
def rawPriorities (sinkFirst : Bool) (branches : List (List α)) : List (α × ℕ) :=
  (assignments sinkFirst branches).foldl (fun m a => upsertMin a.1 a.2 m) []

/-- `std::lower_bound(sorted.begin(), sorted.end(), v) - sorted.begin()`. -/
def lowerBound (sorted : List ℕ) (v : ℕ) : ℕ := sorted.findIdx fun x => !decide (x < v)

/-- `compute_pipeline_priorities(query)`. -/
def computePipelinePriorities (plan : Plan α) (sinkFirst : Bool) (queryId : ℕ) :
    Except String (List (α × ℕ)) := do
  let branches ← buildIndex plan .barrierOrder
  if branches.isEmpty then return []
  let priorities := rawPriorities sinkFirst branches
  let sorted := (priorities.map Prod.snd).insertionSort (· ≤ ·)
  let queryBits ← queryPriorityBits queryId
  return priorities.map fun (p, v) => (p, queryBits ||| lowerBound sorted v)

/-! ## The map after the loop -/

/-- The value is the least of those that were assigned to the pipeline. -/
def Least (assigned : List (α × ℕ)) (p : α) (v : ℕ) : Prop :=
  (p, v) ∈ assigned ∧ ∀ w, (p, w) ∈ assigned → v ≤ w

variable {m assigned : List (α × ℕ)} {p q : α} {v w : ℕ}

omit [DecidableEq α] in
theorem Least.eq (hv : Least assigned p v) (hw : Least assigned p w) : v = w :=
  le_antisymm (hv.2 w hw.1) (hw.2 v hv.1)

theorem lookup_upsertMin (p q : α) (v : ℕ) (m : List (α × ℕ)) :
    (upsertMin p v m).lookup q =
      if q = p then some (match m.lookup p with | some w => min w v | none => v)
      else m.lookup q := by
  induction m with
  | nil =>
    rw [upsertMin, List.lookup_cons]
    by_cases hq : q = p
    · simp [hq]
    · simp [hq, beq_false_of_ne hq]
  | cons x m ih =>
    obtain ⟨r, w⟩ := x
    rw [upsertMin]
    split_ifs with hr hq hq
    · subst hr hq
      simp
    · subst hr
      simp [List.lookup_cons, beq_false_of_ne hq]
    · subst hq
      rw [List.lookup_cons, beq_false_of_ne (Ne.symm hr), List.lookup_cons,
        beq_false_of_ne (Ne.symm hr)]
      simpa using ih
    · rw [List.lookup_cons, List.lookup_cons]
      cases q == r with
      | true => rfl
      | false => simpa [hq] using ih

theorem keys_upsertMin (p : α) (v : ℕ) (m : List (α × ℕ)) :
    (upsertMin p v m).map Prod.fst =
      if p ∈ m.map Prod.fst then m.map Prod.fst else m.map Prod.fst ++ [p] := by
  induction m with
  | nil => simp [upsertMin]
  | cons x m ih =>
    obtain ⟨r, w⟩ := x
    rw [upsertMin]
    by_cases hr : r = p
    · simp [hr]
    · simp only [if_neg hr, List.map_cons, ih, List.mem_cons, Ne.symm hr, false_or]
      split_ifs <;> rfl

/-- The map holds the least values. -/
def Holds (assigned m : List (α × ℕ)) : Prop :=
  (m.map Prod.fst).Nodup ∧ ∀ p, match m.lookup p with
    | some v => Least assigned p v
    | none => ∀ v, (p, v) ∉ assigned

theorem Holds.upsert (h : Holds assigned m) (p : α) (v : ℕ) :
    Holds (assigned ++ [(p, v)]) (upsertMin p v m) := by
  refine ⟨?_, fun q => ?_⟩
  · rw [keys_upsertMin]
    split_ifs with hp
    · exact h.1
    · exact List.nodup_append'.mpr ⟨h.1, List.nodup_singleton p, by simpa using hp⟩
  · rw [lookup_upsertMin]
    have hq := h.2 q
    split_ifs with heq
    · subst heq
      cases hlookup : m.lookup q with
      | some w =>
        rw [hlookup] at hq
        refine ⟨?_, fun x hx => ?_⟩
        · dsimp only
          rcases min_choice w v with hmin | hmin
          · rw [hmin]
            exact List.mem_append_left _ hq.1
          · rw [hmin]
            exact List.mem_append_right _ (List.mem_singleton_self _)
        · rcases List.mem_append.mp hx with hx | hx
          · exact (min_le_left w v).trans (hq.2 x hx)
          · rw [(Prod.mk.inj (List.mem_singleton.mp hx)).2]
            exact min_le_right w v
      | none =>
        rw [hlookup] at hq
        refine ⟨List.mem_append_right _ (List.mem_singleton_self _), fun x hx => ?_⟩
        rcases List.mem_append.mp hx with hx | hx
        · exact absurd hx (hq x)
        · rw [(Prod.mk.inj (List.mem_singleton.mp hx)).2]
    · have hsame (x : ℕ) : (q, x) ∈ assigned ++ [(p, v)] ↔ (q, x) ∈ assigned := by
        simp [heq]
      cases hlookup : m.lookup q with
      | some w =>
        rw [hlookup] at hq
        exact ⟨(hsame w).mpr hq.1, fun x hx => hq.2 x ((hsame x).mp hx)⟩
      | none =>
        rw [hlookup] at hq
        exact fun x hx => hq x ((hsame x).mp hx)

theorem Holds.foldl (h : Holds assigned m) (more : List (α × ℕ)) :
    Holds (assigned ++ more) (more.foldl (fun m a => upsertMin a.1 a.2 m) m) := by
  induction more generalizing assigned m with
  | nil => simpa using h
  | cons a more ih =>
    rw [List.append_cons]
    exact ih (h.upsert a.1 a.2)

theorem holds_rawPriorities (sinkFirst : Bool) (branches : List (List α)) :
    Holds (assignments sinkFirst branches) (rawPriorities sinkFirst branches) := by
  have hempty : Holds ([] : List (α × ℕ)) [] := ⟨List.nodup_nil, fun p v hv => nomatch hv⟩
  exact hempty.foldl (assignments sinkFirst branches)

/-! ## The value of a pipeline -/

/-- The first branch that contains the pipeline. -/
def firstBranch (branches : List (List α)) (p : α) : ℕ := branches.findIdx fun b => decide (p ∈ b)

/-- The place of the pipeline in its first branch. -/
def position (branches : List (List α)) (p : α) : ℕ :=
  (branches.getD (firstBranch branches p) []).idxOf p

/-- The value that the first branch gives to the pipeline. -/
def rawPriority (sinkFirst : Bool) (branches : List (List α)) (p : α) : ℕ :=
  firstBranch branches p * stride branches +
    within sinkFirst (branches.getD (firstBranch branches p) []).length (position branches p)

/-- The branches are chains without repetition, few and short enough for the arithmetic. -/
structure Small (branches : List (List α)) : Prop where
  nodup : ∀ b ∈ branches, b.Nodup
  bound : branches.length * stride branches < 2 ^ 63

variable {sinkFirst : Bool} {branches : List (List α)} {b : List α} {i pos : ℕ}

omit [DecidableEq α] in
theorem length_lt_stride (hb : b ∈ branches) : b.length < stride branches := by
  have hmax : ∀ (l : List ℕ) (a n : ℕ), n ∈ l ∨ n ≤ a → n ≤ l.foldl max a := by
    intro l
    induction l with
    | nil => simp
    | cons x l ih =>
      intro a n hn
      refine ih _ n ?_
      rcases hn with hn | hn
      · rcases List.mem_cons.mp hn with rfl | hn
        · exact .inr (le_max_right a n)
        · exact .inl hn
      · exact .inr (hn.trans (le_max_left a x))
  exact Nat.lt_succ_of_le (hmax _ 0 _ (.inl (List.mem_map_of_mem hb)))

theorem within_lt (sinkFirst : Bool) {length : ℕ} (hpos : pos < length) :
    within sinkFirst length pos < length := by
  rw [within]
  split_ifs <;> omega

omit [DecidableEq α] in
/-- What a branch assigns is not wrapped. -/
theorem mem_assignments (h : Small branches) :
    (p, v) ∈ assignments sinkFirst branches ↔
      ∃ i b pos, branches[i]? = some b ∧ b[pos]? = some p ∧
        v = i * stride branches + within sinkFirst b.length pos := by
  have hwrap : ∀ {i b pos}, branches[i]? = some b → b[pos]? = some p →
      (i * stride branches % 2 ^ 64 + within sinkFirst b.length pos) % 2 ^ 64 =
        i * stride branches + within sinkFirst b.length pos := by
    intro i b pos hb hp
    have hlt := (List.getElem?_eq_some_iff.mp hb).1
    have hwithin := within_lt sinkFirst (List.getElem?_eq_some_iff.mp hp).1
    have hstride := length_lt_stride (List.mem_of_getElem? hb)
    have hle : i * stride branches + stride branches ≤ branches.length * stride branches := by
      rw [← Nat.succ_mul]
      exact Nat.mul_le_mul_right _ hlt
    have hbound := h.bound
    rw [Nat.mod_eq_of_lt (by omega), Nat.mod_eq_of_lt (by omega)]
  simp only [assignments, branchValues, List.mem_flatMap, List.mem_map, Prod.exists,
    List.mem_zipIdx_iff_getElem?, Prod.mk.injEq]
  constructor
  · rintro ⟨b, i, hb, x, pos, hp, rfl, rfl⟩
    exact ⟨i, b, pos, hb, hp, hwrap hb hp⟩
  · rintro ⟨i, b, pos, hb, hp, rfl⟩
    exact ⟨b, i, hb, p, pos, hp, rfl, hwrap hb hp⟩

/-- A pipeline that is in a branch is in its first one, at its position. -/
theorem firstBranch_spec (hp : ∃ b ∈ branches, p ∈ b) :
    ∃ b, branches[firstBranch branches p]? = some b ∧ b[position branches p]? = some p ∧
      branches.getD (firstBranch branches p) [] = b := by
  obtain ⟨b, hb, hmem⟩ := hp
  have hlt : firstBranch branches p < branches.length :=
    List.findIdx_lt_length_of_exists ⟨b, hb, decide_eq_true hmem⟩
  have hfound : p ∈ branches[firstBranch branches p] :=
    of_decide_eq_true (List.findIdx_getElem (w := hlt))
  have hget : branches.getD (firstBranch branches p) [] = branches[firstBranch branches p] :=
    List.getD_eq_getElem _ _ hlt
  refine ⟨branches[firstBranch branches p], List.getElem?_eq_getElem hlt, ?_, hget⟩
  rw [position, hget]
  exact List.getElem?_idxOf hfound

/-- The least value of a pipeline is that of its first branch. -/
theorem least_rawPriority (sinkFirst : Bool) (h : Small branches) (hp : ∃ b ∈ branches, p ∈ b) :
    Least (assignments sinkFirst branches) p (rawPriority sinkFirst branches p) := by
  obtain ⟨b, hb, hpos, hget⟩ := firstBranch_spec hp
  refine ⟨?_, fun w hw => ?_⟩
  · rw [mem_assignments h, rawPriority, hget]
    exact ⟨_, b, _, hb, hpos, rfl⟩
  · obtain ⟨i, b', pos, hb', hpos', rfl⟩ := (mem_assignments h).mp hw
    have hle : firstBranch branches p ≤ i := by
      by_contra hlt
      have hnot := List.not_of_lt_findIdx (not_le.mp hlt)
      have hi := (List.getElem?_eq_some_iff.mp hb')
      rw [hi.2] at hnot
      exact of_decide_eq_false hnot (List.mem_of_getElem? hpos')
    rw [rawPriority, hget]
    rcases hle.eq_or_lt with rfl | hlt
    · obtain rfl : b = b' := Option.some.inj (hb.symm.trans hb')
      have hsame : position branches p = pos :=
        (List.getElem?_inj (List.getElem?_eq_some_iff.mp hpos).1
          (h.nodup b (List.mem_of_getElem? hb))).mp (hpos.trans hpos'.symm)
      rw [hsame]
    · have hwithin := within_lt sinkFirst (List.getElem?_eq_some_iff.mp hpos).1
      have hstride := length_lt_stride (List.mem_of_getElem? hb)
      have hmul : firstBranch branches p * stride branches + stride branches ≤
          i * stride branches := by
        rw [← Nat.succ_mul]
        exact Nat.mul_le_mul_right _ hlt
      omega

/-- The values are ordered by branch, and in a branch by place. -/
theorem rawPriority_lt (sinkFirst : Bool) (hp : ∃ b ∈ branches, p ∈ b)
    (hq : ∃ b ∈ branches, q ∈ b) :
    (firstBranch branches p < firstBranch branches q →
      rawPriority sinkFirst branches p < rawPriority sinkFirst branches q) ∧
    (firstBranch branches p = firstBranch branches q → position branches p < position branches q →
      if sinkFirst then rawPriority sinkFirst branches q < rawPriority sinkFirst branches p
      else rawPriority sinkFirst branches p < rawPriority sinkFirst branches q) := by
  obtain ⟨b, hb, hpos, hget⟩ := firstBranch_spec hp
  obtain ⟨b', hb', hpos', hget'⟩ := firstBranch_spec hq
  have hlt := (List.getElem?_eq_some_iff.mp hpos).1
  have hlt' := (List.getElem?_eq_some_iff.mp hpos').1
  refine ⟨fun hfirst => ?_, fun hfirst hplace => ?_⟩
  · have hwithin := within_lt sinkFirst hlt
    have hstride := length_lt_stride (List.mem_of_getElem? hb)
    have hmul : firstBranch branches p * stride branches + stride branches ≤
        firstBranch branches q * stride branches := by
      rw [← Nat.succ_mul]
      exact Nat.mul_le_mul_right _ hfirst
    rw [rawPriority, rawPriority, hget]
    omega
  · obtain rfl : b = b' := by
      rw [hfirst, hb'] at hb
      exact (Option.some.inj hb).symm
    rw [rawPriority, rawPriority, hget, hget', hfirst, within, within]
    split_ifs <;> omega

theorem rawPriority_injective (hp : ∃ b ∈ branches, p ∈ b) (hq : ∃ b ∈ branches, q ∈ b)
    (heq : rawPriority sinkFirst branches p = rawPriority sinkFirst branches q) : p = q := by
  have hpq := rawPriority_lt sinkFirst hp hq
  have hqp := rawPriority_lt sinkFirst hq hp
  obtain ⟨b, hb, hpos, -⟩ := firstBranch_spec hp
  obtain ⟨b', hb', hpos', -⟩ := firstBranch_spec hq
  rcases lt_trichotomy (firstBranch branches p) (firstBranch branches q) with hlt | hfirst | hlt
  · exact absurd heq (hpq.1 hlt).ne
  · rcases lt_trichotomy (position branches p) (position branches q) with hlt | hplace | hlt
    · have := hpq.2 hfirst hlt
      split_ifs at this <;> omega
    · obtain rfl : b = b' := by
        rw [hfirst, hb'] at hb
        exact (Option.some.inj hb).symm
      rw [hplace, hpos'] at hpos
      exact (Option.some.inj hpos).symm
    · have := hqp.2 hfirst.symm hlt
      split_ifs at this <;> omega
  · exact absurd heq (hqp.1 hlt).ne'

/-! ## Ranks -/

/-- In a list that increases strictly, `lower_bound` finds an element at its index. -/
theorem lowerBound_getElem {sorted : List ℕ} (h : sorted.Pairwise (· < ·))
    (hi : i < sorted.length) : lowerBound sorted sorted[i] = i := by
  rw [lowerBound, List.findIdx_eq hi]
  refine ⟨by simp, fun j hj => ?_⟩
  have := List.pairwise_iff_getElem.mp h j i (hj.trans hi) hi hj
  simpa using this

/-- **Ranking values that are all different.** The ranks are a bijection with an initial segment, in
    the order of the values. -/
theorem lowerBound_bijOn {values : List ℕ} (h : values.Nodup) :
    Set.BijOn (lowerBound (values.insertionSort (· ≤ ·))) {v | v ∈ values}
        (Set.Iio values.length) ∧
      ∀ v ∈ values, ∀ w ∈ values, v < w →
        lowerBound (values.insertionSort (· ≤ ·)) v <
          lowerBound (values.insertionSort (· ≤ ·)) w := by
  set sorted := values.insertionSort (· ≤ ·) with hsorted
  have hperm : sorted.Perm values := List.perm_insertionSort _ _
  have hlt : sorted.Pairwise (· < ·) := by
    have hle : sorted.Pairwise (· ≤ ·) := List.pairwise_insertionSort _ _
    have hne : sorted.Pairwise (· ≠ ·) := hperm.nodup_iff.mpr h
    exact (hle.and hne).imp fun h => lt_of_le_of_ne h.1 h.2
  have hindex : ∀ v ∈ values, ∃ i, ∃ hi : i < sorted.length,
      sorted[i] = v ∧ lowerBound sorted v = i := by
    intro v hv
    obtain ⟨i, hi, rfl⟩ := List.getElem_of_mem (hperm.mem_iff.mpr hv)
    exact ⟨i, hi, rfl, lowerBound_getElem hlt hi⟩
  have hmono : ∀ v ∈ values, ∀ w ∈ values, v < w → lowerBound sorted v < lowerBound sorted w := by
    intro v hv w hw hvw
    obtain ⟨i, hi, rfl, hri⟩ := hindex v hv
    obtain ⟨j, hj, rfl, hrj⟩ := hindex w hw
    rw [hri, hrj]
    by_contra hge
    rcases (not_lt.mp hge).eq_or_lt with rfl | hji
    · exact absurd hvw (lt_irrefl _)
    · exact absurd hvw (List.pairwise_iff_getElem.mp hlt j i hj hi hji).not_gt
  refine ⟨⟨fun v hv => ?_, fun v hv w hw heq => ?_, fun i hi => ?_⟩, hmono⟩
  · obtain ⟨i, hi, -, hri⟩ := hindex v hv
    rw [Set.mem_Iio, hri, ← hperm.length_eq]
    exact hi
  · rcases lt_trichotomy v w with hlt | heq | hlt
    · exact absurd heq (hmono v hv w hw hlt).ne
    · exact heq
    · exact absurd heq (hmono w hw v hv hlt).ne'
  · have hi' : i < sorted.length := hperm.length_eq ▸ hi
    exact ⟨sorted[i], hperm.mem_iff.mp (List.getElem_mem hi'), lowerBound_getElem hlt hi'⟩

/-! ## The priorities -/

/-- A plan whose pipelines are different, feed one another without a cycle, and are fewer than
    `2 ^ 32`. -/
structure PipelineGraph (plan : Plan α) (edges : List (Edge α)) : Prop where
  dag : buildDag plan false = .ok edges
  nodup : plan.nodes.Nodup
  consumer_mem : ∀ e ∈ edges, e.consumer ∈ plan.nodes
  acyclic : Acyclic (Feeds edges)
  count : plan.nodes.length < 2 ^ 32

variable {plan : Plan α} {edges : List (Edge α)} {id bits : ℕ}

theorem PipelineGraph.graph (h : PipelineGraph plan edges) : Graph plan.nodes edges where
  nodup := h.nodup
  producer_mem _ he := (edgesOf_spec h.dag he).1
  consumer_mem := h.consumer_mem

theorem PipelineGraph.buildIndex (h : PipelineGraph plan edges) :
    buildIndex plan .barrierOrder = .ok (branchesOf plan.nodes edges true) := by
  rw [PipelineDag.buildIndex, show decide (BranchOrder.barrierOrder = .buildProbe) = false from rfl,
    h.dag]
  rfl

omit [DecidableEq α] in
theorem exists_longest (h : branches ≠ []) : ∃ b ∈ branches, stride branches = b.length + 1 := by
  have hmax : ∀ (l : List ℕ) (a : ℕ), l.foldl max a = a ∨ l.foldl max a ∈ l := by
    intro l
    induction l with
    | nil => simp
    | cons x l ih =>
      intro a
      rcases ih (max a x) with heq | hmem
      · rcases max_choice a x with ha | hx
        · exact .inl (heq.trans ha)
        · rw [List.foldl_cons, heq, hx]
          exact .inr List.mem_cons_self
      · exact .inr (List.mem_cons_of_mem x hmem)
  rcases hmax (branches.map List.length) 0 with hzero | hmem
  · obtain ⟨b, hb⟩ := List.exists_mem_of_ne_nil branches h
    have hlt := length_lt_stride hb
    rw [stride, hzero] at hlt
    exact ⟨b, hb, by rw [stride, hzero]; omega⟩
  · obtain ⟨b, hb, heq⟩ := List.mem_map.mp hmem
    exact ⟨b, hb, by rw [stride, heq]⟩

/-- The arithmetic of the priorities stays below `2 ^ 63`. -/
theorem PipelineGraph.small (h : PipelineGraph plan edges) :
    Small (branchesOf plan.nodes edges true) := by
  refine ⟨fun b hb => ?_, ?_⟩
  · obtain ⟨head, -, rfl⟩ := List.mem_map.mp hb
    exact (walkBranch_chain edges true head).2
  · by_cases hempty : branchesOf plan.nodes edges true = []
    · rw [hempty]
      norm_num
    · obtain ⟨b, hb, hstride⟩ := exists_longest hempty
      have hle := heads_add_branch_le h.graph hb
      have hcount := h.count
      have hsum : (branchesOf plan.nodes edges true).length +
          stride (branchesOf plan.nodes edges true) ≤ 2 ^ 32 + 1 := by
        omega
      have hsquare := four_mul_le_sq_add (branchesOf plan.nodes edges true).length
        (stride (branchesOf plan.nodes edges true))
      have hpow := Nat.pow_le_pow_left hsum 2
      rw [mul_assoc] at hsquare
      omega

theorem mem_branch_iff (h : PipelineGraph plan edges) :
    (∃ b ∈ branchesOf plan.nodes edges true, p ∈ b) ↔ p ∈ plan.nodes :=
  ⟨fun ⟨_, hb, hp⟩ => mem_nodes_of_branch h.graph hb hp,
    fun hp => exists_branch h.graph h.acyclic true hp⟩

/-- The map after the loop has the pipelines and their values. -/
theorem PipelineGraph.lookup_raw (h : PipelineGraph plan edges) (sinkFirst : Bool) (p : α) :
    (rawPriorities sinkFirst (branchesOf plan.nodes edges true)).lookup p =
      if p ∈ plan.nodes then some (rawPriority sinkFirst (branchesOf plan.nodes edges true) p)
      else none := by
  have hholds := (holds_rawPriorities sinkFirst (branchesOf plan.nodes edges true)).2 p
  cases hlookup : (rawPriorities sinkFirst (branchesOf plan.nodes edges true)).lookup p with
  | some v =>
    rw [hlookup] at hholds
    obtain ⟨i, b, pos, hb, hp, -⟩ := (mem_assignments h.small).mp hholds.1
    have hmem := mem_nodes_of_branch h.graph (List.mem_of_getElem? hb) (List.mem_of_getElem? hp)
    have hleast := least_rawPriority sinkFirst h.small ((mem_branch_iff h).mpr hmem)
    rw [if_pos hmem, hholds.eq hleast]
  | none =>
    rw [hlookup] at hholds
    rw [if_neg]
    intro hp
    exact hholds _ (least_rawPriority sinkFirst h.small ((mem_branch_iff h).mpr hp)).1

/-- The pipelines of the map are those of the plan, each with its value. -/
theorem PipelineGraph.mem_raw (h : PipelineGraph plan edges) (sinkFirst : Bool) :
    (p, v) ∈ rawPriorities sinkFirst (branchesOf plan.nodes edges true) ↔
      p ∈ plan.nodes ∧ v = rawPriority sinkFirst (branchesOf plan.nodes edges true) p := by
  have hholds := holds_rawPriorities sinkFirst (branchesOf plan.nodes edges true)
  constructor
  · intro hmem
    have hlookup := lookup_of_nodup hholds.1 hmem
    rw [h.lookup_raw] at hlookup
    split_ifs at hlookup with hp
    exact ⟨hp, (Option.some.inj hlookup).symm⟩
  · rintro ⟨hp, rfl⟩
    refine mem_of_lookup ?_
    rw [h.lookup_raw, if_pos hp]

/-- The pipelines of the map, without their values. -/
theorem PipelineGraph.keys_perm (h : PipelineGraph plan edges) (sinkFirst : Bool) :
    ((rawPriorities sinkFirst (branchesOf plan.nodes edges true)).map Prod.fst).Perm
      plan.nodes := by
  refine (List.perm_ext_iff_of_nodup (holds_rawPriorities sinkFirst _).1 h.nodup).mpr fun p => ?_
  rw [mem_keys_iff, h.lookup_raw]
  split_ifs with hp
  · simpa using hp
  · simpa using hp

theorem PipelineGraph.values_nodup (h : PipelineGraph plan edges) (sinkFirst : Bool) :
    ((rawPriorities sinkFirst (branchesOf plan.nodes edges true)).map Prod.snd).Nodup := by
  refine (List.Nodup.of_map Prod.fst (holds_rawPriorities sinkFirst _).1).map_on ?_
  rintro ⟨p, v⟩ hpv ⟨q, w⟩ hqw heq
  obtain ⟨hp, rfl⟩ := (h.mem_raw sinkFirst).mp hpv
  obtain ⟨hq, rfl⟩ := (h.mem_raw sinkFirst).mp hqw
  have hpq := rawPriority_injective ((mem_branch_iff h).mpr hp) ((mem_branch_iff h).mpr hq) heq
  rw [hpq]

/-- The rank of a pipeline. -/
def rankOf (sinkFirst : Bool) (branches : List (List α)) (p : α) : ℕ :=
  lowerBound (((rawPriorities sinkFirst branches).map Prod.snd).insertionSort (· ≤ ·))
    (rawPriority sinkFirst branches p)

theorem PipelineGraph.rank_bijOn (h : PipelineGraph plan edges) (sinkFirst : Bool) :
    Set.BijOn (rankOf sinkFirst (branchesOf plan.nodes edges true)) {p | p ∈ plan.nodes}
      (Set.Iio plan.nodes.length) := by
  have hbij := (lowerBound_bijOn (h.values_nodup sinkFirst)).1
  have hraw : Set.BijOn (rawPriority sinkFirst (branchesOf plan.nodes edges true))
      {p | p ∈ plan.nodes}
      {v | v ∈ (rawPriorities sinkFirst (branchesOf plan.nodes edges true)).map Prod.snd} := by
    refine ⟨fun p hp => ?_, fun p hp q hq heq => ?_, fun v hv => ?_⟩
    · exact List.mem_map.mpr ⟨(p, _), (h.mem_raw sinkFirst).mpr ⟨hp, rfl⟩, rfl⟩
    · exact rawPriority_injective ((mem_branch_iff h).mpr hp) ((mem_branch_iff h).mpr hq) heq
    · obtain ⟨⟨p, w⟩, hmem, rfl⟩ := List.mem_map.mp hv
      obtain ⟨hp, rfl⟩ := (h.mem_raw sinkFirst).mp hmem
      exact ⟨p, hp, rfl⟩
  rw [List.length_map, ← List.length_map (f := Prod.fst), (h.keys_perm sinkFirst).length_eq] at hbij
  exact hbij.comp hraw

theorem PipelineGraph.rank_lt (h : PipelineGraph plan edges) (sinkFirst : Bool)
    (hp : p ∈ plan.nodes) (hq : q ∈ plan.nodes)
    (hlt : rawPriority sinkFirst (branchesOf plan.nodes edges true) p <
      rawPriority sinkFirst (branchesOf plan.nodes edges true) q) :
    rankOf sinkFirst (branchesOf plan.nodes edges true) p <
      rankOf sinkFirst (branchesOf plan.nodes edges true) q := by
  refine (lowerBound_bijOn (h.values_nodup sinkFirst)).2 _ ?_ _ ?_ hlt
  · exact List.mem_map.mpr ⟨(p, _), (h.mem_raw sinkFirst).mpr ⟨hp, rfl⟩, rfl⟩
  · exact List.mem_map.mpr ⟨(q, _), (h.mem_raw sinkFirst).mpr ⟨hq, rfl⟩, rfl⟩

/-- What the function returns. -/
theorem PipelineGraph.compute (h : PipelineGraph plan edges) (sinkFirst : Bool)
    (hid : id ≤ maxQueryId) :
    ∃ priorities, computePipelinePriorities plan sinkFirst id = .ok priorities ∧
      ∀ p, priorities.lookup p = if p ∈ plan.nodes then
        some (id * 2 ^ 32 + rankOf sinkFirst (branchesOf plan.nodes edges true) p) else none := by
  rw [computePipelinePriorities, h.buildIndex, ok_bind]
  by_cases hempty : (branchesOf plan.nodes edges true).isEmpty = true
  · rw [if_pos hempty]
    refine ⟨[], rfl, fun p => ?_⟩
    rw [if_neg]
    · rfl
    · intro hp
      obtain ⟨b, hb, -⟩ := (mem_branch_iff h).mpr hp
      rw [List.isEmpty_iff.mp hempty] at hb
      cases hb
  · rw [if_neg hempty]
    dsimp only
    rw [queryPriorityBits, if_neg (not_lt.mpr hid), ok_bind]
    refine ⟨_, rfl, fun p => ?_⟩
    rw [lookup_map (fun v => id <<< 32 ||| lowerBound _ v), h.lookup_raw]
    split_ifs with hp
    · have hrank := (h.rank_bijOn sinkFirst).mapsTo hp
      have hcount := h.count
      rw [Option.map_some, ← Nat.shiftLeft_add_eq_or_of_lt (i := 32), Nat.shiftLeft_eq]
      · rfl
      · exact (Set.mem_Iio.mp hrank).trans hcount
    · rfl

/-- **The priorities of a query.** In an acyclic graph of fewer than `2 ^ 32` pipelines, for a query
    id that is accepted: every pipeline is in a branch and every branch is a path; the priorities
    are the query's bits and a rank, the ranks are a bijection with `0, …, N - 1`, an earlier first
    branch gives a smaller rank, and in one branch the ranks follow the places, or go against them
    when the sink is first. The priorities of a query are all below those of a query with a larger
    id, and none is negative. -/
theorem pipeline_priorities (h : PipelineGraph plan edges) (sinkFirst : Bool)
    (hid : queryPriorityBits id = .ok bits) :
    ∃ branches priorities, buildIndex plan .barrierOrder = .ok branches ∧
      computePipelinePriorities plan sinkFirst id = .ok priorities ∧
      (∀ p ∈ plan.nodes, ∃ b ∈ branches, p ∈ b) ∧
      (∀ b ∈ branches, b ≠ [] ∧ b.IsChain (Feeds edges)) ∧
      (∃ rank : α → ℕ,
        (∀ p, priorities.lookup p = if p ∈ plan.nodes then some (bits + rank p) else none) ∧
        Set.BijOn rank {p | p ∈ plan.nodes} (Set.Iio plan.nodes.length) ∧
        ∀ p ∈ plan.nodes, ∀ q ∈ plan.nodes,
          (firstBranch branches p < firstBranch branches q → rank p < rank q) ∧
          (firstBranch branches p = firstBranch branches q →
            position branches p < position branches q →
            if sinkFirst then rank q < rank p else rank p < rank q)) ∧
      (∀ p v, priorities.lookup p = some v → v < 2 ^ 63) ∧
      ∀ (plan' : Plan α) (edges' : List (Edge α)) (sinkFirst' : Bool) (id' bits' : ℕ)
        (priorities' : List (α × ℕ)), PipelineGraph plan' edges' →
        queryPriorityBits id' = .ok bits' →
        computePipelinePriorities plan' sinkFirst' id' = .ok priorities' → id < id' →
        ∀ p v p' v', priorities.lookup p = some v → priorities'.lookup p' = some v' → v < v' := by
  obtain ⟨hmax, hbits⟩ := ite_error_eq_ok.mp hid
  rw [← Except.ok.inj hbits, Nat.shiftLeft_eq]
  obtain ⟨priorities, hcompute, hlookup⟩ := h.compute sinkFirst (not_lt.mp hmax)
  have hvalue : ∀ p v, priorities.lookup p = some v → v < (id + 1) * 2 ^ 32 := by
    intro p v hv
    rw [hlookup] at hv
    split_ifs at hv with hp
    have hrank := Set.mem_Iio.mp ((h.rank_bijOn sinkFirst).mapsTo hp)
    have hcount := h.count
    have := Option.some.inj hv
    omega
  refine ⟨branchesOf plan.nodes edges true, priorities, h.buildIndex, hcompute,
    fun p hp => (mem_branch_iff h).mpr hp, fun b hb => ?_, ?_, fun p v hv => ?_, ?_⟩
  · obtain ⟨head, -, rfl⟩ := List.mem_map.mp hb
    exact ⟨List.cons_ne_nil _ _, (walkBranch_chain edges true head).1.imp fun _ _ ha => ha.feeds⟩
  · refine ⟨_, hlookup, h.rank_bijOn sinkFirst, fun p hp q hq => ?_⟩
    have hlt := rawPriority_lt sinkFirst ((mem_branch_iff h).mpr hp) ((mem_branch_iff h).mpr hq)
    refine ⟨fun hfirst => h.rank_lt sinkFirst hp hq (hlt.1 hfirst), fun hfirst hplace => ?_⟩
    have hraw := hlt.2 hfirst hplace
    split_ifs at hraw ⊢
    · exact h.rank_lt sinkFirst hq hp hraw
    · exact h.rank_lt sinkFirst hp hq hraw
  · have := hvalue p v hv
    have hmax' : id ≤ maxQueryId := not_lt.mp hmax
    rw [maxQueryId] at hmax'
    omega
  · intro plan' edges' sinkFirst' id' bits' priorities' h' hid' hcompute' hlt p v p' v' hv hv'
    obtain ⟨hmax', -⟩ := ite_error_eq_ok.mp hid'
    obtain ⟨found, hfound, hlookup'⟩ := h'.compute sinkFirst' (not_lt.mp hmax')
    rw [Except.ok.inj (hcompute'.symm.trans hfound), hlookup'] at hv'
    split_ifs at hv' with hp'
    have hlow := hvalue p v hv
    have := Option.some.inj hv'
    omega

/-- The join of two scans: the first feeds its build side, the second its probe side. -/
def joinOperator : Operator ℕ :=
  { operatorId := 7, type := .hashJoin, pipeline := some 2
    ports := [("build", some .full), ("default", some .pipeline)] }

def joinPlan : Plan ℕ where
  pipelines := [some 0, none, some 1, some 2]
  nextPorts p :=
    if p = 0 then [⟨some joinOperator, "build"⟩]
    else if p = 1 then [⟨some joinOperator, "default"⟩]
    else []
  source _ := none
  operators _ := []
  pipelineId p := p

def joinEdges : List (Edge ℕ) := [⟨0, 2, .full, joinOperator⟩, ⟨1, 2, .pipeline, joinOperator⟩]

theorem pipelineGraph_joinPlan : PipelineGraph joinPlan joinEdges where
  dag := by rfl
  nodup := by decide
  consumer_mem := by decide
  acyclic := by
    have hranks : Ranks (fun p : ℕ => p) (Feeds joinEdges) := by
      rintro p q ⟨e, he, rfl, rfl⟩
      exact (by decide : ∀ e ∈ joinEdges, e.producer < e.consumer) e he
    exact hranks.acyclic
  count := by decide

theorem pipeline_priorities_joinPlan :
    ∃ priorities, computePipelinePriorities joinPlan false 5 = .ok priorities ∧
      ∃ rank : ℕ → ℕ, Set.BijOn rank {p | p ∈ joinPlan.nodes} (Set.Iio 3) := by
  obtain ⟨_, priorities, -, hcompute, -, -, ⟨rank, -, hrank, -⟩, -⟩ :=
    pipeline_priorities pipelineGraph_joinPlan false (rfl : queryPriorityBits 5 = .ok _)
  exact ⟨priorities, hcompute, rank, hrank⟩

end Sirius.Planner.PipelineDag
