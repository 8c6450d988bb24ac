import Sirius.Compression.PlanSteps

/-!
# The tree of a list of steps

What `plan_tree_from_steps` builds: the node of each step, the values it consumes and the
edges to it.

* `Built`, `addStep_built`: what the builder holds after each step.
* `planTreeFromSteps_nodes`: the nodes of the finished tree, step by step.
* `wired_cases`: a consumed path is `input`, or the namespace of an earlier step followed by
  one of its output names.
-/

namespace Sirius.Compression.Plan

open Sirius.Common Sirius.Common.Text

/-! ## Consumed paths -/

/-- The entries a step makes in `path_to_node` and `path_to_channel`. -/
def pathEntries (nid : ℕ) (s : PlanStep) : List (Str × ℕ × Str) :=
  ((s.outputPaths.zip s.outputNames).map fun p => (p.1, nid, p.2)).reverse

/-- Both maps after some steps. -/
def pathTable (steps : List PlanStep) : List (Str × ℕ × Str) :=
  (steps.zipIdx.reverse.flatMap fun p => pathEntries (p.2 + 1) p.1) ++ [("input".toList, 0, [])]

theorem pathTable_append (steps : List PlanStep) (s : PlanStep) :
    pathTable (steps ++ [s]) = pathEntries (steps.length + 1) s ++ pathTable steps := by
  simp [pathTable, List.zipIdx_append, List.append_assoc]

/-- The channel a step consumes the root by. -/
def PlanStep.rootChannel (s : PlanStep) : Str :=
  if isBitjoin s.compressor then "input".toList else bitextractCanonicalName s.compressor

/-- The producers and channels of a step's inputs. -/
def Wired (table : List (Str × ℕ × Str)) (s : PlanStep) (refs : List (ℕ × Str)) : Prop :=
  List.Forall₂ (fun i ref => (Builder.mk [] table).find s.rootChannel i.1 = some ref) s.inputs refs ∧
    (isBitjoin s.compressor = true ∨ s.inputs.length = 1)

/-- The bitjoin attributes of a step. -/
def BitjoinOf (s : PlanStep) (refs : List (ℕ × Str)) (bitjoin : Option BitjoinAttrs) : Prop :=
  if isBitjoin s.compressor then ∃ attrs, bitjoin = some attrs ∧
    attrs.inputs.map (fun r => (r.node, r.channel)) = refs ∧
    attrs.inputs.map BitjoinInput.range = s.inputs.map Prod.snd
  else bitjoin = none

variable {b : Builder} {s : PlanStep}

theorem wire_ok {refs : List (ℕ × Str)} {bitjoin : Option BitjoinAttrs}
    (h : b.wire s = .ok (refs, bitjoin)) : Wired b.paths s refs ∧ BitjoinOf s refs bitjoin := by
  unfold Builder.wire at h
  by_cases hbitjoin : isBitjoin s.compressor = true
  · rw [if_pos hbitjoin] at h
    obtain ⟨inputs, hinputs, h⟩ := bind_eq_ok.mp h
    obtain ⟨rfl, rfl⟩ := Prod.mk.inj (Except.ok.inj h)
    have hpairs : List.Forall₂ (fun i r => b.find s.rootChannel i.1 = some (r.node, r.channel) ∧
        r.range = i.2) s.inputs inputs := by
      refine (forall₂_of_mapM_eq_ok hinputs).imp fun i r hir => ?_
      simp only [PlanStep.rootChannel, if_pos hbitjoin]
      cases hfind : b.find "input".toList i.1 with
      | none => rw [hfind] at hir; cases hir
      | some ref =>
        rw [hfind] at hir
        obtain ⟨rfl⟩ := hir
        exact ⟨rfl, rfl⟩
    refine ⟨⟨?_, .inl hbitjoin⟩, ?_⟩
    · rw [List.forall₂_map_right_iff]
      exact hpairs.imp fun i r hir => hir.1
    · unfold BitjoinOf
      rw [if_pos hbitjoin]
      exact ⟨_, rfl, rfl, map_eq_of_forall₂ hpairs fun i r hir => hir.2⟩
  · rw [if_neg hbitjoin] at h
    unfold BitjoinOf Wired
    rw [if_neg hbitjoin]
    match hinputs : s.inputs with
    | [] => rw [hinputs] at h; cases h
    | [i] =>
      simp only [hinputs] at h
      cases hfind : b.find (bitextractCanonicalName s.compressor) i.1 with
      | none => rw [hfind] at h; cases h
      | some ref =>
        rw [hfind] at h
        obtain ⟨rfl, rfl⟩ := Prod.mk.inj (Except.ok.inj h)
        refine ⟨⟨List.Forall₂.cons ?_ List.Forall₂.nil, .inr rfl⟩, rfl⟩
        simp only [PlanStep.rootChannel, if_neg hbitjoin]
        exact hfind
    | _ :: _ :: _ => rw [hinputs] at h; cases h

/-! ## The builder -/

/-- What the builder holds after some steps. -/
structure Built (steps : List PlanStep) (b : Builder) : Prop where
  length : b.nodes.length = steps.length + 1
  paths : b.paths = pathTable steps
  node : ∀ (k : ℕ) s, steps[k]? = some s → ∃ (n : PlanNode) (refs : List (ℕ × Str)),
    b.nodes[k + 1]? = some n ∧ n.op = s.compressor ∧ n.outputNames = s.outputNames ∧
      Wired (pathTable (steps.take k)) s refs ∧ BitjoinOf s refs n.bitjoin ∧
      ∀ (p : ℕ) m, b.nodes[p]? = some m → m.children.filter (fun e => e.2 = k + 1) =
        (refs.filter fun r => r.1 = p).map fun r => (r.2, k + 1)
  child : ∀ (p : ℕ) n, b.nodes[p]? = some n → ∀ e ∈ n.children, e.2 ≤ steps.length

theorem built_start : Built [] Builder.start where
  length := rfl
  paths := rfl
  node := by simp
  child := by
    intro p n hn e he
    match p, hn with
    | 0, hn =>
      obtain rfl := Option.some.inj hn
      cases he

theorem foldl_addEdge (child : ℕ) (refs : List (ℕ × Str)) (nodes : List PlanNode) (p : ℕ) :
    (refs.foldl (addEdge child) nodes)[p]? = nodes[p]?.map fun n =>
      { n with children := n.children ++
        (refs.filter fun r => r.1 = p).map fun r => (r.2, child) } := by
  induction refs generalizing nodes with
  | nil => simp
  | cons ref refs ih =>
    rw [List.foldl_cons, ih, addEdge, List.getElem?_modify]
    cases hn : nodes[p]? with
    | none => rfl
    | some n =>
      by_cases hp : ref.1 = p
      · simp [hp]
      · simp [hp]

theorem length_foldl_addEdge (child : ℕ) (refs : List (ℕ × Str)) (nodes : List PlanNode) :
    (refs.foldl (addEdge child) nodes).length = nodes.length := by
  induction refs generalizing nodes with
  | nil => rfl
  | cons ref refs ih => rw [List.foldl_cons, ih, addEdge, List.length_modify]

variable {steps : List PlanStep}

/-- A path is found at an earlier node. -/
theorem lookup_pathTable {path : Str} {node : ℕ} {channel : Str}
    (h : (pathTable steps).lookup path = some (node, channel)) :
    (node = 0 ∧ path = "input".toList) ∨
      ∃ j a, node = j + 1 ∧ steps[j]? = some a ∧ (path, channel) ∈ a.outputPaths.zip a.outputNames := by
  induction steps using List.reverseRecOn with
  | nil =>
    simp only [pathTable, List.zipIdx_nil, List.reverse_nil, List.flatMap_nil, List.nil_append,
      List.lookup_cons] at h
    by_cases hpath : path = "input".toList
    · rw [beq_iff_eq.mpr hpath] at h
      obtain ⟨rfl, -⟩ := Prod.mk.inj (Option.some.inj h)
      exact .inl ⟨rfl, hpath⟩
    · rw [beq_eq_false_iff_ne.mpr hpath] at h
      cases h
  | append_singleton steps s ih =>
    rw [pathTable_append, List.lookup_append] at h
    cases hentry : (pathEntries (steps.length + 1) s).lookup path with
    | some e =>
      rw [hentry] at h
      obtain rfl := Option.some.inj h
      have hmem : (path, node, channel) ∈ pathEntries (steps.length + 1) s := by
        obtain ⟨l, r, heq, -⟩ := List.lookup_eq_some_iff.mp hentry
        rw [heq]
        simp
      simp only [pathEntries, List.mem_reverse, List.mem_map, Prod.mk.injEq] at hmem
      obtain ⟨⟨p, n⟩, hzip, rfl, rfl, rfl⟩ := hmem
      exact .inr ⟨steps.length, s, rfl, by simp, hzip⟩
    | none =>
      rw [hentry] at h
      rcases ih h with hroot | ⟨j, a, hj, ha, hzip⟩
      · exact .inl hroot
      · refine .inr ⟨j, a, hj, ?_, hzip⟩
        rw [List.getElem?_append_left (List.getElem?_eq_some_iff.mp ha).1]
        exact ha

variable {ref : ℕ × Str}

theorem find_lt {root path : Str}
    (h : (Builder.mk [] (pathTable steps)).find root path = some ref) : ref.1 ≤ steps.length := by
  obtain ⟨e, he, rfl⟩ := Option.map_eq_some_iff.mp h
  rcases lookup_pathTable he with ⟨hzero, -⟩ | ⟨j, a, hj, ha, -⟩
  · simp only [hzero]
    omega
  · have := (List.getElem?_eq_some_iff.mp ha).1
    simp only [hj]
    omega

/-- One step keeps the invariant of the builder. -/
theorem addStep_built {b b' : Builder} (hb : Built steps b)
    (h : b.addStep s = .ok b') : Built (steps ++ [s]) b' := by
  unfold Builder.addStep at h
  obtain ⟨⟨refs, bitjoin⟩, hwire, h⟩ := bind_eq_ok.mp h
  obtain ⟨rfl⟩ := h
  obtain ⟨hwired, hbitjoin⟩ := wire_ok hwire
  rw [hb.paths] at hwired
  have hlate : ∀ r ∈ refs, r.1 ≤ steps.length := by
    intro r hr
    obtain ⟨k, hk⟩ := List.mem_iff_getElem?.mp hr
    obtain ⟨i, -, hi⟩ := forall₂_getElem? hwired.1.flip hk
    exact find_lt hi
  have hlength := hb.length
  generalize hnode : PlanNode.mk s.compressor [] (bitextractAttrs s.compressor) bitjoin
    s.outputNames s.outputPaths [] = node
  have hnodes : ∀ p m, (refs.foldl (addEdge b.nodes.length) b.nodes ++ [node])[p]? = some m →
      (p = steps.length + 1 ∧ m = node) ∨ ∃ n, b.nodes[p]? = some n ∧ p ≤ steps.length ∧
        m = { n with children := n.children ++
          (refs.filter fun r => r.1 = p).map fun r => (r.2, steps.length + 1) } := by
    intro p m hm
    by_cases hp : p < steps.length + 1
    · rw [List.getElem?_append_left (by rw [length_foldl_addEdge, hlength]; exact hp),
        foldl_addEdge, hlength] at hm
      obtain ⟨n, hn, rfl⟩ := Option.map_eq_some_iff.mp hm
      exact .inr ⟨n, hn, by omega, rfl⟩
    · rw [List.getElem?_append_right (by rw [length_foldl_addEdge, hlength]; omega),
        length_foldl_addEdge, hlength] at hm
      obtain ⟨hlt, rfl⟩ := List.getElem?_eq_some_iff.mp hm
      rw [List.length_singleton] at hlt
      exact .inl ⟨by omega, by simp⟩
  have hself : (refs.foldl (addEdge b.nodes.length) b.nodes ++ [node])[steps.length + 1]? =
      some node := by
    rw [List.getElem?_append_right (by rw [length_foldl_addEdge, hlength]), length_foldl_addEdge,
      hlength, Nat.sub_self]
    rfl
  have hkept : ∀ (p : ℕ) (n : PlanNode), b.nodes[p]? = some n → (refs.foldl (addEdge b.nodes.length) b.nodes ++
      [node])[p]? = some { n with children := n.children ++
        (refs.filter fun r => r.1 = p).map fun r => (r.2, steps.length + 1) } := by
    intro p n hn
    have hp := (List.getElem?_eq_some_iff.mp hn).1
    rw [List.getElem?_append_left (by rw [length_foldl_addEdge]; exact hp), foldl_addEdge, hn,
      hlength]
    rfl
  refine ⟨?_, ?_, ?_, ?_⟩
  · simp [length_foldl_addEdge, hlength]
  · rw [pathTable_append, ← hb.paths, hlength]
    rfl
  · intro k t ht
    by_cases hk : k < steps.length
    · rw [List.getElem?_append_left hk] at ht
      obtain ⟨n, refs', hn, hop, hnames, hwired', hbitjoin', hedges⟩ := hb.node k t ht
      refine ⟨_, refs', hkept _ _ hn, hop, hnames, ?_, hbitjoin', fun p m hm => ?_⟩
      · rwa [List.take_append_of_le_length (by omega)]
      · rcases hnodes p m hm with ⟨rfl, rfl⟩ | ⟨n', hn', -, rfl⟩
        · have hnone : refs'.filter (fun r => r.1 = steps.length + 1) = [] := by
            refine List.filter_eq_nil_iff.mpr fun r hr => ?_
            obtain ⟨i, hi⟩ := List.mem_iff_getElem?.mp hr
            obtain ⟨input, -, hfind⟩ := forall₂_getElem? hwired'.1.flip hi
            have := find_lt hfind
            rw [List.length_take] at this
            simp only [decide_eq_true_eq]
            omega
          rw [hnone, ← hnode]
          rfl
        · rw [List.filter_append, hedges p n' hn']
          have hnone : ((refs.filter fun r => r.1 = p).map fun r => (r.2, steps.length + 1)).filter
              (fun e => e.2 = k + 1) = [] := by
            refine List.filter_eq_nil_iff.mpr fun e he => ?_
            obtain ⟨r, -, rfl⟩ := List.mem_map.mp he
            simp only [decide_eq_true_eq]
            omega
          rw [hnone, List.append_nil]
    · have hk' : k = steps.length := by
        have := (List.getElem?_eq_some_iff.mp ht).1
        rw [List.length_append, List.length_singleton] at this
        omega
      subst hk'
      obtain rfl : s = t := by simpa using ht
      refine ⟨node, refs, hself, by rw [← hnode], by rw [← hnode], ?_, by rw [← hnode]; exact hbitjoin,
        fun p m hm => ?_⟩
      · rwa [List.take_left']
        rfl
      · rcases hnodes p m hm with ⟨rfl, rfl⟩ | ⟨n', hn', -, rfl⟩
        · have hnone : refs.filter (fun r => r.1 = steps.length + 1) = [] := by
            refine List.filter_eq_nil_iff.mpr fun r hr => ?_
            have := hlate r hr
            simp only [decide_eq_true_eq]
            omega
          rw [hnone, ← hnode]
          rfl
        · have hnone : n'.children.filter (fun e => e.2 = steps.length + 1) = [] := by
            refine List.filter_eq_nil_iff.mpr fun e he => ?_
            have := hb.child p n' hn' e he
            simp only [decide_eq_true_eq]
            omega
          rw [List.filter_append, hnone, List.nil_append]
          refine List.filter_eq_self.mpr fun e he => ?_
          obtain ⟨r, -, rfl⟩ := List.mem_map.mp he
          simp
  · intro p m hm e he
    rw [List.length_append, List.length_singleton]
    rcases hnodes p m hm with ⟨rfl, rfl⟩ | ⟨n', hn', -, rfl⟩
    · rw [← hnode] at he
      cases he
    · rcases List.mem_append.mp he with he | he
      · have := hb.child p n' hn' e he
        omega
      · obtain ⟨r, -, rfl⟩ := List.mem_map.mp he
        exact le_rfl

theorem foldlM_built (h : steps.foldlM Builder.addStep Builder.start = .ok b) : Built steps b := by
  induction steps using List.reverseRecOn generalizing b with
  | nil =>
    obtain ⟨rfl⟩ := h
    exact built_start
  | append_singleton steps s ih =>
    rw [List.foldlM_append] at h
    obtain ⟨b', hb', h⟩ := bind_eq_ok.mp h
    rw [List.foldlM_cons] at h
    obtain ⟨b'', hstep, h⟩ := bind_eq_ok.mp h
    obtain ⟨rfl⟩ := h
    exact addStep_built (ih hb') hstep

/-! ## The finished tree -/

theorem flatMap_eq_singleton {α β : Type} {xs : List α} {f : α → List β} {p : ℕ} {y : β}
    (hother : ∀ (i : ℕ) x, xs[i]? = some x → i ≠ p → f x = [])
    (hself : ∃ x, xs[p]? = some x ∧ f x = [y]) : xs.flatMap f = [y] := by
  obtain ⟨x, hx, hfx⟩ := hself
  obtain ⟨hp, -⟩ := List.getElem?_eq_some_iff.mp hx
  have hsplit : xs = xs.take p ++ x :: xs.drop (p + 1) := by
    rw [List.getElem?_eq_getElem hp] at hx
    rw [← Option.some.inj hx, ← List.drop_eq_getElem_cons hp, List.take_append_drop]
  have hbefore : (xs.take p).flatMap f = [] := by
    rw [List.flatMap_eq_nil_iff]
    intro a ha
    obtain ⟨i, hi⟩ := List.mem_iff_getElem?.mp ha
    rw [List.getElem?_take] at hi
    split_ifs at hi with hlt
    exact hother i a hi (by omega)
  have hafter : (xs.drop (p + 1)).flatMap f = [] := by
    rw [List.flatMap_eq_nil_iff]
    intro a ha
    obtain ⟨i, hi⟩ := List.mem_iff_getElem?.mp ha
    rw [List.getElem?_drop] at hi
    exact hother _ a hi (by omega)
  rw [hsplit, List.flatMap_append, List.flatMap_cons, hbefore, hafter, hfx]
  rfl

/-- A node consumes the values its step was wired to. -/
theorem consumedRefs_eq (hb : Built steps b) {k : ℕ} {n : PlanNode} {refs : List (ℕ × Str)}
    (hwired : Wired (pathTable (steps.take k)) s refs) (hbitjoin : BitjoinOf s refs n.bitjoin)
    (hk : k < steps.length)
    (hedges : ∀ (p : ℕ) m, b.nodes[p]? = some m → m.children.filter (fun e => e.2 = k + 1) =
      (refs.filter fun r => r.1 = p).map fun r => (r.2, k + 1)) :
    consumedRefs b.nodes (k + 1) n = refs := by
  unfold consumedRefs
  unfold BitjoinOf at hbitjoin
  split_ifs at hbitjoin with hcase
  · obtain ⟨attrs, hattrs, hrefs, -⟩ := hbitjoin
    rw [hattrs]
    exact hrefs
  · rw [hbitjoin]
    have hone : refs.length = 1 := by
      rw [← hwired.1.length_eq]
      exact hwired.2.resolve_left hcase
    obtain ⟨ref, rfl⟩ := List.length_eq_one_iff.mp hone
    obtain ⟨i, -, hi⟩ := forall₂_getElem? (i := 0) hwired.1.flip rfl
    have hlt : ref.1 < b.nodes.length := by
      have := find_lt hi
      rw [List.length_take] at this
      rw [hb.length]
      omega
    have hpiece : ∀ (p : ℕ) m, b.nodes[p]? = some m →
        ((m.children.filter fun e => e.2 = k + 1).map fun e => (p, e.1)) =
          if ref.1 = p then [ref] else [] := by
      intro p m hm
      rw [hedges p m hm]
      by_cases hp : ref.1 = p
      · subst hp
        simp
      · simp [hp]
    refine flatMap_eq_singleton (p := ref.1) (fun i x hx hne => ?_) ?_
    · rw [List.getElem?_zipIdx, Nat.zero_add] at hx
      obtain ⟨m, hm, rfl⟩ := Option.map_eq_some_iff.mp hx
      exact (hpiece i m hm).trans (if_neg (Ne.symm hne))
    · refine ⟨(b.nodes[ref.1], ref.1), ?_, ?_⟩
      · simp [List.getElem?_zipIdx, List.getElem?_eq_getElem hlt]
      · exact (hpiece ref.1 _ (List.getElem?_eq_getElem hlt)).trans (if_pos rfl)

/-- The namespace of a step's outputs. -/
def PlanStep.base (s : PlanStep) : Str := basePath s.inputPaths s.compressor

theorem PlanStep.WellFormed.base_ne (h : s.WellFormed) : s.base ≠ [] := by
  refine basePath_ne_nil h.compressor.ne_nil fun p hp => ?_
  obtain ⟨i, hi, rfl⟩ := List.mem_map.mp hp
  exact (h.inputs i hi).ne_nil

theorem PlanStep.WellFormed.mem_zip (h : s.WellFormed) {path channel : Str}
    (hmem : (path, channel) ∈ s.outputPaths.zip s.outputNames) :
    channel ∈ s.outputNames ∧ path = s.base ++ '.' :: channel := by
  rw [h.paths] at hmem
  have heq : List.Forall₂ (fun p n => p = outputPath (basePath s.inputPaths s.compressor) n)
      (s.outputNames.map (outputPath (basePath s.inputPaths s.compressor))) s.outputNames := by
    rw [List.forall₂_map_left_iff, List.forall₂_same]
    exact fun _ _ => rfl
  have hpath := List.forall₂_zip heq hmem
  have hne : basePath s.inputPaths s.compressor ≠ [] := h.base_ne
  rw [outputPath, if_neg hne] at hpath
  exact ⟨(List.of_mem_zip hmem).2, hpath⟩

/-- A consumed path is `input`, or an output of an earlier step. -/
theorem wired_cases (hwf : ∀ s ∈ steps, s.WellFormed) {k : ℕ} {root path : Str}
    (h : (Builder.mk [] (pathTable (steps.take k))).find root path = some ref) :
    (path = "input".toList ∧ ref = (0, root)) ∨
      ∃ j a, ref.1 = j + 1 ∧ j < k ∧ steps[j]? = some a ∧ ref.2 ∈ a.outputNames ∧
        path ≠ "input".toList ∧ path = a.base ++ '.' :: ref.2 := by
  obtain ⟨⟨node, channel⟩, he, rfl⟩ := Option.map_eq_some_iff.mp h
  rcases lookup_pathTable he with ⟨hzero, hpath⟩ | ⟨j, a, hj, ha, hzip⟩
  · exact .inl ⟨hpath, by simp [hzero, hpath]⟩
  · rw [List.getElem?_take] at ha
    split_ifs at ha with hlt
    obtain ⟨hmem, hpath⟩ := (hwf a (List.mem_of_getElem? ha)).mem_zip hzip
    have hne : path ≠ "input".toList := by
      intro heq
      have hdot : '.' ∈ path := by rw [hpath]; simp
      rw [heq] at hdot
      exact absurd hdot (by decide)
    have hchannel : (if path = "input".toList then root else channel) = channel := if_neg hne
    exact .inr ⟨j, a, hj, hlt, ha, by rw [hchannel]; exact hmem, hne, by rw [hchannel]; exact hpath⟩

/-- The output number of a consumed channel. -/
def Port (steps : List PlanStep) (ref : ℕ × Str) (port : UInt8) : Prop :=
  (ref.1 = 0 ∧ port = 0) ∨ ∃ (j : ℕ) (a : PlanStep) (idx : ℕ), ref.1 = j + 1 ∧ steps[j]? = some a ∧
    a.outputNames.findIdx? (· == ref.2) = some idx ∧ port = UInt8.ofNat idx

/-- The node of a step in the finished tree. -/
structure NodeOf (steps : List PlanStep) (t : List PlanNode) (k : ℕ) (s : PlanStep) (n : PlanNode)
    (refs : List (ℕ × Str)) : Prop where
  node : t[k + 1]? = some n
  op : n.op = s.compressor
  names : n.outputNames = s.outputNames
  wired : Wired (pathTable (steps.take k)) s refs
  bitjoin : BitjoinOf s refs n.bitjoin
  sources : List.Forall₂ (fun ref v => v.node = ref.1 ∧ Port steps ref v.channel) refs n.inputSources
  edges : ∀ (p : ℕ) m, t[p]? = some m → m.children.filter (fun e => e.2 = k + 1) =
    (refs.filter fun r => r.1 = p).map fun r => (r.2, k + 1)

theorem outputPort_port (hb : Built steps b) {port : UInt8}
    (h : outputPort b.nodes ref.1 ref.2 = some port) : Port steps ref port := by
  unfold outputPort at h
  cases hn : b.nodes[ref.1]? with
  | none => rw [hn] at h; cases h
  | some n =>
    simp only [hn] at h
    by_cases hzero : ref.1 = 0
    · rw [if_pos hzero] at h
      exact .inl ⟨hzero, (Option.some.inj h).symm⟩
    · rw [if_neg hzero] at h
      obtain ⟨idx, hidx, rfl⟩ := Option.map_eq_some_iff.mp h
      obtain ⟨j, hj⟩ := Nat.exists_eq_succ_of_ne_zero hzero
      have hlt := (List.getElem?_eq_some_iff.mp hn).1
      rw [hb.length] at hlt
      obtain ⟨a, ha⟩ : ∃ a, steps[j]? = some a := ⟨_, List.getElem?_eq_getElem (by omega)⟩
      obtain ⟨n', refs, hn', -, hnames, -⟩ := hb.node j a ha
      obtain rfl : n = n' := by
        rw [hj] at hn
        exact Option.some.inj (hn.symm.trans hn')
      exact .inr ⟨j, _, idx, hj, ha, by rw [← hnames]; exact hidx, rfl⟩

/-- **The nodes of the finished tree**, one for each step. -/
theorem planTreeFromSteps_nodes {t : List PlanNode} (h : planTreeFromSteps steps = .ok t) :
    t.length = steps.length + 1 ∧
      ∀ (k : ℕ) s, steps[k]? = some s → ∃ n refs, NodeOf steps t k s n refs := by
  unfold planTreeFromSteps at h
  obtain ⟨b, hfold, hsources⟩ := bind_eq_ok.mp h
  have hb := foldlM_built hfold
  have hpairs := forall₂_of_mapM_eq_ok hsources
  have hlength : t.length = steps.length + 1 := by
    rw [← hpairs.length_eq, List.length_zipIdx, hb.length]
  have hnode : ∀ (p : ℕ) n, b.nodes[p]? = some n → ∃ vs,
      (consumedRefs b.nodes p n).mapM (consumedValue b.nodes p) = .ok vs ∧
        t[p]? = some { n with inputSources := vs } := by
    intro p n hn
    have hzip : b.nodes.zipIdx[p]? = some (n, p) := by
      rw [List.getElem?_zipIdx, hn, Nat.zero_add]
      rfl
    obtain ⟨m, hm, hok⟩ := forall₂_getElem? hpairs hzip
    obtain ⟨vs, hvs, hok⟩ := bind_eq_ok.mp hok
    exact ⟨vs, hvs, by rw [hm, ← Except.ok.inj hok]⟩
  have hback : ∀ (p : ℕ) m, t[p]? = some m → ∃ n, b.nodes[p]? = some n ∧
      m.children = n.children := by
    intro p m hm
    have hp : p < b.nodes.length := by
      have := (List.getElem?_eq_some_iff.mp hm).1
      rw [hb.length]
      omega
    obtain ⟨vs, -, hm'⟩ := hnode p _ (List.getElem?_eq_getElem hp)
    obtain rfl := Option.some.inj (hm.symm.trans hm')
    exact ⟨_, List.getElem?_eq_getElem hp, rfl⟩
  refine ⟨hlength, fun k s hs => ?_⟩
  obtain ⟨n, refs, hn, hop, hnames, hwired, hbitjoin, hedges⟩ := hb.node k s hs
  have hk := (List.getElem?_eq_some_iff.mp hs).1
  obtain ⟨vs, hvs, hm⟩ := hnode (k + 1) n hn
  rw [consumedRefs_eq hb hwired hbitjoin hk hedges] at hvs
  refine ⟨_, refs, hm, hop, hnames, hwired, hbitjoin, ?_, fun p m hm => ?_⟩
  · refine (forall₂_of_mapM_eq_ok hvs).imp fun ref v hv => ?_
    unfold consumedValue at hv
    cases hport : outputPort b.nodes ref.1 ref.2 with
    | none => rw [hport] at hv; cases hv
    | some port =>
      rw [hport] at hv
      obtain ⟨rfl⟩ := hv
      exact ⟨rfl, outputPort_port hb hport⟩
  · obtain ⟨n', hn', hchildren⟩ := hback p m hm
    rw [hchildren]
    exact hedges p n' hn'

end Sirius.Compression.Plan
