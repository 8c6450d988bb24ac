import Sirius.Compression.PlanBuild

/-!
# Rendering a tree and building it again

* `PlanStep.spelled`: the path `value_dsl_path` gives an output of a step.
* `Faithful`: the condition on the steps of a plan under which its rendering is read back.
* `planTreeFromDsl_renderPlanTree`: a faithful plan is built again as it was.
* `faithful_of_same`: no other plan is built again as the same tree.
* `render_roundtrip_iff`: both together.
-/

namespace Sirius.Compression.Plan

open Sirius.Common Sirius.Common.Text

/-! ## The paths of values -/

/-- The path `value_dsl_path` gives the output of a step that has the number `idx`, cut to a
`uint8_t`: a bitjoin's are spelled with the name of the operator. -/
def PlanStep.spelled (a : PlanStep) (idx : ℕ) : Str :=
  (if isBitjoin a.compressor then a.compressor else a.base) ++
    '.' :: (a.outputNames[idx % 256]?).getD []

/-- The values of a node have the paths its step consumes. -/
def Spelt (t : List PlanNode) (s : PlanStep) (n : PlanNode) : Prop :=
  List.Forall₂ (fun i v => ∀ fuel, v.node < fuel → valueDslPath t fuel v = i.1)
    s.inputs n.inputSources

section Values

variable {steps : List PlanStep} {t : List PlanNode} {k : ℕ} {s : PlanStep} {n : PlanNode}
  {refs : List (ℕ × Str)}

theorem BitjoinOf.isSome_iff {bitjoin : Option BitjoinAttrs} (h : BitjoinOf s refs bitjoin) :
    bitjoin.isSome = isBitjoin s.compressor := by
  unfold BitjoinOf at h
  split_ifs at h with hcase
  · obtain ⟨attrs, rfl, -⟩ := h
    simp [hcase]
  · rw [h]
    simpa using hcase

/-- The inputs of a step beside the values of its node. -/
theorem NodeOf.inputs (h : NodeOf steps t k s n refs) :
    List.Forall₂ (fun i v => ∃ ref,
      (Builder.mk [] (pathTable (steps.take k))).find s.rootChannel i.1 = some ref ∧
        v.node = ref.1 ∧ Port steps ref v.channel) s.inputs n.inputSources := by
  have hcomp := List.forall₂_iff_get.mp h.wired.1
  have hsrc := List.forall₂_iff_get.mp h.sources
  refine List.forall₂_iff_get.mpr ⟨hcomp.1.trans hsrc.1, fun i hi hv => ?_⟩
  have hr : i < refs.length := by
    rw [← hcomp.1]
    exact hi
  exact ⟨refs.get ⟨i, hr⟩, hcomp.2 i hi hr, hsrc.2 i hr hv⟩

theorem NodeOf.node_le (h : NodeOf steps t k s n refs) : ∀ v ∈ n.inputSources, v.node ≤ k := by
  intro v hv
  obtain ⟨i, hi⟩ := List.mem_iff_getElem?.mp hv
  obtain ⟨input, -, ref, hfind, hnode, -⟩ := forall₂_getElem? h.inputs.flip hi
  have hlt := find_lt hfind
  rw [List.length_take] at hlt
  omega

/-- A tree that was built from well-formed steps. -/
structure TreeOf (steps : List PlanStep) (t : List PlanNode) : Prop where
  wf : ∀ s ∈ steps, s.WellFormed
  length : t.length = steps.length + 1
  nodes : ∀ (k : ℕ) s, steps[k]? = some s → ∃ n refs, NodeOf steps t k s n refs

/-- The base of a node that is not a bitjoin, once the path of its value is known. -/
theorem NodeOf.source_base (hwf : ∀ s ∈ steps, s.WellFormed) (h : NodeOf steps t k s n refs)
    (hbitjoin : isBitjoin s.compressor = false) (hspelt : Spelt t s n) {fuel : ℕ} (hfuel : k < fuel) :
    (if n.source.node = 0 then bitextractCanonicalName n.op else valueDslPath t fuel n.source) =
      s.base := by
  have hone : s.inputs.length = 1 := h.wired.2.resolve_left (by simp [hbitjoin])
  obtain ⟨i, hi⟩ := List.length_eq_one_iff.mp hone
  have hinputs := h.inputs
  unfold Spelt at hspelt
  have hle := h.node_le
  have hbase : s.base = basePath [i.1] s.compressor := by
    rw [PlanStep.base, PlanStep.inputPaths, hi]
    rfl
  rw [hi] at hinputs hspelt
  cases hsources : n.inputSources with
  | nil => rw [hsources] at hinputs; cases hinputs
  | cons v vs =>
    rw [hsources] at hinputs hspelt
    obtain ⟨⟨ref, hfind, hnode, -⟩, -⟩ := List.forall₂_cons.mp hinputs
    have hpath := (List.forall₂_cons.mp hspelt).1 fuel
      (lt_of_le_of_lt (hle v (by rw [hsources]; simp)) hfuel)
    have hsource : n.source = v := by simp [PlanNode.source, hsources]
    rw [hsource, hpath, hbase, h.op]
    rcases wired_cases hwf hfind with ⟨hroot, rfl⟩ | ⟨j, a, hj, -, -, -, hne, -⟩
    · rw [if_pos hnode, basePath, if_pos hroot]
    · rw [if_neg (by omega), basePath, if_neg hne]

/-- The path of an output of a step whose own inputs are spelled right. -/
theorem NodeOf.valueDslPath_output (hwf : ∀ s ∈ steps, s.WellFormed)
    (h : NodeOf steps t k s n refs) (hs : s.WellFormed)
    (hspelt : isBitjoin s.compressor = true ∨ Spelt t s n) {channel : Str} {idx : ℕ}
    (hidx : s.outputNames.findIdx? (· == channel) = some idx) {fuel : ℕ} (hfuel : k + 1 < fuel) :
    valueDslPath t fuel ⟨k + 1, UInt8.ofNat idx⟩ = s.spelled idx := by
  obtain ⟨fuel, rfl⟩ := Nat.exists_eq_add_of_lt hfuel
  obtain ⟨hlt, -⟩ := List.findIdx?_eq_some_iff_getElem.mp hidx
  have hmod : idx % 256 < s.outputNames.length := lt_of_le_of_lt (Nat.mod_le _ _) hlt
  have hchan : (s.outputNames[idx % 256]?).getD [] ≠ [] := by
    rw [List.getElem?_eq_getElem hmod, Option.getD_some]
    obtain ⟨o, ho, heq⟩ := List.mem_map.mp (List.getElem_mem hmod)
    rw [PlanStep.outputNames] at *
    rw [← heq]
    exact (hs.outputs o ho).ne_nil
  have hnum : (UInt8.ofNat idx).toNat = idx % 256 := UInt8.toNat_ofNat'
  have hbase : (if n.bitjoin.isSome then n.op
      else if n.source.node = 0 then bitextractCanonicalName n.op
      else valueDslPath t (k + 1 + fuel) n.source) =
        if isBitjoin s.compressor then s.compressor else s.base := by
    rw [h.bitjoin.isSome_iff, h.op]
    by_cases hbitjoin : isBitjoin s.compressor = true
    · rw [if_pos hbitjoin, if_pos hbitjoin]
    · rw [if_neg hbitjoin, if_neg hbitjoin, ← h.op]
      exact h.source_base hwf (by simpa using hbitjoin) (hspelt.resolve_left hbitjoin) (by omega)
  have hne : (if isBitjoin s.compressor then s.compressor else s.base) ≠ [] := by
    split_ifs
    · exact hs.compressor.ne_nil
    · exact hs.base_ne
  rw [valueDslPath, if_neg (Nat.succ_ne_zero k), h.node]
  simp only [h.names, hnum, hbase, if_neg hne, if_neg hchan]
  rfl

end Values

/-! ## Faithful plans -/

/-- A step consumes outputs of earlier steps by the paths that `value_dsl_path` gives them. -/
def Consistent (steps : List PlanStep) (k : ℕ) (s : PlanStep) : Prop :=
  ∀ i ∈ s.inputs, ∀ (j : ℕ) (channel : Str),
    (pathTable (steps.take k)).lookup i.1 = some (j + 1, channel) →
      ∀ a, steps[j]? = some a → ∀ idx, a.outputNames.findIdx? (· == channel) = some idx →
        a.spelled idx = i.1

/-- What a plan needs for its rendering to be read back: the tokens that are rendered read
back, and each value is consumed by the path it is rendered with. -/
structure Faithful (steps : List PlanStep) : Prop where
  inputs : ∀ s ∈ steps, ∀ i ∈ s.normal.inputs, ReadsBack i
  outputs : ∀ s ∈ steps, ∀ o ∈ s.normal.outputs, ReadsBack o
  consistent : ∀ (k : ℕ) s, steps[k]? = some s → Consistent steps k s

section Faithful

variable {steps : List PlanStep} {t : List PlanNode}

/-- The path `d` of the value that step `k` consumes as `q`. -/
def ValuePath (steps : List PlanStep) (k : ℕ) (q d : Str) : Prop :=
  (q = "input".toList ∧ d = "input".toList) ∨ ∃ (j : ℕ) (a : PlanStep) (channel : Str) (idx : ℕ),
    (pathTable (steps.take k)).lookup q = some (j + 1, channel) ∧ steps[j]? = some a ∧
      a.outputNames.findIdx? (· == channel) = some idx ∧ q = a.base ++ '.' :: channel ∧
        d = a.spelled idx

/-- The paths of the values of a node, where the nodes before it have the paths their steps
consume. -/
theorem NodeOf.values (htree : TreeOf steps t) {k : ℕ}
    {s : PlanStep} {n : PlanNode} {refs : List (ℕ × Str)} (h : NodeOf steps t k s n refs)
    (hbefore : ∀ j < k, ∀ a n' refs', steps[j]? = some a → NodeOf steps t j a n' refs' →
      Spelt t a n') :
    List.Forall₂ (fun i v => ∀ fuel, v.node < fuel → ValuePath steps k i.1 (valueDslPath t fuel v))
      s.inputs n.inputSources := by
  refine h.inputs.imp fun i v ⟨ref, hfind, hnode, hport⟩ fuel hfuel => ?_
  rcases wired_cases htree.wf hfind with ⟨hroot, rfl⟩ | ⟨j, a, hj, hlt, ha, hchannel, hne, hpath⟩
  · obtain ⟨fuel, rfl⟩ := Nat.exists_eq_add_of_lt hfuel
    refine .inl ⟨hroot, ?_⟩
    rw [valueDslPath, if_pos hnode]
  · rcases hport with ⟨hzero, -⟩ | ⟨j', a', idx, hj', ha', hidx, hchan⟩
    · omega
    · obtain rfl : j = j' := by omega
      obtain rfl := Option.some.inj (ha.symm.trans ha')
      obtain ⟨n', refs', hn'⟩ := htree.nodes j a ha
      have hlookup : (pathTable (steps.take k)).lookup i.1 = some (j + 1, ref.2) := by
        obtain ⟨⟨node, ch⟩, he, heq⟩ := Option.map_eq_some_iff.mp hfind
        rw [if_neg hne] at heq
        rw [he, ← heq, ← hj, ← heq]
      have hvalue : v = ⟨j + 1, UInt8.ofNat idx⟩ := by
        obtain ⟨node, ch⟩ := v
        simp only at hnode hchan
        rw [hnode, hj, hchan]
      refine .inr ⟨j, a, ref.2, idx, hlookup, ha, hidx, hpath, ?_⟩
      rw [hvalue]
      exact hn'.valueDslPath_output htree.wf (htree.wf a (List.mem_of_getElem? ha))
        (.inr (hbefore j hlt a n' refs' ha hn')) hidx (by omega)

theorem ValuePath.eq {k : ℕ} {s : PlanStep} {i : Str × Option BitRange} {d : Str}
    (hconsistent : Consistent steps k s) (hi : i ∈ s.inputs) (h : ValuePath steps k i.1 d) :
    d = i.1 := by
  rcases h with ⟨hq, hd⟩ | ⟨j, a, channel, idx, hlookup, ha, hidx, -, hd⟩
  · rw [hq, hd]
  · rw [hd]
    exact hconsistent i hi j channel hlookup a ha idx hidx

theorem spelt_of_consistent (htree : TreeOf steps t) (k : ℕ)
    (hconsistent : ∀ j ≤ k, ∀ s, steps[j]? = some s → Consistent steps j s) :
    ∀ s n refs, steps[k]? = some s → NodeOf steps t k s n refs → Spelt t s n := by
  induction k using Nat.strong_induction_on with
  | _ k ih =>
    intro s n refs hs hn
    have hvalues := hn.values htree fun j hj =>
      ih j hj fun j' hj' => hconsistent j' (hj'.trans hj.le)
    refine List.forall₂_iff_get.mpr ⟨hvalues.length_eq, fun m hi hv fuel hfuel => ?_⟩
    exact ((List.forall₂_iff_get.mp hvalues).2 m hi hv fuel hfuel).eq (hconsistent k le_rfl s hs)
      (List.get_mem _ _)

/-- The rendered inputs of a node are the paths of its values, with the ranges of its step. -/
theorem NodeOf.renderedInputs_forall₂ {k : ℕ} {s : PlanStep} {n : PlanNode} {refs : List (ℕ × Str)}
    (h : NodeOf steps t k s n refs) (hk : k < t.length) {P : Str → Str → Prop}
    (hvalues : List.Forall₂ (fun i v => ∀ fuel, v.node < fuel → P i.1 (valueDslPath t fuel v))
      s.inputs n.inputSources) :
    List.Forall₂ (fun i d => d.2 = i.2 ∧ P i.1 d.1) s.normal.inputs (renderedInputs t n) := by
  have hpaths : List.Forall₂ (fun i v => P i.1 (valueDslPath t t.length v)) s.inputs
      n.inputSources := by
    refine List.forall₂_iff_get.mpr ⟨hvalues.length_eq, fun m hi hv => ?_⟩
    exact (List.forall₂_iff_get.mp hvalues).2 m hi hv _
      (lt_of_le_of_lt (h.node_le _ (List.get_mem _ _)) hk)
  have hbitjoin := h.bitjoin
  unfold BitjoinOf at hbitjoin
  unfold renderedInputs PlanStep.normal
  rw [List.forall₂_map_left_iff]
  split_ifs at hbitjoin with hcase
  · obtain ⟨attrs, hattrs, hrefs, hranges⟩ := hbitjoin
    simp only [hattrs, hcase, if_true]
    rw [List.forall₂_map_right_iff]
    refine List.forall₂_iff_get.mpr ⟨by rw [hpaths.length_eq, List.length_zipIdx],
      fun m hi hv => ?_⟩
    have hrange := congrArg (fun l => l[m]?) hranges
    simp only [List.getElem?_map, List.getElem?_eq_getElem hi, Option.map_some] at hrange
    obtain ⟨r, hr, hri⟩ := Option.map_eq_some_iff.mp hrange
    simp only [List.get_eq_getElem, List.getElem_zipIdx, Nat.zero_add, hr, Option.bind_some, hri]
    exact ⟨trivial, (List.forall₂_iff_get.mp hpaths).2 m hi _⟩
  · have hone : s.inputs.length = 1 := h.wired.2.resolve_left hcase
    obtain ⟨i, hi⟩ := List.length_eq_one_iff.mp hone
    rw [hi] at hpaths ⊢
    match hsources : n.inputSources with
    | [] => rw [hsources] at hpaths; cases hpaths
    | v :: vs =>
      rw [hsources] at hpaths
      have hpath := (List.forall₂_cons.mp hpaths).1
      simp only [hbitjoin, if_neg hcase, PlanNode.source, hsources, List.head?_cons,
        Option.getD_some]
      exact .cons ⟨rfl, hpath⟩ .nil

/-- The inputs of a node are rendered as its step has them. -/
theorem NodeOf.renderedInputs_eq {k : ℕ} {s : PlanStep} {n : PlanNode} {refs : List (ℕ × Str)}
    (h : NodeOf steps t k s n refs) (hk : k < t.length) (hspelt : Spelt t s n) :
    renderedInputs t n = s.normal.inputs := by
  have hpairs := h.renderedInputs_forall₂ hk (P := fun q d => d = q) hspelt
  refine (List.forall₂_eq_eq_eq ▸ hpairs.imp fun i d hid => ?_ : s.normal.inputs = _).symm
  exact Prod.ext hid.2.symm hid.1.symm

/-- The text of a tree is that of steps with the same tokens. -/
theorem renderPlanTree_eq {rendered : List PlanStep} (hlength : t.length = rendered.length + 1)
    (h : ∀ (k : ℕ) s, rendered[k]? = some s → ∃ n, t[k + 1]? = some n ∧
      renderedInputs t n = s.inputs ∧ n.op = s.compressor ∧
        n.outputNames.map (fun name => (name, none)) = s.outputs) :
    renderPlanTree t = renderPlanSteps rendered := by
  unfold renderPlanTree renderPlanSteps
  rw [List.flatMap_map]
  have htail : t.tail.map (fun n => renderStep (renderedInputs t n) n.op
      (n.outputNames.map fun name => (name, none))) =
        rendered.map fun s => renderStep s.inputs s.compressor s.outputs := by
    refine List.ext_getElem? fun k => ?_
    rw [List.getElem?_map, List.getElem?_map, List.getElem?_tail]
    cases hs : rendered[k]? with
    | none =>
      have hnone : t[k + 1]? = none := by
        rw [List.getElem?_eq_none_iff] at hs ⊢
        omega
      rw [hnone]
      rfl
    | some s =>
      obtain ⟨n, hn, hinputs, hop, houtputs⟩ := h k s hs
      rw [hn, Option.map_some, Option.map_some, hinputs, hop, houtputs]
  calc t.tail.flatMap (fun n => renderStep (renderedInputs t n) n.op
        (n.outputNames.map fun name => (name, none)) ++ ['\n'])
      = (t.tail.map fun n => renderStep (renderedInputs t n) n.op
          (n.outputNames.map fun name => (name, none))).flatMap fun l => l ++ ['\n'] := by
        rw [List.flatMap_map]
    _ = rendered.flatMap fun s => renderStep s.inputs s.compressor s.outputs ++ ['\n'] := by
        rw [htail, List.flatMap_map]

theorem fresh_normal {seen : List Str} (h : Fresh seen steps) :
    Fresh seen (steps.map PlanStep.normal) := by
  induction steps generalizing seen with
  | nil => trivial
  | cons s steps ih =>
    refine ⟨fun i hi => ?_, by rw [PlanStep.normal_inputPaths]; exact ih h.2⟩
    obtain ⟨j, hj, rfl⟩ := List.mem_map.mp hi
    exact h.1 j hj

/-- The builder does not look at what a normal step leaves out. -/
theorem addStep_normal (b : Builder) (s : PlanStep) : b.addStep s.normal = b.addStep s := by
  have hwire : b.wire s.normal = b.wire s := by
    unfold Builder.wire PlanStep.normal
    by_cases hbitjoin : isBitjoin s.compressor = true
    · simp [hbitjoin]
    · simp only [if_neg hbitjoin]
      match s.inputs with
      | [] => rfl
      | [i] => rfl
      | _ :: _ :: _ => rfl
  unfold Builder.addStep
  rw [hwire, PlanStep.normal_outputNames]
  rfl

theorem planTreeFromSteps_normal (steps : List PlanStep) :
    planTreeFromSteps (steps.map PlanStep.normal) = planTreeFromSteps steps := by
  have hfold : ∀ b, (steps.map PlanStep.normal).foldlM Builder.addStep b =
      steps.foldlM Builder.addStep b := by
    intro b
    rw [List.foldlM_map]
    simp only [addStep_normal]
  unfold planTreeFromSteps
  rw [hfold]

/-- A faithful plan is built again as it was. -/
theorem planTreeFromDsl_renderPlanTree (hwf : ∀ s ∈ steps, s.WellFormed) (hfresh : Fresh [] steps)
    (htree : planTreeFromSteps steps = .ok t) (h : Faithful steps) :
    planTreeFromDsl (renderPlanTree t) = .ok t := by
  obtain ⟨hlength, hnodes⟩ := planTreeFromSteps_nodes htree
  have hof : TreeOf steps t := ⟨hwf, hlength, hnodes⟩
  have htext : renderPlanTree t = renderPlanSteps (steps.map PlanStep.normal) := by
    refine renderPlanTree_eq (by rw [hlength, List.length_map]) fun k s hs => ?_
    rw [List.getElem?_map] at hs
    obtain ⟨s', hs', rfl⟩ := Option.map_eq_some_iff.mp hs
    obtain ⟨n, refs, hn⟩ := hnodes k s' hs'
    have hk := (List.getElem?_eq_some_iff.mp hs').1
    refine ⟨n, hn.node, hn.renderedInputs_eq (by omega)
      (spelt_of_consistent hof k (fun j _ => h.consistent j) s' n refs hs' hn), hn.op, ?_⟩
    rw [hn.names, PlanStep.outputNames, List.map_map]
    rfl
  have hnormal : ∀ s ∈ steps.map PlanStep.normal, ∃ s' ∈ steps, s = s'.normal := by
    intro s hs
    obtain ⟨s', hs', rfl⟩ := List.mem_map.mp hs
    exact ⟨s', hs', rfl⟩
  have hparse : parsePlanDsl (renderPlanTree t) = .ok (steps.map PlanStep.normal) := by
    rw [htext]
    refine parsePlanDsl_renderPlanSteps (fun s hs => ?_) (fun s hs => ?_) (fun s hs => ?_)
      (fresh_normal hfresh)
    · obtain ⟨s', hs', rfl⟩ := hnormal s hs
      exact (hwf s' hs').normal
    · obtain ⟨s', hs', rfl⟩ := hnormal s hs
      exact h.inputs s' hs'
    · obtain ⟨s', hs', rfl⟩ := hnormal s hs
      exact h.outputs s' hs'
  rw [planTreeFromDsl, hparse, ok_bind, planTreeFromSteps_normal, htree]

end Faithful

/-! ## Reading a rendered tree -/

theorem forall₂_eq_of_sum_le {α β : Type} {f : α → ℕ} {g : β → ℕ} {xs : List α} {ys : List β}
    (h : List.Forall₂ (fun x y => f x ≤ g y) xs ys) (hsum : (ys.map g).sum ≤ (xs.map f).sum) :
    List.Forall₂ (fun x y => f x = g y) xs ys := by
  have hle : ∀ {xs : List α} {ys : List β}, List.Forall₂ (fun x y => f x ≤ g y) xs ys →
      (xs.map f).sum ≤ (ys.map g).sum := by
    intro xs ys h
    induction h with
    | nil => exact le_rfl
    | cons hxy _ ih =>
      simp only [List.map_cons, List.sum_cons]
      exact Nat.add_le_add hxy ih
  induction h with
  | nil => exact .nil
  | cons hxy hrest ih =>
    have := hle hrest
    simp only [List.map_cons, List.sum_cons] at hsum
    exact .cons (by omega) (ih (by omega))

theorem bitextractCanonicalName_clean {name : Str} (h : Clean name) :
    Clean (bitextractCanonicalName name) := by
  rcases bitextractCanonicalName_cases name with heq | ⟨type, fields, hname, hcanon⟩
  · rwa [heq]
  · have hpart : fields <:+: name := by
      rw [hname]
      exact ⟨"bitextract_".toList ++ type ++ ['_'], [], by simp⟩
    have hfirst : ∀ c, "bitextract".toList.head? = some c → isSpace c = false := by
      intro c hc
      obtain rfl := Option.some.inj hc
      rfl
    have hclean : Clean "bitextract".toList :=
      ⟨by decide, hfirst, by decide, by decide, noPair_of_not_mem (by decide)⟩
    have hname' : "bitextract_".toList ++ fields = "bitextract".toList ++ '_' :: fields := rfl
    rw [hcanon, hname']
    refine hclean.append (by decide) ?_ ?_ (noPair_cons (h.arrow.of_isInfix hpart) (by simp))
    · simpa using fun hm => h.line (hpart.subset hm)
    · simpa using fun hm => h.comment (hpart.subset hm)

theorem input_clean : CleanToken "input".toList := by
  refine ⟨⟨by decide, fun c hc => ?_, by decide, by decide, noPair_of_not_mem (by decide)⟩,
    by decide⟩
  obtain rfl := Option.some.inj hc
  rfl

theorem Clean.output {base name : Str} (hbase : Clean base) (hname : Clean name) :
    Clean (base ++ '.' :: name) := by
  refine hbase.append (by decide) ?_ ?_ (noPair_cons hname.arrow (by simp))
  · simpa using hname.line
  · simpa using hname.comment

section Reading

variable {steps : List PlanStep} {t : List PlanNode}

/-- The path of a value is clean text. -/
theorem valueDslPath_clean (htree : TreeOf steps t) (fuel : ℕ) (v : ValueId)
    (hfuel : v.node < fuel) : Clean (valueDslPath t fuel v) := by
  have hlength := htree.length
  induction fuel generalizing v with
  | zero => omega
  | succ fuel ih =>
    rw [valueDslPath]
    by_cases hzero : v.node = 0
    · rw [if_pos hzero]
      exact input_clean.toClean
    · rw [if_neg hzero]
      cases hp : t[v.node]? with
      | none => exact input_clean.toClean
      | some p =>
        obtain ⟨j, hj⟩ := Nat.exists_eq_succ_of_ne_zero hzero
        have hlt := (List.getElem?_eq_some_iff.mp hp).1
        obtain ⟨a, ha⟩ : ∃ a, steps[j]? = some a := ⟨_, List.getElem?_eq_getElem (by omega)⟩
        obtain ⟨n, refs, hn⟩ := htree.nodes j a ha
        obtain rfl : n = p := by
          rw [hj] at hp
          exact Option.some.inj (hn.node.symm.trans hp)
        have hs := htree.wf a (List.mem_of_getElem? ha)
        have hop : Clean n.op := by
          rw [hn.op]
          exact hs.compressor
        have hbase : Clean (if n.bitjoin.isSome then n.op
            else if n.source.node = 0 then bitextractCanonicalName n.op
            else valueDslPath t fuel n.source) := by
          split_ifs with hbitjoin hsource
          · exact hop
          · exact bitextractCanonicalName_clean hop
          · refine ih _ ?_
            have hmem : n.source ∈ n.inputSources := by
              unfold PlanNode.source at hsource ⊢
              cases hvs : n.inputSources with
              | nil => rw [hvs] at hsource; exact absurd rfl hsource
              | cons v vs => simp
            have := hn.node_le _ hmem
            omega
        simp only [if_neg hbase.ne_nil]
        generalize (if n.bitjoin.isSome then n.op
          else if n.source.node = 0 then bitextractCanonicalName n.op
          else valueDslPath t fuel n.source) = base at hbase
        split_ifs with hchan
        · exact hbase
        · refine hbase.output ?_
          cases hname : n.outputNames[v.channel.toNat]? with
          | none => rw [hname] at hchan; exact absurd rfl hchan
          | some name =>
            have hmem := List.mem_of_getElem? hname
            rw [hn.names] at hmem
            obtain ⟨o, ho, rfl⟩ := List.mem_map.mp hmem
            exact (hs.outputs o ho).toClean

/-- The lines of a tree can be read. -/
theorem NodeOf.renderable (htree : TreeOf steps t) {k : ℕ} {s : PlanStep} {n : PlanNode}
    {refs : List (ℕ × Str)} (hs : s.WellFormed) (hk : k < t.length)
    (h : NodeOf steps t k s n refs) :
    Renderable (renderedInputs t n) n.op (n.outputNames.map fun name => (name, none)) := by
  have hsources : n.inputSources ≠ [] := by
    intro hnil
    have := h.inputs.length_eq
    rw [hnil] at this
    exact hs.inputs_ne (List.eq_nil_of_length_eq_zero this)
  have hle : ∀ v ∈ n.inputSources, v.node < t.length := fun v hv =>
    lt_of_le_of_lt (h.node_le v hv) hk
  have hsource : n.source ∈ n.inputSources := by
    unfold PlanNode.source
    cases hvs : n.inputSources with
    | nil => exact absurd hvs hsources
    | cons v vs => simp
  refine ⟨?_, fun i hi => ?_, by rw [h.op]; exact hs.compressor, by rw [h.op]; exact hs.trimmed,
    fun o ho => ?_⟩
  · unfold renderedInputs
    cases n.bitjoin with
    | none => simp
    | some bj => simpa using hsources
  · unfold renderedInputs at hi
    cases hbitjoin : n.bitjoin with
    | none =>
      rw [hbitjoin] at hi
      rw [List.mem_singleton.mp hi]
      exact valueDslPath_clean htree _ _ (hle _ hsource)
    | some bj =>
      rw [hbitjoin] at hi
      obtain ⟨⟨v, m⟩, hv, rfl⟩ := List.mem_map.mp hi
      exact valueDslPath_clean htree _ _ (hle _ (List.fst_mem_of_mem_zipIdx hv))
  · obtain ⟨name, hname, rfl⟩ := List.mem_map.mp ho
    rw [h.names] at hname
    obtain ⟨o', ho', rfl⟩ := List.mem_map.mp hname
    exact (hs.outputs o' ho').toClean

/-- Lines that are not blank are read one by one. -/
theorem parseLines_forall₂ {raws : List Str} {steps : List PlanStep} {seen : List Str} {line : ℕ}
    (hraws : ∀ raw ∈ raws, lineText raw ≠ []) (h : parseLines seen line raws = .ok steps) :
    List.Forall₂ (fun raw s => ∃ seen line, parseStep seen line (lineText raw) = .ok s) raws
      steps := by
  induction raws generalizing seen line steps with
  | nil =>
    obtain rfl := Except.ok.inj h
    exact .nil
  | cons raw raws ih =>
    rw [parseLines] at h
    simp only [if_neg (hraws raw List.mem_cons_self)] at h
    obtain ⟨s, hs, h⟩ := bind_eq_ok.mp h
    obtain ⟨rest, hrest, h⟩ := bind_eq_ok.mp h
    obtain rfl := Except.ok.inj h
    exact .cons ⟨_, _, hs⟩ (ih (fun r hr => hraws r (List.mem_cons_of_mem _ hr)) hrest)

end Reading

/-! ## Trees that are the same -/

/-- Nodes with the same operator, applied to the same values, with the same outputs. -/
structure SameNode (n n' : PlanNode) : Prop where
  op : n.op = n'.op
  children : n.children = n'.children
  bitextract : n.bitextract = n'.bitextract
  bitjoin : n.bitjoin = n'.bitjoin
  outputNames : n.outputNames = n'.outputNames
  inputSources : n.inputSources = n'.inputSources

/-- Two trees with the same nodes in the same order, which is the order of the text. -/
def Same (t t' : List PlanNode) : Prop := List.Forall₂ SameNode t t'

theorem Same.refl (t : List PlanNode) : Same t t :=
  List.forall₂_same.mpr fun _ _ => ⟨rfl, rfl, rfl, rfl, rfl, rfl⟩

/-- A name that is read back with its whole length is read back as it is. -/
theorem parseToken_length {line : ℕ} {what : String} {name : Str} {tok : Str × Option BitRange}
    (h : parseToken line what (trimCopy name) = .ok tok) :
    tok.1.length ≤ name.length ∧
      (tok.1.length = name.length → ReadsBack (name, none)) := by
  obtain ⟨path, hsplit, -, hname⟩ := parseToken_ok.mp h
  have hprefix := splitPathAndRange_isPrefix hsplit
  have hpart : trimCopy name <:+: name := trim_isInfix isSpace name
  have hcanon : (canonicalizePath path).length ≤ path.length := by
    by_cases hself : canonicalizePath path = path
    · rw [hself]
    · exact (canonicalizePath_length path hself).le
  have hle := hprefix.length_le
  have hle' := hpart.length_le
  rw [hname]
  refine ⟨by omega, fun hlength => ?_⟩
  have htrim : trimCopy name = name := hpart.eq_of_length (by omega)
  have hpath : path = name := by
    rw [← htrim]
    exact hprefix.eq_of_length (by omega)
  subst hpath
  refine ⟨?_, fun _ => ?_, fun _ => ?_⟩
  · by_contra hself
    have := canonicalizePath_length path hself
    omega
  · rcases splitPathAndRange_cases hsplit with ⟨hcolon, -, -⟩ | ⟨hi, lo, heq, -, -⟩
    · rwa [htrim] at hcolon
    · have := congrArg List.length heq
      rw [htrim] at this
      simp at this
  · have := (trim_trimmed isSpace path).last
    rwa [show trim isSpace path = path from htrim] at this

/-- The output names of a step read back, if reading them gives the same names. -/
theorem readsBack_outputs {line : ℕ} {names : List Str} {outputs tokens : List (Str × Option BitRange)}
    (hclean : ∀ name ∈ names, CleanToken name)
    (htokens : ((names.map fun name => (name, none)).flatMap fun t => splitCsv (renderToken t)).mapM
      (parseToken line "output") = .ok tokens)
    (hperm : outputs.Perm tokens) (hnames : outputs.map Prod.fst = names) :
    ∀ name ∈ names, ReadsBack (name, none) := by
  have hflat : ((names.map fun name => (name, (none : Option BitRange))).flatMap fun t =>
      splitCsv (renderToken t)) = names.map trimCopy := by
    rw [List.flatMap_map]
    have hone : ∀ name ∈ names, splitCsv (renderToken (name, none)) = [trimCopy name] :=
      fun name hname => splitCsv_renderToken (t := (name, none)) (hclean name hname)
    rw [List.flatMap_congr hone, List.map_eq_flatMap]
  rw [hflat] at htokens
  have hpairs := List.forall₂_map_left_iff.mp (forall₂_of_mapM_eq_ok htokens)
  have hsum : (names.map List.length).sum ≤ (tokens.map fun tok => tok.1.length).sum := by
    have hlengths := (hperm.map fun tok => tok.1.length).sum_eq
    have hmap : outputs.map (fun tok => tok.1.length) = names.map List.length := by
      rw [← hnames, List.map_map]
      rfl
    rw [← hlengths, hmap]
  have heq := forall₂_eq_of_sum_le
    ((hpairs.imp fun name tok h => (parseToken_length h).1).flip) hsum
  intro name hname
  obtain ⟨i, hi⟩ := List.mem_iff_getElem?.mp hname
  obtain ⟨tok, htok, hparse⟩ := forall₂_getElem? hpairs hi
  obtain ⟨name', hname', hlength⟩ := forall₂_getElem? heq htok
  obtain rfl := Option.some.inj (hi.symm.trans hname')
  exact (parseToken_length hparse).2 hlength

/-- The path of a value that ends in an output name that reads back is read as a whole. -/
theorem parseToken_value {line : ℕ} {what : String} {base name q : Str}
    {r r' : Option BitRange} (hclean : Clean (base ++ '.' :: name)) (hne : name ≠ [])
    (hname : ReadsBack (name, none))
    (h : parseToken line what (trimCopy (renderToken (base ++ '.' :: name, r))) = .ok (q, r')) :
    canonicalizePath (base ++ '.' :: name) = q ∧ (r = none → ':' ∉ base ++ '.' :: name) := by
  have hlast : ∀ c, (base ++ '.' :: name).getLast? = some c → isSpace c = false := by
    intro c hc
    have heq : base ++ '.' :: name = (base ++ ['.']) ++ name := by simp
    rw [heq, List.getLast?_append_of_ne_nil _ hne] at hc
    exact hname.trimmed rfl c hc
  have htrim : trimCopy (renderToken (base ++ '.' :: name, r)) = renderToken (base ++ '.' :: name, r) := by
    refine trim_eq_self ⟨(renderToken_clean hclean).first, ?_⟩
    cases r with
    | none => exact hlast
    | some r => exact getLast?_renderToken r
  rw [htrim] at h
  obtain ⟨path, hsplit, -, hq⟩ := parseToken_ok.mp h
  cases r with
  | some r =>
    rw [splitPathAndRange_renderToken hclean.ne_nil] at hsplit
    obtain ⟨rfl, -⟩ := Prod.mk.inj (Option.some.inj hsplit)
    refine ⟨hq.symm, ?_⟩
    intro habsurd
    cases habsurd
  | none =>
    rcases splitPathAndRange_cases hsplit with ⟨hcolon, rfl, -⟩ | ⟨hi, lo, heq, hlo, -⟩
    · exact ⟨hq.symm, fun _ => hcolon⟩
    · -- the last colon would be in the base, and the dot after it among digits
      exfalso
      have heq' : base ++ '.' :: name = (path ++ '_' :: hi) ++ ':' :: lo := by
        rw [List.append_assoc, List.cons_append]
        exact heq
      rcases List.append_eq_append_iff.mp heq' with ⟨m, -, hm⟩ | ⟨m, -, hm⟩
      · have hmem : ':' ∈ '.' :: name := by
          rw [hm]
          simp
        exact hname.colon rfl (by simpa using hmem)
      · have hmem : '.' ∈ ':' :: lo := by
          rw [hm]
          simp
        have hdot := hlo '.' (by simpa using hmem)
        cases hdot

/-- An output that is read back by its path was spelled as that path. -/
theorem spelled_eq_of_canonicalizePath {a : PlanStep} {idx : ℕ} {channel : Str}
    (h : canonicalizePath (a.spelled idx) = a.base ++ '.' :: channel) :
    a.spelled idx = a.base ++ '.' :: channel ∧
      canonicalizePath (a.base ++ '.' :: channel) = a.base ++ '.' :: channel := by
  have hself : canonicalizePath (a.spelled idx) = a.spelled idx := by
    unfold PlanStep.spelled at h ⊢
    by_cases hbitjoin : isBitjoin a.compressor = true
    · rw [if_pos hbitjoin]
      exact canonicalizePath_bitjoin
        ((List.isPrefixOf_iff_prefix.mp hbitjoin).trans (List.prefix_append _ _))
    · rw [if_neg hbitjoin] at h ⊢
      obtain ⟨hbase, -⟩ := canonicalizePath_of_append h
      rw [canonicalizePath_append, hbase]
  have heq := hself.symm.trans h
  exact ⟨heq, by rw [← heq, hself]⟩

section Congruence

variable {steps steps' : List PlanStep} {t t' : List PlanNode} {k : ℕ} {s s' : PlanStep}
  {n n' : PlanNode} {refs refs' : List (ℕ × Str)}

/-- The path table only depends on the outputs of the steps. -/
theorem pathTable_congr
    (h : steps.map (fun s => (s.outputPaths, s.outputNames)) =
      steps'.map fun s => (s.outputPaths, s.outputNames)) : pathTable steps = pathTable steps' := by
  have hkey : ∀ steps : List PlanStep, pathTable steps =
      ((steps.map fun s => (s.outputPaths, s.outputNames)).zipIdx.reverse.flatMap fun p =>
        ((p.1.1.zip p.1.2).map fun q => (q.1, p.2 + 1, q.2)).reverse) ++
          [("input".toList, 0, [])] := by
    intro steps
    rw [List.zipIdx_map, ← List.map_reverse, List.flatMap_map]
    rfl
  rw [hkey, hkey, h]

/-- Nodes of trees that are the same consume the same values. -/
theorem NodeOf.refs_eq (h : NodeOf steps t k s n refs) (h' : NodeOf steps' t' k s' n' refs')
    (hk : k < t.length) (hcomp : s'.compressor = s.compressor) (hsame : Same t' t) : refs' = refs := by
  obtain ⟨m, hm, hnode⟩ := forall₂_getElem? hsame h'.node
  obtain rfl := Option.some.inj (h.node.symm.trans hm)
  have hbitjoin := h.bitjoin
  have hbitjoin' := h'.bitjoin
  unfold BitjoinOf at hbitjoin hbitjoin'
  rw [hcomp] at hbitjoin'
  split_ifs at hbitjoin hbitjoin' with hcase
  · obtain ⟨attrs, hattrs, hrefs, -⟩ := hbitjoin
    obtain ⟨attrs', hattrs', hrefs', -⟩ := hbitjoin'
    rw [hnode.bitjoin, hattrs] at hattrs'
    obtain rfl := Option.some.inj hattrs'
    rw [← hrefs, hrefs']
  · have hone : refs.length = 1 := by
      rw [← h.wired.1.length_eq]
      exact h.wired.2.resolve_left hcase
    have hone' : refs'.length = 1 := by
      rw [← h'.wired.1.length_eq]
      exact h'.wired.2.resolve_left (by rw [hcomp]; exact hcase)
    obtain ⟨ref, rfl⟩ := List.length_eq_one_iff.mp hone
    obtain ⟨ref', rfl⟩ := List.length_eq_one_iff.mp hone'
    obtain ⟨i, -, hi⟩ := forall₂_getElem? (i := 0) h.wired.1.flip rfl
    have hle := find_lt hi
    rw [List.length_take] at hle
    obtain ⟨m, hm⟩ : ∃ m, t[ref.1]? = some m := ⟨_, List.getElem?_eq_getElem (by omega)⟩
    obtain ⟨m', hm', hchildren⟩ := forall₂_getElem? hsame.flip hm
    have hedge := h.edges _ _ hm
    have hedge' := h'.edges _ _ hm'
    rw [hchildren.children, hedge] at hedge'
    by_cases hp : ref'.1 = ref.1
    · simp [hp] at hedge'
      rw [Prod.ext hp hedge'.symm]
    · simp [hp] at hedge'

theorem find_injective (hwf : ∀ s ∈ steps, s.WellFormed) {root p q : Str} {ref : ℕ × Str}
    (hp : (Builder.mk [] (pathTable (steps.take k))).find root p = some ref)
    (hq : (Builder.mk [] (pathTable (steps.take k))).find root q = some ref) : p = q := by
  rcases wired_cases hwf hp with ⟨hp, hroot⟩ | ⟨j, a, hj, -, ha, -, -, hp⟩
  · rcases wired_cases hwf hq with ⟨hq, -⟩ | ⟨j', a', hj', -⟩
    · rw [hp, hq]
    · rw [hroot] at hj'
      cases hj'
  · rcases wired_cases hwf hq with ⟨-, hroot⟩ | ⟨j', a', hj', -, ha', -, -, hq⟩
    · rw [hroot] at hj
      cases hj
    · obtain rfl : j = j' := by omega
      obtain rfl := Option.some.inj (ha.symm.trans ha')
      rw [hp, hq]

/-- Steps wired to the same values by the same paths consume the same paths. -/
theorem NodeOf.inputPaths_eq (hwf : ∀ s ∈ steps, s.WellFormed) (h : NodeOf steps t k s n refs)
    (h' : NodeOf steps' t' k s' n' refs) (hcomp : s'.compressor = s.compressor)
    (htable : pathTable (steps'.take k) = pathTable (steps.take k)) :
    List.Forall₂ (fun i i' => i'.1 = i.1) s.inputs s'.inputs := by
  have hwired := h.wired.1
  have hwired' := h'.wired.1
  have hroot : s'.rootChannel = s.rootChannel := by
    unfold PlanStep.rootChannel
    rw [hcomp]
  rw [htable, hroot] at hwired'
  refine List.forall₂_iff_get.mpr ⟨hwired.length_eq.trans hwired'.length_eq.symm,
    fun m hi hi' => ?_⟩
  have hm : m < refs.length := by
    rw [← hwired.length_eq]
    exact hi
  exact find_injective hwf ((List.forall₂_iff_get.mp hwired').2 m hi' hm)
    ((List.forall₂_iff_get.mp hwired).2 m hi hm)

end Congruence

section Reread

variable {steps : List PlanStep} {k : ℕ} {i d : Str × Option BitRange}

/-- A rendered path has at least one token, and more than one where it has a comma. -/
theorem ValuePath.tokens (hwf : ∀ s ∈ steps, s.WellFormed) (hi : CleanToken i.1)
    (hd : Clean d.1) (h : ValuePath steps k i.1 d.1) :
    1 ≤ (splitCsv (renderToken d)).length ∧
      ((splitCsv (renderToken d)).length = 1 → CleanToken d.1) := by
  have hone : ',' ∉ d.1 → 1 ≤ (splitCsv (renderToken d)).length ∧
      ((splitCsv (renderToken d)).length = 1 → CleanToken d.1) := by
    intro hcomma
    have hclean : CleanToken d.1 := ⟨hd, hcomma⟩
    rw [splitCsv_renderToken hclean]
    exact ⟨le_rfl, fun _ => hclean⟩
  rcases h with ⟨-, heq⟩ | ⟨j, a, channel, idx, -, ha, hidx, hq, heq⟩
  · exact hone (by rw [heq]; decide)
  · have hs := hwf a (List.mem_of_getElem? ha)
    have hname : ',' ∉ (a.outputNames[idx % 256]?).getD [] := by
      cases hget : a.outputNames[idx % 256]? with
      | none => simp
      | some name =>
        obtain ⟨o, ho, rfl⟩ := List.mem_map.mp (List.mem_of_getElem? hget)
        exact (hs.outputs o ho).comma
    by_cases hbitjoin : isBitjoin a.compressor = true
    · by_cases hcomma : ',' ∈ a.compressor
      · -- the part before the comma starts the operator's name, the part after has the dot
        obtain ⟨l, r, hsplit⟩ := List.append_of_mem hcomma
        obtain ⟨rest, hrest⟩ := List.isPrefixOf_iff_prefix.mp hbitjoin
        have hl : 'b' ∈ l := by
          cases l with
          | nil =>
            rw [hsplit] at hrest
            cases hrest
          | cons c l =>
            rw [hsplit] at hrest
            obtain rfl : 'b' = c := (List.cons.inj hrest).1
            exact List.mem_cons_self
        have htok : ∃ suffix, renderToken d = l ++ ',' :: suffix ∧ '.' ∈ suffix := by
          obtain ⟨path, range⟩ := d
          simp only at heq
          rw [heq, PlanStep.spelled, if_pos hbitjoin, hsplit]
          cases range with
          | none => exact ⟨r ++ '.' :: (a.outputNames[idx % 256]?).getD [], by simp [renderToken]⟩
          | some range => exact ⟨_, by simp [renderToken]; rfl, by simp⟩
        obtain ⟨suffix, htok, hdot⟩ := htok
        have hfirst := splitCsv_length_pos ⟨'b', hl, by decide, by decide⟩
        have hsecond := splitCsv_length_pos ⟨'.', hdot, by decide, by decide⟩
        rw [htok, splitCsv_append, List.length_append]
        exact ⟨by omega, fun habsurd => by omega⟩
      · refine hone ?_
        rw [heq, PlanStep.spelled, if_pos hbitjoin]
        simpa using ⟨hcomma, hname⟩
    · refine hone ?_
      have hbase : ',' ∉ a.base := by
        intro hmem
        refine hi.comma ?_
        rw [hq]
        exact List.mem_append_left _ hmem
      rw [heq, PlanStep.spelled, if_neg hbitjoin]
      simpa using ⟨hbase, hname⟩

/-- A rendered path that is read as the path its step consumes is that path. -/
theorem ValuePath.readsBack (hwf : ∀ s ∈ steps, s.WellFormed)
    (hnames : ∀ s ∈ steps, ∀ name ∈ s.outputNames, ReadsBack (name, none)) (hd : Clean d.1)
    (h : ValuePath steps k i.1 d.1) (hrange : d.2 = i.2) {line : ℕ} {what : String}
    {i' : Str × Option BitRange} (hparse : parseToken line what (trimCopy (renderToken d)) = .ok i')
    (hpath : i'.1 = i.1) : d.1 = i.1 ∧ ReadsBack i := by
  rcases h with ⟨hq, hdq⟩ | ⟨j, a, channel, idx, hlookup, ha, hidx, hq, hdq⟩
  · refine ⟨by rw [hq, hdq], ?_, ?_, ?_⟩
    · rw [hq]
      rfl
    · intro _
      rw [hq]
      decide
    · intro _ c hc
      rw [hq] at hc
      obtain rfl := Option.some.inj hc
      rfl
  · have hs := hwf a (List.mem_of_getElem? ha)
    obtain ⟨hlt, -⟩ := List.findIdx?_eq_some_iff_getElem.mp hidx
    have hmod : idx % 256 < a.outputNames.length := lt_of_le_of_lt (Nat.mod_le _ _) hlt
    obtain ⟨name, hget⟩ : ∃ name, a.outputNames[idx % 256]? = some name :=
      ⟨_, List.getElem?_eq_getElem hmod⟩
    have hmem := List.mem_of_getElem? hget
    have hname := hnames a (List.mem_of_getElem? ha) name hmem
    have hne : name ≠ [] := by
      obtain ⟨o, ho, rfl⟩ := List.mem_map.mp hmem
      exact (hs.outputs o ho).ne_nil
    have hspelled : a.spelled idx =
        (if isBitjoin a.compressor then a.compressor else a.base) ++ '.' :: name := by
      rw [PlanStep.spelled, hget]
      rfl
    obtain ⟨path, range⟩ := d
    obtain ⟨path', range'⟩ := i'
    simp only at hdq hrange hpath hd
    subst hdq hpath
    rw [hspelled] at hd hparse
    obtain ⟨hcanon, hcolon⟩ := parseToken_value hd hne hname hparse
    rw [← hspelled] at hcanon hcolon hd
    rw [hq] at hcanon
    obtain ⟨heq, hself⟩ := spelled_eq_of_canonicalizePath hcanon
    refine ⟨by rw [hq, heq], by rw [hq, hself], fun hnone => ?_, fun _ c hc => ?_⟩
    · rw [hq, ← heq]
      exact hcolon (by rw [hrange, hnone])
    · rw [hq, ← heq, hspelled] at hc
      rw [List.append_cons, List.getLast?_append_of_ne_nil _ hne] at hc
      exact hname.trimmed rfl c hc

/-- The tokens of the rendered inputs, where there are as many as inputs. -/
theorem tokens_forall₂ {inputs rendered inputs' : List (Str × Option BitRange)}
    (hwf : ∀ s ∈ steps, s.WellFormed) (hinputs : ∀ i ∈ inputs, CleanToken i.1)
    (hrendered : ∀ d ∈ rendered, Clean d.1)
    (hvalues : List.Forall₂ (fun i d => d.2 = i.2 ∧ ValuePath steps k i.1 d.1) inputs rendered)
    {line : ℕ} {what : String}
    (hparse : (rendered.flatMap fun t => splitCsv (renderToken t)).mapM (parseToken line what) =
      .ok inputs') (hlength : inputs'.length = rendered.length) :
    List.Forall₂ (fun d i' => parseToken line what (trimCopy (renderToken d)) = .ok i') rendered
      inputs' := by
  have htokens : ∀ d ∈ rendered, 1 ≤ (splitCsv (renderToken d)).length ∧
      ((splitCsv (renderToken d)).length = 1 → CleanToken d.1) := by
    intro d hd
    obtain ⟨m, hm⟩ := List.mem_iff_getElem?.mp hd
    obtain ⟨i, hi, -, hpath⟩ := forall₂_getElem? hvalues.flip hm
    exact hpath.tokens hwf (hinputs i (List.mem_of_getElem? hi)) (hrendered d hd)
  have hsum : (rendered.map fun d => (splitCsv (renderToken d)).length).sum ≤
      (rendered.map fun _ => 1).sum := by
    have hcount := length_of_mapM_eq_ok hparse
    rw [List.length_flatMap] at hcount
    simp only [List.map_const', List.sum_replicate, smul_eq_mul, mul_one]
    omega
  have hone := forall₂_eq_of_sum_le (f := fun _ => 1)
    (List.forall₂_same.mpr fun d hd => (htokens d hd).1) hsum
  have hflat : (rendered.flatMap fun t => splitCsv (renderToken t)) =
      rendered.map fun d => trimCopy (renderToken d) := by
    rw [List.map_eq_flatMap]
    refine List.flatMap_congr fun d hd => splitCsv_renderToken ((htokens d hd).2 ?_)
    exact (List.forall₂_same.mp hone d hd).symm
  rw [hflat] at hparse
  exact List.forall₂_map_left_iff.mp (forall₂_of_mapM_eq_ok hparse)

variable {steps' : List PlanStep} {t t' : List PlanNode}

/-- A step whose line is read back as the same node consumes the paths that are rendered for
its values, where the steps before it do. -/
theorem NodeOf.reread (htree : TreeOf steps t)
    (hnames : ∀ s ∈ steps, ∀ name ∈ s.outputNames, ReadsBack (name, none)) {s s' : PlanStep}
    {n n' : PlanNode} {refs refs' : List (ℕ × Str)} (hs : steps[k]? = some s)
    (h : NodeOf steps t k s n refs) (h' : NodeOf steps' t' k s' n' refs') (hsame : Same t' t)
    (hbefore : ∀ j < k, ∀ a n' refs', steps[j]? = some a → NodeOf steps t j a n' refs' →
      Spelt t a n')
    (htable : pathTable (steps'.take k) = pathTable (steps.take k)) {seen : List Str} {line : ℕ}
    (hparse : parseStep seen line (lineText (renderStep (renderedInputs t n) n.op
      (n.outputNames.map fun name => (name, none)))) = .ok s') :
    s'.inputPaths = s.inputPaths ∧ (∀ i ∈ s.normal.inputs, ReadsBack i) ∧ Consistent steps k s := by
  have hlength := htree.length
  have hk := (List.getElem?_eq_some_iff.mp hs).1
  have hswf := htree.wf s (List.mem_of_getElem? hs)
  have hrenderable := h.renderable htree hswf (by omega)
  obtain ⟨hcomp, hinputs, -⟩ := parseStep_renderStep_inv hrenderable hparse
  rw [h.op] at hcomp
  obtain rfl := h.refs_eq h' (by omega) hcomp hsame
  have hpaths := h.inputPaths_eq htree.wf h' hcomp htable
  have hvalues := h.renderedInputs_forall₂ (by omega) (h.values htree hbefore)
  have htokens := tokens_forall₂ htree.wf hswf.normal.inputs hrenderable.inputs hvalues hinputs (by
    rw [← hvalues.length_eq, ← hpaths.length_eq, PlanStep.normal, List.length_map])
  have heach : ∀ i ∈ s.normal.inputs, ∃ d, ValuePath steps k i.1 d ∧ d = i.1 ∧ ReadsBack i := by
    intro i hi
    obtain ⟨m, hm⟩ := List.mem_iff_getElem?.mp hi
    obtain ⟨d, hd, hrange, hvalue⟩ := forall₂_getElem? hvalues hm
    obtain ⟨i', hi', hparse⟩ := forall₂_getElem? htokens hd
    have hm' := hm
    rw [PlanStep.normal, List.getElem?_map] at hm'
    obtain ⟨j, hj, rfl⟩ := Option.map_eq_some_iff.mp hm'
    obtain ⟨i'', hi'', hpath⟩ := forall₂_getElem? hpaths hj
    obtain rfl := Option.some.inj (hi'.symm.trans hi'')
    obtain ⟨heq, hreads⟩ := hvalue.readsBack htree.wf hnames
      (hrenderable.inputs d (List.mem_of_getElem? hd)) hrange hparse hpath
    exact ⟨d.1, hvalue, heq, hreads⟩
  refine ⟨map_eq_of_forall₂ hpaths fun _ _ h => h, fun i hi => ?_,
    fun i hi j channel hlookup a ha idx hidx => ?_⟩
  · obtain ⟨-, -, -, hreads⟩ := heach i hi
    exact hreads
  · obtain ⟨d, hvalue, rfl, -⟩ := heach _ (List.mem_map_of_mem hi)
    rcases hvalue with ⟨hq, -⟩ | ⟨j', a', channel', idx', hlookup', ha', hidx', -, hd⟩
    · exfalso
      rcases lookup_pathTable hlookup with ⟨habsurd, -⟩ | ⟨j', a', -, ha', hzip⟩
      · cases habsurd
      · rw [List.getElem?_take] at ha'
        split_ifs at ha' with hlt
        obtain ⟨-, hpath⟩ := (htree.wf a' (List.mem_of_getElem? ha')).mem_zip hzip
        have hdot : '.' ∈ i.1 := by
          rw [hpath]
          simp
        simp only at hq
        rw [hq] at hdot
        exact absurd hdot (by decide)
    · obtain ⟨hj, rfl⟩ := Prod.mk.inj (Option.some.inj (hlookup.symm.trans hlookup'))
      obtain rfl := Nat.succ.inj hj
      obtain rfl := Option.some.inj (ha.symm.trans ha')
      obtain rfl := Option.some.inj (hidx.symm.trans hidx')
      exact hd.symm

/-- The lines of a rendered tree, one for each node but the root. -/
theorem renderPlanTree_lines (htree : TreeOf steps t)
    (hparse : parsePlanDsl (renderPlanTree t) = .ok steps') :
    steps'.length = steps.length ∧ ∀ (k : ℕ) s' n, steps'[k]? = some s' → t[k + 1]? = some n →
      ∃ seen line, parseStep seen line (lineText (renderStep (renderedInputs t n) n.op
        (n.outputNames.map fun name => (name, none)))) = .ok s' := by
  have hlength := htree.length
  have hrenderable : ∀ n ∈ t.tail, Renderable (renderedInputs t n) n.op
      (n.outputNames.map fun name => (name, none)) := by
    intro n hn
    obtain ⟨k, hk⟩ := List.mem_iff_getElem?.mp hn
    rw [List.getElem?_tail] at hk
    have hlt := (List.getElem?_eq_some_iff.mp hk).1
    obtain ⟨s, hs⟩ : ∃ s, steps[k]? = some s := ⟨_, List.getElem?_eq_getElem (by omega)⟩
    obtain ⟨n', refs, hn'⟩ := htree.nodes k s hs
    obtain rfl := Option.some.inj (hk.symm.trans hn'.node)
    exact hn'.renderable htree (htree.wf s (List.mem_of_getElem? hs)) (by omega)
  have htext : renderPlanTree t = (t.tail.map fun n => renderStep (renderedInputs t n) n.op
      (n.outputNames.map fun name => (name, none))).flatMap fun l => l ++ ['\n'] := by
    rw [renderPlanTree, renderPlanSteps, List.flatMap_map, List.flatMap_map]
  rw [htext, parsePlanDsl, getLines_rendered] at hparse
  · have hpairs := List.forall₂_map_left_iff.mp (parseLines_forall₂ (fun raw hraw => by
      obtain ⟨n, hn, rfl⟩ := List.mem_map.mp hraw
      exact (lineText_renderStep (hrenderable n hn)).1) hparse)
    refine ⟨?_, fun k s' n hs' hn => ?_⟩
    · rw [← hpairs.length_eq, List.length_tail]
      omega
    · rw [← List.getElem?_tail] at hn
      obtain ⟨s'', hs'', hline⟩ := forall₂_getElem? hpairs hn
      obtain rfl := Option.some.inj (hs'.symm.trans hs'')
      exact hline
  · intro l hl
    obtain ⟨n, hn, rfl⟩ := List.mem_map.mp hl
    exact (not_mem_renderStep (hrenderable n hn)).1

/-- A plan that is built again as the same tree is faithful. -/
theorem faithful_of_same (hwf : ∀ s ∈ steps, s.WellFormed) (htree : planTreeFromSteps steps = .ok t)
    (hparse : parsePlanDsl (renderPlanTree t) = .ok steps')
    (htree' : planTreeFromSteps steps' = .ok t') (hsame : Same t' t) : Faithful steps := by
  obtain ⟨hlength, hnodes⟩ := planTreeFromSteps_nodes htree
  have hof : TreeOf steps t := ⟨hwf, hlength, hnodes⟩
  obtain ⟨hlength', hnodes'⟩ := planTreeFromSteps_nodes htree'
  obtain ⟨hwf', -⟩ := parsePlanDsl_wellFormed hparse
  obtain ⟨hcount, hlines⟩ := renderPlanTree_lines hof hparse
  have hpair : ∀ (k : ℕ) s, steps[k]? = some s → ∃ s' n n' refs refs' seen line,
      steps'[k]? = some s' ∧ NodeOf steps t k s n refs ∧ NodeOf steps' t' k s' n' refs' ∧
        parseStep seen line (lineText (renderStep (renderedInputs t n) n.op
          (n.outputNames.map fun name => (name, none)))) = .ok s' ∧
        s'.compressor = s.compressor ∧ s'.outputNames = s.outputNames := by
    intro k s hs
    have hk := (List.getElem?_eq_some_iff.mp hs).1
    obtain ⟨s', hs'⟩ : ∃ s', steps'[k]? = some s' := ⟨_, List.getElem?_eq_getElem (by omega)⟩
    obtain ⟨n, refs, hn⟩ := hnodes k s hs
    obtain ⟨n', refs', hn'⟩ := hnodes' k s' hs'
    obtain ⟨m, hm, hnode⟩ := forall₂_getElem? hsame hn'.node
    obtain rfl := Option.some.inj (hn.node.symm.trans hm)
    obtain ⟨seen, line, hline⟩ := hlines k s' n hs' hn.node
    refine ⟨s', n, n', refs, refs', seen, line, hs', hn, hn', hline, ?_, ?_⟩
    · rw [← hn'.op, hnode.op, hn.op]
    · rw [← hn'.names, hnode.outputNames, hn.names]
  have hnames : ∀ s ∈ steps, ∀ name ∈ s.outputNames, ReadsBack (name, none) := by
    intro s hmem
    obtain ⟨k, hs⟩ := List.mem_iff_getElem?.mp hmem
    have hk := (List.getElem?_eq_some_iff.mp hs).1
    obtain ⟨s', n, n', refs, refs', seen, line, -, hn, -, hline, -, hnames⟩ := hpair k s hs
    have hrenderable := hn.renderable hof (hwf s hmem) (by omega)
    obtain ⟨-, -, tokens, htokens, hperm⟩ := parseStep_renderStep_inv hrenderable hline
    rw [hn.names] at htokens
    refine readsBack_outputs (fun name hname => ?_) htokens hperm hnames
    obtain ⟨o, ho, rfl⟩ := List.mem_map.mp hname
    exact (hwf s hmem).outputs o ho
  have hsteps : ∀ (k : ℕ) s s', steps[k]? = some s → steps'[k]? = some s' →
      s'.inputPaths = s.inputPaths ∧ (∀ i ∈ s.normal.inputs, ReadsBack i) ∧
        Consistent steps k s := by
    intro k
    induction k using Nat.strong_induction_on with
    | _ k ih =>
      intro s s' hs hs'
      obtain ⟨s'', n, n', refs, refs', seen, line, hs'', hn, hn', hline, -, -⟩ := hpair k s hs
      obtain rfl := Option.some.inj (hs'.symm.trans hs'')
      have hearlier : ∀ j < k, ∀ a, steps[j]? = some a → ∃ a', steps'[j]? = some a' ∧
          a'.compressor = a.compressor ∧ a'.outputNames = a.outputNames ∧
            a'.inputPaths = a.inputPaths ∧ Consistent steps j a := by
        intro j hj a ha
        obtain ⟨a', -, -, -, -, -, -, ha', -, -, -, hcomp, hnames⟩ := hpair j a ha
        obtain ⟨hpaths, -, hconsistent⟩ := ih j hj a a' ha ha'
        exact ⟨a', ha', hcomp, hnames, hpaths, hconsistent⟩
      have htable : pathTable (steps'.take k) = pathTable (steps.take k) := by
        refine pathTable_congr (List.ext_getElem? fun j => ?_)
        rw [List.getElem?_map, List.getElem?_map, List.getElem?_take, List.getElem?_take]
        split_ifs with hj
        · cases ha : steps[j]? with
          | none =>
            have hnone : steps'[j]? = none := by
              rw [List.getElem?_eq_none_iff] at ha ⊢
              omega
            rw [hnone]
          | some a =>
            obtain ⟨a', ha', hcomp, hnames, hpaths, -⟩ := hearlier j hj a ha
            rw [ha', Option.map_some, Option.map_some, (hwf a (List.mem_of_getElem? ha)).paths,
              (hwf' a' (List.mem_of_getElem? ha')).paths, hnames, hpaths, hcomp]
        · rfl
      refine hn.reread hof hnames hs hn' hsame (fun j hj a m refs' ha hm => ?_) htable
        hline
      refine spelt_of_consistent hof j (fun j' hj' b hb => ?_) a m refs' ha hm
      obtain ⟨-, -, -, -, -, hconsistent⟩ := hearlier j' (by omega) b hb
      exact hconsistent
  refine ⟨fun s hmem => ?_, fun s hmem o ho => ?_, fun k s hs => ?_⟩
  · obtain ⟨k, hs⟩ := List.mem_iff_getElem?.mp hmem
    obtain ⟨s', -, -, -, -, -, -, hs', -⟩ := hpair k s hs
    exact (hsteps k s s' hs hs').2.1
  · obtain ⟨o', ho', rfl⟩ := List.mem_map.mp ho
    exact hnames s hmem o'.1 (List.mem_map_of_mem ho')
  · obtain ⟨s', -, -, -, -, -, -, hs', -⟩ := hpair k s hs
    exact (hsteps k s s' hs hs').2.2

/-- **Rendering a tree and building it again** gives the same tree exactly when the steps of
the plan are faithful. -/
theorem render_roundtrip_iff {dsl : Str} (hparse : parsePlanDsl dsl = .ok steps)
    (htree : planTreeFromSteps steps = .ok t) :
    (∃ t', planTreeFromDsl (renderPlanTree t) = .ok t' ∧ Same t' t) ↔ Faithful steps := by
  obtain ⟨hwf, hfresh⟩ := parsePlanDsl_wellFormed hparse
  constructor
  · rintro ⟨t', hbuilt, hsame⟩
    obtain ⟨steps', hparse', htree'⟩ := bind_eq_ok.mp hbuilt
    exact faithful_of_same hwf htree hparse' htree' hsame
  · intro h
    exact ⟨t, planTreeFromDsl_renderPlanTree hwf hfresh htree h, Same.refl t⟩

end Reread

/-- A bitjoin of the run lengths alone, whose output is a leaf. -/
def leafJoinDsl : Str := "input -> rle -> runs\nrle.runs_7:0 -> bitjoin_u8".toList

def leafJoinSteps : List PlanStep :=
  [⟨[("input".toList, none)], "rle".toList, [("runs".toList, none)], ["rle.runs".toList]⟩,
    ⟨[("rle.runs".toList, some (7, 0))], "bitjoin_u8".toList, [], []⟩]

def leafJoinTree : List PlanNode :=
  [{ op := "input".toList, children := [("rle".toList, 1)] },
    { op := "rle".toList, children := [("runs".toList, 2)], outputNames := ["runs".toList],
      outputPaths := ["rle.runs".toList], inputSources := [⟨0, 0⟩] },
    { op := "bitjoin_u8".toList, bitjoin := some ⟨[⟨1, "runs".toList, some (7, 0)⟩], some "UINT8"⟩,
      inputSources := [⟨1, 0⟩] }]

theorem render_roundtrip_leafJoin :
    (∃ t', planTreeFromDsl (renderPlanTree leafJoinTree) = .ok t' ∧ Same t' leafJoinTree) ∧
      Faithful leafJoinSteps := by
  have hbuilt : ∃ t', planTreeFromDsl (renderPlanTree leafJoinTree) = .ok t' ∧
      Same t' leafJoinTree := ⟨leafJoinTree, by decide +kernel, Same.refl _⟩
  have hparse : parsePlanDsl leafJoinDsl = .ok leafJoinSteps := by decide +kernel
  have htree : planTreeFromSteps leafJoinSteps = .ok leafJoinTree := by decide +kernel
  exact ⟨hbuilt, (render_roundtrip_iff hparse htree).mp hbuilt⟩

/-- The same bitjoin with its output consumed, by the path of its one input. -/
def consumedJoinDsl : Str :=
  "input -> rle -> runs\nrle.runs_7:0 -> bitjoin_u8 -> out\nrle.runs.out -> delta".toList

def consumedJoinTree : List PlanNode :=
  [{ op := "input".toList, children := [("rle".toList, 1)] },
    { op := "rle".toList, children := [("runs".toList, 2)], outputNames := ["runs".toList],
      outputPaths := ["rle.runs".toList], inputSources := [⟨0, 0⟩] },
    { op := "bitjoin_u8".toList, children := [("out".toList, 3)],
      bitjoin := some ⟨[⟨1, "runs".toList, some (7, 0)⟩], some "UINT8"⟩,
      outputNames := ["out".toList], outputPaths := ["rle.runs.out".toList],
      inputSources := [⟨1, 0⟩] },
    { op := "delta".toList, inputSources := [⟨2, 0⟩] }]

/-- The tree of a bitjoin whose output is consumed is rendered with the operator's name in
the consumed path, which no step defines: the text is rejected. -/
theorem renderPlanTree_consumedJoin_rejected :
    planTreeFromDsl consumedJoinDsl = .ok consumedJoinTree ∧
      planTreeFromDsl (renderPlanTree consumedJoinTree) =
        .error (.unknownInput "bitjoin_u8.out".toList) ∧
      ¬∃ t', planTreeFromDsl (renderPlanTree consumedJoinTree) = .ok t' := by
  have hrejected : planTreeFromDsl (renderPlanTree consumedJoinTree) =
      .error (.unknownInput "bitjoin_u8.out".toList) := by decide +kernel
  refine ⟨by decide +kernel, hrejected, ?_⟩
  rintro ⟨t', ht'⟩
  rw [hrejected] at ht'
  cases ht'

end Sirius.Compression.Plan
