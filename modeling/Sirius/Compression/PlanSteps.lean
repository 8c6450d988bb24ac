import Sirius.Compression.PlanText

/-!
# Plan steps and their lines

What a parse of the plan DSL returns, and what the parser makes of a rendered line.

* `parsePlanDsl_wellFormed`: the steps of any accepted text are well formed.
* `parseStep_renderStep`: a line whose tokens read back is read back.
* `parseStep_renderStep_inv`: what an accepted line says about its tokens.
-/

namespace Sirius.Compression.Plan

open Sirius.Common Sirius.Common.Text

/-! ## The order of the outputs -/

theorem canonicalizeOutputOrder_perm (canon : List Str) (outputs : List (Str × Option BitRange)) :
    (canonicalizeOutputOrder canon outputs).Perm outputs := by
  induction canon generalizing outputs with
  | nil => exact List.Perm.refl _
  | cons c canon ih =>
    rw [canonicalizeOutputOrder]
    refine ((ih _).append_left _).trans ?_
    have hsplit := List.filter_append_perm (fun o : Str × Option BitRange => decide (o.1 = c)) outputs
    simpa using hsplit

/-- Outputs in the operator's order stay there. -/
theorem canonicalizeOutputOrder_idem (canon : List Str) (outputs : List (Str × Option BitRange)) :
    canonicalizeOutputOrder canon (canonicalizeOutputOrder canon outputs) =
      canonicalizeOutputOrder canon outputs := by
  induction canon generalizing outputs with
  | nil => rfl
  | cons c canon ih =>
    rw [canonicalizeOutputOrder]
    set first := outputs.filter fun o => o.1 = c with hfirst
    set rest := canonicalizeOutputOrder canon (outputs.filter fun o => o.1 ≠ c) with hrest
    have hmem : ∀ o ∈ rest, o.1 ≠ c := by
      intro o ho
      have := (canonicalizeOutputOrder_perm canon _).mem_iff.mp ho
      simpa using (List.mem_filter.mp this).2
    have hall : ∀ o ∈ first, o.1 = c := fun o ho => by simpa using (List.mem_filter.mp ho).2
    have hkeep : (first ++ rest).filter (fun o => decide (o.1 = c)) = first := by
      rw [List.filter_append, List.filter_eq_self.mpr (by simpa using hall),
        List.filter_eq_nil_iff.mpr (by simpa using hmem), List.append_nil]
    have hdrop : (first ++ rest).filter (fun o => decide (o.1 ≠ c)) = rest := by
      rw [List.filter_append, List.filter_eq_nil_iff.mpr (by simpa using hall),
        List.filter_eq_self.mpr (by simpa using hmem), List.nil_append]
    rw [canonicalizeOutputOrder, hkeep, hdrop, hrest, ih]

/-- The order does not look at ranges. -/
theorem canonicalizeOutputOrder_map (canon : List Str) (outputs : List (Str × Option BitRange)) :
    canonicalizeOutputOrder canon (outputs.map fun o => (o.1, none)) =
      (canonicalizeOutputOrder canon outputs).map fun o => (o.1, none) := by
  induction canon generalizing outputs with
  | nil => rfl
  | cons c canon ih =>
    simp only [canonicalizeOutputOrder, List.map_append, List.filter_map]
    rw [← ih]
    rfl

/-! ## Well-formed steps -/

/-- What a line of the DSL is parsed to. -/
structure PlanStep.WellFormed (s : PlanStep) : Prop where
  inputs_ne : s.inputs ≠ []
  inputs : ∀ i ∈ s.inputs, CleanToken i.1
  compressor : Clean s.compressor
  trimmed : ∀ c, s.compressor.getLast? = some c → isSpace c = false
  outputs : ∀ o ∈ s.outputs, CleanToken o.1
  ordered : ∀ canon, canonicalOutputChannels s.compressor = some canon →
    canonicalizeOutputOrder canon s.outputs = s.outputs
  paths : s.outputPaths = s.outputNames.map (outputPath (basePath s.inputPaths s.compressor))

/-- No input path of a step was consumed before. -/
def Fresh : List Str → List PlanStep → Prop
  | _, [] => True
  | seen, s :: ss => (∀ i ∈ s.inputs, i.1 ∉ seen) ∧ Fresh (s.inputPaths ++ seen) ss

theorem splitByArrow_mem {text part : Str} (hline : '\n' ∉ text) (hcomment : '#' ∉ text)
    (h : part ∈ splitByArrow text) (hne : part ≠ []) :
    Clean part ∧ ∀ c, part.getLast? = some c → isSpace c = false := by
  unfold splitByArrow at h
  split_ifs at h with htext
  · cases h
  obtain ⟨piece, hpiece, rfl⟩ := List.mem_map.mp h
  obtain ⟨hpart, hpair⟩ := splitPair_pieces text piece hpiece
  have htrim := trim_isInfix isSpace piece
  obtain ⟨hfirst, hlast⟩ := trim_trimmed isSpace piece
  exact ⟨⟨hne, hfirst, fun hm => hline (hpart.subset (htrim.subset hm)),
    fun hm => hcomment (hpart.subset (htrim.subset hm)), hpair.of_isInfix htrim⟩, hlast⟩

theorem splitCsv_mem {s tok : Str} (hs : Clean s) (h : tok ∈ splitCsv s) : CleanToken tok := by
  unfold splitCsv at h
  obtain ⟨hmem, hne⟩ := List.mem_filter.mp h
  obtain ⟨piece, hpiece, rfl⟩ := List.mem_map.mp hmem
  obtain ⟨hpart, hcomma⟩ := mem_splitOn hpiece
  have htrim := trim_isInfix isSpace piece
  obtain ⟨hfirst, -⟩ := trim_trimmed isSpace piece
  exact ⟨⟨by simpa using hne, hfirst, fun hm => hs.line (hpart.subset (htrim.subset hm)),
    fun hm => hs.comment (hpart.subset (htrim.subset hm)), hs.arrow.of_isInfix (htrim.trans hpart)⟩,
    fun hm => hcomma (htrim.subset hm)⟩

variable {line : ℕ} {t : Str × Option BitRange}

theorem parseToken_ok {what : String} {tok : Str} :
    parseToken line what tok = .ok t ↔ ∃ path, splitPathAndRange tok = some (path, t.2) ∧
      path ≠ [] ∧ t.1 = canonicalizePath path := by
  unfold parseToken
  cases hsplit : splitPathAndRange tok with
  | none => simp
  | some p =>
    obtain ⟨path, range⟩ := p
    simp only [ite_error_eq_ok, Except.ok.injEq]
    constructor
    · rintro ⟨hne, rfl⟩
      exact ⟨path, rfl, hne, rfl⟩
    · rintro ⟨path', heq, hne, hname⟩
      obtain ⟨rfl, rfl⟩ := Prod.mk.inj (Option.some.inj heq)
      exact ⟨hne, Prod.ext hname.symm rfl⟩

variable {ts : List (Str × Option BitRange)}

theorem parseTokenList_clean {what : String} {csv : Str} (hcsv : csv = [] ∨ Clean csv)
    (h : parseTokenList line what csv = .ok ts) : ∀ t ∈ ts, CleanToken t.1 := by
  intro t ht
  obtain ⟨tok, htok, hparse⟩ := exists_of_mapM_eq_ok h t ht
  obtain ⟨path, hsplit, hne, hname⟩ := parseToken_ok.mp hparse
  rcases hcsv with rfl | hcsv
  · cases htok
  · rw [hname]
    exact ((splitCsv_mem hcsv htok).of_isPrefix (splitPathAndRange_isPrefix hsplit) hne).canonicalizePath

theorem basePath_ne_nil {inputPaths : List Str} {compressor : Str} (hc : compressor ≠ [])
    (hi : ∀ p ∈ inputPaths, p ≠ []) : basePath inputPaths compressor ≠ [] := by
  unfold basePath
  split
  · rename_i path
    split_ifs
    · rcases bitextractCanonicalName_cases compressor with heq | ⟨type, fields, -, hcanon⟩
      · rwa [heq]
      · rw [hcanon]
        exact List.append_ne_nil_of_left_ne_nil (by decide) _
    · exact hi path List.mem_cons_self
  · exact hc

variable {seen : List Str} {s : PlanStep}

/-- What an accepted line is parsed to, section by section. -/
theorem parseStep_ok {text : Str} (h : parseStep seen line text = .ok s) :
    ∃ first rest, splitByArrow text = first :: s.compressor :: rest ∧ s.compressor ≠ [] ∧
      parseTokenList line "input" first = .ok s.inputs ∧ s.inputs ≠ [] ∧
      parseOutputs line s.compressor (first :: s.compressor :: rest) = .ok s.outputs ∧
      (∀ i ∈ s.inputs, i.1 ∉ seen) ∧
      s.outputPaths = ((s.outputs.map Prod.fst).filter (· ≠ [])).map
        (outputPath (basePath s.inputPaths s.compressor)) := by
  unfold parseStep at h
  simp only [ite_error_eq_ok] at h
  obtain ⟨hlength, h⟩ := h
  obtain ⟨inputs, hinputs, h⟩ := bind_eq_ok.mp h
  simp only [ite_error_eq_ok] at h
  obtain ⟨hempty, h⟩ := h
  obtain ⟨outputs, houtputs, h⟩ := bind_eq_ok.mp h
  cases hseen : inputs.find? fun i => seen.contains i.1 with
  | some i => rw [hseen] at h; cases h
  | none =>
    rw [hseen] at h
    obtain ⟨rfl⟩ := h
    match hparts : splitByArrow text with
    | [] => rw [hparts] at hlength; simp at hlength
    | [_] => rw [hparts] at hlength; simp at hlength
    | first :: compressor :: rest =>
      rw [hparts] at hinputs houtputs hempty
      simp only [List.getElem?_cons_zero, List.getElem?_cons_succ, Option.getD_some, not_or]
        at hinputs houtputs hempty ⊢
      refine ⟨first, rest, rfl, hempty.2, hinputs, hempty.1, houtputs, fun i hi hmem => ?_, rfl⟩
      have := List.find?_eq_none.mp hseen i hi
      exact this (List.contains_iff_mem.mpr hmem)

theorem parseOutputs_ok {compressor : Str} {parts : List Str}
    {outputs : List (Str × Option BitRange)}
    (h : parseOutputs line compressor parts = .ok outputs) :
    (parts[2]? = none ∧ outputs = []) ∨ ∃ part tokens, parts[2]? = some part ∧
      parseTokenList line "output" part = .ok tokens ∧ tokens ≠ [] ∧
      outputs = match canonicalOutputChannels compressor with
        | some canon => canonicalizeOutputOrder canon tokens
        | none => tokens := by
  unfold parseOutputs at h
  cases hpart : parts[2]? with
  | none =>
    rw [hpart] at h
    obtain ⟨rfl⟩ := h
    exact .inl ⟨rfl, rfl⟩
  | some part =>
    simp only [hpart] at h
    obtain ⟨tokens, htokens, h⟩ := bind_eq_ok.mp h
    rw [ite_error_eq_ok] at h
    refine .inr ⟨part, tokens, rfl, htokens, h.1, ?_⟩
    cases hcanon : canonicalOutputChannels compressor with
    | none =>
      rw [hcanon] at h
      exact (Except.ok.inj h.2).symm
    | some canon =>
      rw [hcanon] at h
      exact (Except.ok.inj h.2).symm

theorem parseStep_wellFormed {text : Str} (hline : '\n' ∉ text) (hcomment : '#' ∉ text)
    (h : parseStep seen line text = .ok s) : s.WellFormed ∧ ∀ i ∈ s.inputs, i.1 ∉ seen := by
  obtain ⟨first, rest, hparts, hcompressor, hinputs, hne, houtputs, hseen, hpaths⟩ := parseStep_ok h
  have hpart : ∀ part ∈ splitByArrow text, part = [] ∨ Clean part := by
    intro part hmem
    by_cases hempty : part = []
    · exact .inl hempty
    · exact .inr (splitByArrow_mem hline hcomment hmem hempty).1
  have hcleanInputs : ∀ i ∈ s.inputs, CleanToken i.1 :=
    parseTokenList_clean (hpart first (by rw [hparts]; exact List.mem_cons_self)) hinputs
  have hmem : s.compressor ∈ splitByArrow text := by rw [hparts]; simp
  have hcomp := splitByArrow_mem hline hcomment hmem hcompressor
  have houts : (∀ o ∈ s.outputs, CleanToken o.1) ∧
      ∀ canon, canonicalOutputChannels s.compressor = some canon →
        canonicalizeOutputOrder canon s.outputs = s.outputs := by
    rcases parseOutputs_ok houtputs with ⟨-, hnil⟩ | ⟨part, tokens, hpart', htokens, -, heq⟩
    · rw [hnil]
      refine ⟨by simp, fun canon _ => ?_⟩
      exact List.perm_nil.mp (canonicalizeOutputOrder_perm canon [])
    · have hclean := parseTokenList_clean
        (hpart part (by rw [hparts]; exact List.mem_of_getElem? hpart')) htokens
      cases hcanon : canonicalOutputChannels s.compressor with
      | none =>
        rw [hcanon] at heq
        rw [heq]
        exact ⟨hclean, by simp⟩
      | some canon =>
        rw [hcanon] at heq
        rw [heq]
        refine ⟨fun o ho => hclean o ((canonicalizeOutputOrder_perm canon tokens).mem_iff.mp ho), ?_⟩
        rintro canon' ⟨⟩
        exact canonicalizeOutputOrder_idem canon tokens
  refine ⟨⟨hne, hcleanInputs, hcomp.1, hcomp.2, houts.1, houts.2, ?_⟩, hseen⟩
  rw [hpaths, PlanStep.outputNames]
  congr 1
  refine List.filter_eq_self.mpr fun n hn => ?_
  obtain ⟨o, ho, rfl⟩ := List.mem_map.mp hn
  simpa using (houts.1 o ho).ne_nil

theorem lineText_clean (raw : Str) (h : '\n' ∉ raw) :
    '\n' ∉ lineText raw ∧ '#' ∉ lineText raw := by
  unfold lineText
  constructor
  · intro hmem
    have hmem := (List.takeWhile_prefix _).subset ((trim_isInfix isSpace _).subset hmem)
    split_ifs at hmem
    · exact h (List.dropLast_subset _ hmem)
    · exact h hmem
  · intro hmem
    have hmem := List.mem_takeWhile_imp ((trim_isInfix isSpace _).subset hmem)
    simp at hmem

variable {steps : List PlanStep}

theorem parseLines_wellFormed {raws : List Str} (hraws : ∀ raw ∈ raws, '\n' ∉ raw)
    (h : parseLines seen line raws = .ok steps) :
    (∀ s ∈ steps, s.WellFormed) ∧ Fresh seen steps := by
  induction raws generalizing seen line steps with
  | nil =>
    obtain ⟨rfl⟩ := h
    exact ⟨by simp, trivial⟩
  | cons raw raws ih =>
    have hrest : ∀ raw ∈ raws, '\n' ∉ raw := fun r hr => hraws r (List.mem_cons_of_mem _ hr)
    rw [parseLines] at h
    by_cases htext : lineText raw = []
    · rw [if_pos htext] at h
      exact ih hrest h
    · rw [if_neg htext] at h
      obtain ⟨s, hs, h⟩ := bind_eq_ok.mp h
      obtain ⟨ss, hss, h⟩ := bind_eq_ok.mp h
      obtain ⟨rfl⟩ := h
      obtain ⟨hline, hcomment⟩ := lineText_clean raw (hraws raw List.mem_cons_self)
      obtain ⟨hwf, hseen⟩ := parseStep_wellFormed hline hcomment hs
      obtain ⟨hwfs, hfresh⟩ := ih hrest hss
      exact ⟨List.forall_mem_cons.mpr ⟨hwf, hwfs⟩, hseen, hfresh⟩

theorem getLines_clean (dsl : Str) : ∀ raw ∈ getLines dsl, '\n' ∉ raw := by
  intro raw hraw
  unfold getLines at hraw
  simp only at hraw
  split_ifs at hraw
  · exact (mem_splitOn (List.dropLast_subset _ hraw)).2
  · exact (mem_splitOn hraw).2

/-- **The steps of every accepted text are well formed**, and no input path is consumed
twice. -/
theorem parsePlanDsl_wellFormed {dsl : Str}
    (h : parsePlanDsl dsl = .ok steps) : (∀ s ∈ steps, s.WellFormed) ∧ Fresh [] steps :=
  parseLines_wellFormed (getLines_clean dsl) h

/-! ## Rendered lines -/

theorem Clean.append {s t : Str} {c : Char} (hs : Clean s) (hc : c ≠ '>') (hline : '\n' ∉ c :: t)
    (hcomment : '#' ∉ c :: t) (ht : NoPair '-' '>' (c :: t)) : Clean (s ++ c :: t) := by
  refine ⟨by simp, fun a ha => hs.first a ?_, ?_, ?_, noPair_append hs.arrow ht hc⟩
  · cases s with
    | nil => exact absurd rfl hs.ne_nil
    | cons b s => exact ha
  · rw [List.mem_append, not_or]
    exact ⟨hs.line, hline⟩
  · rw [List.mem_append, not_or]
    exact ⟨hs.comment, hcomment⟩

theorem renderToken_clean (h : Clean t.1) : Clean (renderToken t) := by
  obtain ⟨path, range⟩ := t
  cases range with
  | none => exact h
  | some r =>
    obtain ⟨hi, lo⟩ := r
    have hno : ∀ c : Char, c.isDigit = false → c ≠ '_' → c ≠ ':' →
        c ∉ '_' :: (renderUint hi ++ ':' :: renderUint lo) := by
      intro c hdigit hunder hcolon
      simp [hunder, hcolon, not_mem_renderUint _ hdigit]
    exact h.append (by decide) (hno _ (by decide) (by decide) (by decide))
      (hno _ (by decide) (by decide) (by decide))
      (noPair_of_not_mem (hno _ (by decide) (by decide) (by decide)))

theorem renderTokenList_clean (hne : ts ≠ [])
    (h : ∀ t ∈ ts, Clean t.1) : Clean (renderTokenList ts) := by
  induction ts with
  | nil => exact absurd rfl hne
  | cons t ts ih =>
    have ht := renderToken_clean (h t List.mem_cons_self)
    cases ts with
    | nil => exact ht
    | cons t' ts =>
      have hrest := ih (by simp) fun u hu => h u (List.mem_cons_of_mem _ hu)
      have htext : renderTokenList (t :: t' :: ts) =
          renderToken t ++ ',' :: ' ' :: renderTokenList (t' :: ts) := by
        simp [renderTokenList]
      rw [htext]
      refine ht.append (by decide) ?_ ?_ (noPair_cons (noPair_cons hrest.arrow ?_) ?_)
      · simpa using hrest.line
      · simpa using hrest.comment
      · intro habsurd
        cases habsurd
      · intro habsurd
        cases habsurd

section Line

variable {ins outs : List (Str × Option BitRange)} {comp : Str}

/-- The sections of a line to be rendered. -/
structure Renderable (ins : List (Str × Option BitRange)) (comp : Str)
    (outs : List (Str × Option BitRange)) : Prop where
  inputs_ne : ins ≠ []
  inputs : ∀ t ∈ ins, Clean t.1
  compressor : Clean comp
  trimmed : ∀ c, comp.getLast? = some c → isSpace c = false
  outputs : ∀ o ∈ outs, Clean o.1

theorem noPair_padded {s : Str} (h : NoPair '-' '>' s) :
    NoPair '-' '>' (s ++ [' ']) ∧ NoPair '-' '>' (' ' :: s) := by
  refine ⟨noPair_append h (noPair_of_not_mem (by decide)) (by decide), noPair_cons h ?_⟩
  intro habsurd
  cases habsurd

theorem trimCopy_padded {s : Str} (hs : Clean s)
    (hlast : ∀ c, s.getLast? = some c → isSpace c = false) :
    trimCopy (' ' :: (s ++ [' '])) = s ∧ trimCopy (' ' :: s) = s := by
  have hself : trimCopy s = s := trim_eq_self ⟨hs.first, hlast⟩
  have hleft : ∀ u : Str, trimCopy (' ' :: u) = trimCopy u := fun u =>
    trim_append_left (t := [' ']) blank_space
  have hright : trimCopy (s ++ [' ']) = trimCopy s := trim_append_right blank_space
  exact ⟨by rw [hleft, hright, hself], by rw [hleft, hself]⟩

theorem head?_renderStep (h : Renderable ins comp outs) (c : Char)
    (hc : (renderStep ins comp outs).head? = some c) : isSpace c = false := by
  have hclean := renderTokenList_clean h.inputs_ne h.inputs
  refine hclean.first c ?_
  unfold renderStep at hc
  cases htext : renderTokenList ins with
  | nil => exact absurd htext hclean.ne_nil
  | cons a l => rw [htext] at hc; exact hc

/-- A rendered line is split at its arrows. -/
theorem splitByArrow_renderStep (h : Renderable ins comp outs) :
    splitByArrow (trimCopy (renderStep ins comp outs)) =
      trimCopy (renderTokenList ins) :: comp ::
        (if outs = [] then [] else [trimCopy (renderTokenList outs)]) := by
  have hins := renderTokenList_clean h.inputs_ne h.inputs
  have hcomp := trimCopy_padded h.compressor h.trimmed
  have hfirst : trimCopy (renderTokenList ins ++ [' ']) = trimCopy (renderTokenList ins) :=
    trim_append_right blank_space
  by_cases houts : outs = []
  · have htext : renderStep ins comp outs =
        (renderTokenList ins ++ [' ']) ++ '-' :: '>' :: ' ' :: comp := by
      simp [renderStep, houts]
    have htrim : trimCopy (renderStep ins comp outs) = renderStep ins comp outs := by
      refine trim_eq_self ⟨head?_renderStep h, fun c hc => h.trimmed c ?_⟩
      rw [htext] at hc
      rw [← hc, List.getLast?_append_of_ne_nil _ (by simp)]
      cases hcase : comp with
      | nil => exact absurd hcase h.compressor.ne_nil
      | cons a l => simp [List.getLast?_cons_cons]
    rw [htrim, htext, splitByArrow, if_neg (by simp),
      splitPair_append (noPair_padded hins.arrow).1 (by decide) (by simp),
      splitPair_of_noPair (noPair_padded h.compressor.arrow).2, if_pos houts]
    simp only [List.map_cons, List.map_nil, hfirst, hcomp.2]
  · have houtsClean := renderTokenList_clean houts h.outputs
    have htext : renderStep ins comp outs =
        ((renderTokenList ins ++ [' ']) ++ '-' :: '>' :: (' ' :: (comp ++ [' ']) ++
          '-' :: '>' :: [' '])) ++ renderTokenList outs := by
      simp [renderStep, houts]
    have hnonblank := houtsClean.exists_nonblank
    have htrim : trimCopy (renderStep ins comp outs) =
        (renderTokenList ins ++ [' ']) ++ '-' :: '>' :: (' ' :: (comp ++ [' ']) ++
          '-' :: '>' :: (' ' :: (renderTokenList outs).rdropWhile isSpace)) := by
      have hhead := head?_renderStep h
      rw [htext] at hhead ⊢
      refine (trim_append hhead hnonblank).trans ?_
      simp
    have hlast : NoPair '-' '>' (' ' :: (renderTokenList outs).rdropWhile isSpace) :=
      (noPair_padded (houtsClean.arrow.of_isInfix (List.rdropWhile_prefix ..).isInfix)).2
    have hlastTrim : trimCopy (' ' :: (renderTokenList outs).rdropWhile isSpace) =
        trimCopy (renderTokenList outs) :=
      (trim_append_left (t := [' ']) blank_space).trans (trim_rdropWhile isSpace _)
    have hmiddle : NoPair '-' '>' (' ' :: (comp ++ [' '])) :=
      (noPair_padded (noPair_padded h.compressor.arrow).1).2
    rw [htrim, splitByArrow, if_neg (by simp),
      splitPair_append (noPair_padded hins.arrow).1 (by decide) (by simp),
      splitPair_append hmiddle (by decide) (by simp), splitPair_of_noPair hlast, if_neg houts]
    simp only [List.map_cons, List.map_nil, hfirst, hcomp.1, hlastTrim]

theorem lineText_eq_trimCopy {raw : Str} (h : '#' ∉ raw) : lineText raw = trimCopy raw := by
  have hkeep : ∀ s : Str, '#' ∉ s → s.takeWhile (· ≠ '#') = s := by
    intro s hs
    rw [List.takeWhile_eq_self_iff]
    intro c hc
    simpa using fun heq : c = '#' => hs (heq ▸ hc)
  unfold lineText
  split_ifs with hreturn
  · have hne : raw ≠ [] := by
      rintro rfl
      cases hreturn
    have hraw : raw = raw.dropLast ++ ['\r'] := by
      conv_lhs => rw [← List.dropLast_append_getLast hne]
      rw [List.getLast?_eq_some_getLast hne] at hreturn
      rw [Option.some.inj hreturn]
    simp only
    rw [hkeep _ fun hm => h (List.dropLast_subset _ hm)]
    conv_rhs => rw [hraw]
    refine (trim_append_right fun c hc => ?_).symm
    rw [List.mem_singleton.mp hc]
    rfl
  · simp only
    rw [hkeep raw h]

theorem not_mem_renderStep (h : Renderable ins comp outs) :
    '\n' ∉ renderStep ins comp outs ∧ '#' ∉ renderStep ins comp outs := by
  have hins := renderTokenList_clean h.inputs_ne h.inputs
  by_cases houts : outs = []
  · simp [renderStep, houts, hins.line, hins.comment, h.compressor.line, h.compressor.comment]
  · have hclean := renderTokenList_clean houts h.outputs
    simp [renderStep, houts, hins.line, hins.comment, h.compressor.line, h.compressor.comment, hclean.line,
      hclean.comment]

/-- A rendered line is no blank line, and has the sections it was rendered from. -/
theorem lineText_renderStep (h : Renderable ins comp outs) :
    lineText (renderStep ins comp outs) ≠ [] ∧
      splitByArrow (lineText (renderStep ins comp outs)) =
        trimCopy (renderTokenList ins) :: comp ::
          (if outs = [] then [] else [trimCopy (renderTokenList outs)]) := by
  have hparts := splitByArrow_renderStep h
  rw [lineText_eq_trimCopy (not_mem_renderStep h).2]
  refine ⟨fun hnil => ?_, hparts⟩
  rw [hnil] at hparts
  cases hparts

theorem parseTokenList_renderTokenList (line : ℕ) (what : String)
    (ts : List (Str × Option BitRange)) :
    parseTokenList line what (trimCopy (renderTokenList ts)) =
      (ts.flatMap fun t => splitCsv (renderToken t)).mapM (parseToken line what) := by
  rw [parseTokenList, splitCsv_trimCopy, splitCsv_renderTokenList]

/-- What an accepted rendered line says about its tokens. -/
theorem parseStep_renderStep_inv {seen : List Str} {line : ℕ} {s : PlanStep}
    (h : Renderable ins comp outs)
    (hparse : parseStep seen line (lineText (renderStep ins comp outs)) = .ok s) :
    s.compressor = comp ∧
      (ins.flatMap fun t => splitCsv (renderToken t)).mapM (parseToken line "input") =
        .ok s.inputs ∧
      ∃ tokens, (outs.flatMap fun t => splitCsv (renderToken t)).mapM (parseToken line "output") =
        .ok tokens ∧ s.outputs.Perm tokens := by
  obtain ⟨first, rest, hparts, -, hinputs, -, houtputs, -, -⟩ := parseStep_ok hparse
  rw [(lineText_renderStep h).2] at hparts
  obtain ⟨rfl, hrest⟩ := List.cons.inj hparts
  obtain ⟨hcomp, rfl⟩ := List.cons.inj hrest
  refine ⟨hcomp.symm, by rwa [parseTokenList_renderTokenList] at hinputs, ?_⟩
  rcases parseOutputs_ok houtputs with ⟨hpart, hnil⟩ | ⟨part, tokens, hpart, htokens, -, heq⟩
  · by_cases houts : outs = []
    · exact ⟨[], by rw [houts]; rfl, by rw [hnil]⟩
    · rw [if_neg houts] at hpart
      cases hpart
  · by_cases houts : outs = []
    · rw [if_pos houts] at hpart
      cases hpart
    · rw [if_neg houts] at hpart
      obtain rfl := Option.some.inj hpart
      rw [parseTokenList_renderTokenList] at htokens
      refine ⟨tokens, htokens, ?_⟩
      rw [heq]
      cases canonicalOutputChannels s.compressor with
      | none => exact List.Perm.refl _
      | some canon => exact canonicalizeOutputOrder_perm canon tokens

end Line

/-! ## Tokens that read back -/

/-- A token that is read back as it was rendered: its path is canonical, and without a range
it has no colon and no blank at its end. -/
structure ReadsBack (t : Str × Option BitRange) : Prop where
  canonical : canonicalizePath t.1 = t.1
  colon : t.2 = none → ':' ∉ t.1
  trimmed : t.2 = none → ∀ c, t.1.getLast? = some c → isSpace c = false

theorem isSpace_of_isDigit {c : Char} (h : c.isDigit = true) : isSpace c = false := by
  rw [Bool.eq_false_iff]
  intro hspace
  unfold isSpace at hspace
  rw [decide_eq_true_eq] at hspace
  fin_cases hspace <;> cases h

theorem getLast?_renderToken {path : Str} (r : BitRange) (c : Char)
    (h : (renderToken (path, some r)).getLast? = some c) : isSpace c = false := by
  obtain ⟨hi, lo⟩ := r
  have htok : renderToken (path, some (hi, lo)) =
      (path ++ '_' :: (renderUint hi ++ [':'])) ++ renderUint lo := by
    simp [renderToken]
  rw [htok, List.getLast?_append_of_ne_nil _ (renderUint_ne_nil lo)] at h
  exact isSpace_of_isDigit (renderUint_isDigit lo c (List.mem_of_getLast? h))

theorem renderToken_comma (h : ',' ∉ t.1) : ',' ∉ renderToken t := by
  obtain ⟨path, range⟩ := t
  cases range with
  | none => exact h
  | some r =>
    obtain ⟨hi, lo⟩ := r
    have hdigit : ∀ n : UInt32, ',' ∉ renderUint n := fun n => not_mem_renderUint n (by decide)
    simpa [renderToken, hdigit] using h

/-- A clean token is one token of a list. -/
theorem splitCsv_renderToken (h : CleanToken t.1) :
    splitCsv (renderToken t) = [trimCopy (renderToken t)] := by
  have hne : trimCopy (renderToken t) ≠ [] :=
    trim_ne_nil (renderToken_clean h.toClean).exists_nonblank
  rw [splitCsv_of_not_mem (renderToken_comma h.comma), if_neg hne]

theorem ReadsBack.trimCopy (hclean : Clean t.1) (h : ReadsBack t) :
    trimCopy (renderToken t) = renderToken t := by
  refine trim_eq_self ⟨(renderToken_clean hclean).first, ?_⟩
  obtain ⟨path, range⟩ := t
  cases range with
  | none => exact h.trimmed rfl
  | some r => exact getLast?_renderToken r

theorem ReadsBack.parseToken (hclean : Clean t.1) (h : ReadsBack t)
    (line : ℕ) (what : String) : parseToken line what (renderToken t) = .ok t := by
  refine parseToken_ok.mpr ⟨t.1, ?_, hclean.ne_nil, h.canonical.symm⟩
  obtain ⟨path, range⟩ := t
  cases range with
  | none => exact splitPathAndRange_of_not_mem (h.colon rfl)
  | some r => exact splitPathAndRange_renderToken hclean.ne_nil r

theorem parseTokenList_readsBack (hclean : ∀ t ∈ ts, CleanToken t.1) (h : ∀ t ∈ ts, ReadsBack t)
    (line : ℕ) (what : String) :
    parseTokenList line what (trimCopy (renderTokenList ts)) = .ok ts := by
  rw [parseTokenList_renderTokenList]
  have htokens : (ts.flatMap fun t => splitCsv (renderToken t)) = ts.map renderToken := by
    rw [List.map_eq_flatMap]
    refine List.flatMap_congr fun t ht => ?_
    rw [splitCsv_renderToken (hclean t ht), (h t ht).trimCopy (hclean t ht).toClean]
  rw [htokens]
  refine mapM_eq_ok_of_forall₂ ?_
  rw [List.forall₂_map_left_iff, List.forall₂_same]
  exact fun t ht => (h t ht).parseToken (hclean t ht).toClean line what

/-- A step as `render_plan_tree` writes it: without ranges for its outputs, nor for its
input unless it is a bitjoin. -/
def PlanStep.normal (s : PlanStep) : PlanStep :=
  { s with
    inputs := s.inputs.map fun i => (i.1, if isBitjoin s.compressor then i.2 else none)
    outputs := s.outputs.map fun o => (o.1, none) }

theorem PlanStep.normal_inputPaths (s : PlanStep) : s.normal.inputPaths = s.inputPaths := by
  simp [PlanStep.normal, PlanStep.inputPaths]

theorem PlanStep.normal_outputNames (s : PlanStep) : s.normal.outputNames = s.outputNames := by
  simp [PlanStep.normal, PlanStep.outputNames]

theorem PlanStep.WellFormed.normal (h : s.WellFormed) : s.normal.WellFormed where
  inputs_ne := by simpa [PlanStep.normal] using h.inputs_ne
  inputs := by
    intro i hi
    obtain ⟨j, hj, rfl⟩ := List.mem_map.mp hi
    exact h.inputs j hj
  compressor := h.compressor
  trimmed := h.trimmed
  outputs := by
    intro o ho
    obtain ⟨o', ho', rfl⟩ := List.mem_map.mp ho
    exact h.outputs o' ho'
  ordered := by
    intro canon hcanon
    have horder := h.ordered canon hcanon
    simp only [PlanStep.normal]
    rw [canonicalizeOutputOrder_map, horder]
  paths := by
    rw [PlanStep.normal_outputNames, PlanStep.normal_inputPaths]
    exact h.paths

theorem PlanStep.WellFormed.renderable (h : s.WellFormed) :
    Renderable s.inputs s.compressor s.outputs :=
  ⟨h.inputs_ne, fun t ht => (h.inputs t ht).toClean, h.compressor, h.trimmed,
    fun o ho => (h.outputs o ho).toClean⟩

/-- A line whose tokens read back is read back. -/
theorem parseStep_renderStep (hs : s.WellFormed) (hin : ∀ i ∈ s.inputs, ReadsBack i)
    (hout : ∀ o ∈ s.outputs, ReadsBack o) (hseen : ∀ i ∈ s.inputs, i.1 ∉ seen) (line : ℕ) :
    parseStep seen line (lineText (renderStep s.inputs s.compressor s.outputs)) = .ok s := by
  have hparts := (lineText_renderStep hs.renderable).2
  have hinputs := parseTokenList_readsBack hs.inputs hin line "input"
  have houtputs : parseOutputs line s.compressor
      (trimCopy (renderTokenList s.inputs) :: s.compressor ::
        (if s.outputs = [] then [] else [trimCopy (renderTokenList s.outputs)])) =
      .ok s.outputs := by
    unfold parseOutputs
    by_cases hnil : s.outputs = []
    · simp [hnil]
    · have hlist := parseTokenList_readsBack hs.outputs hout line "output"
      simp only [if_neg hnil, List.getElem?_cons_succ, List.getElem?_cons_zero, hlist, ok_bind]
      cases hcanon : canonicalOutputChannels s.compressor with
      | none => rfl
      | some canon => simp only [hs.ordered canon hcanon]
  have hfind : s.inputs.find? (fun i => seen.contains i.1) = none := by
    rw [List.find?_eq_none]
    exact fun i hi hmem => hseen i hi (List.contains_iff_mem.mp hmem)
  have hnames : (s.outputs.map Prod.fst).filter (· ≠ []) = s.outputs.map Prod.fst := by
    refine List.filter_eq_self.mpr fun n hn => ?_
    obtain ⟨o, ho, rfl⟩ := List.mem_map.mp hn
    simpa using (hs.outputs o ho).ne_nil
  have hlength : ¬((trimCopy (renderTokenList s.inputs) :: s.compressor ::
        (if s.outputs = [] then [] else [trimCopy (renderTokenList s.outputs)])).length < 2 ∨
      3 < (trimCopy (renderTokenList s.inputs) :: s.compressor ::
        (if s.outputs = [] then [] else [trimCopy (renderTokenList s.outputs)])).length) := by
    by_cases hnil : s.outputs = [] <;> simp [hnil]
  have hempty : ¬(s.inputs = [] ∨ s.compressor = []) :=
    not_or.mpr ⟨hs.inputs_ne, hs.compressor.ne_nil⟩
  unfold parseStep
  simp only [hparts, if_neg hlength, List.getElem?_cons_zero, List.getElem?_cons_succ,
    Option.getD_some, hinputs, ok_bind, if_neg hempty, houtputs, hfind, hnames]
  have hpaths := hs.paths
  obtain ⟨inputs, compressor, outputs, outputPaths⟩ := s
  simp only at hpaths
  rw [hpaths]
  rfl

/-! ## Rendered text -/

theorem getLines_rendered {lines : List Str} (h : ∀ l ∈ lines, '\n' ∉ l) :
    getLines (lines.flatMap fun l => l ++ ['\n']) = lines := by
  have hsplit : (lines.flatMap fun l => l ++ ['\n']).splitOn '\n' = lines ++ [[]] := by
    induction lines with
    | nil => rfl
    | cons l lines ih =>
      rw [List.flatMap_cons, List.append_assoc, List.singleton_append,
        List.splitOn_append_cons_self_of_not_mem (h l List.mem_cons_self),
        ih fun l' hl' => h l' (List.mem_cons_of_mem _ hl'), List.cons_append]
  unfold getLines
  simp [hsplit]

theorem parseLines_render (hwf : ∀ s ∈ steps, s.WellFormed)
    (hin : ∀ s ∈ steps, ∀ i ∈ s.inputs, ReadsBack i)
    (hout : ∀ s ∈ steps, ∀ o ∈ s.outputs, ReadsBack o) (hfresh : Fresh seen steps) (line : ℕ) :
    parseLines seen line (steps.map fun s => renderStep s.inputs s.compressor s.outputs) =
      .ok steps := by
  induction steps generalizing seen line with
  | nil => rfl
  | cons s steps ih =>
    have hs := hwf s List.mem_cons_self
    obtain ⟨hseen, hfresh⟩ := hfresh
    rw [List.map_cons, parseLines]
    simp only [if_neg (lineText_renderStep hs.renderable).1]
    rw [parseStep_renderStep hs (hin s List.mem_cons_self) (hout s List.mem_cons_self) hseen,
      ok_bind, ih (fun t ht => hwf t (List.mem_cons_of_mem _ ht))
        (fun t ht => hin t (List.mem_cons_of_mem _ ht))
        (fun t ht => hout t (List.mem_cons_of_mem _ ht)) hfresh, ok_bind]

/-- **Steps whose tokens read back are parsed from their rendering.** -/
theorem parsePlanDsl_renderPlanSteps (hwf : ∀ s ∈ steps, s.WellFormed)
    (hin : ∀ s ∈ steps, ∀ i ∈ s.inputs, ReadsBack i)
    (hout : ∀ s ∈ steps, ∀ o ∈ s.outputs, ReadsBack o) (hfresh : Fresh [] steps) :
    parsePlanDsl (renderPlanSteps steps) = .ok steps := by
  have htext : renderPlanSteps steps =
      (steps.map fun s => renderStep s.inputs s.compressor s.outputs).flatMap
        fun l => l ++ ['\n'] := by
    rw [renderPlanSteps, List.flatMap_map]
  rw [parsePlanDsl, htext, getLines_rendered]
  · exact parseLines_render hwf hin hout hfresh 1
  · intro l hl
    obtain ⟨s, hs, rfl⟩ := List.mem_map.mp hl
    exact (not_mem_renderStep (hwf s hs).renderable).1

end Sirius.Compression.Plan
