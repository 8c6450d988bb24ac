import Sirius.Common.Run

/-!
# Compare-and-swap loops on one atomic word

Every operation has the shape

    cur = load();
    for (;;) {
      ... decide from cur: return r, or compute next ...
      if (compare_exchange_weak(cur, next)) return r;
    }

so it is given by `attempt op cur`: either `done r` (return `r` without
writing) or `swap next r` (try to replace `cur` by `next`, return `r` on
success). Any number of threads run such operations; each load and each
`compare_exchange_weak` is one atomic step, and a weak exchange may fail
spuriously, which reloads `cur`.

`explains_step`: whatever the interleaving, the word and the results are those
of running the same operations one after the other, each at one instant.
`Encodes.histStep`: where a word encodes a value, the loops on the word are the
loops on the value.
-/

namespace Sirius.Common.CasLoop

/-- What one pass of the loop decides from the value it last read. -/
inductive Attempt (W R : Type*) where
  | done (r : R)
  | swap (next : W) (r : R)
  deriving DecidableEq, Repr

variable {W R Op T : Type*}

/-- The effect of an operation that runs alone: the word after it and its result. -/
def Attempt.apply (w : W) : Attempt W R → W × R
  | .done r => (w, r)
  | .swap next r => (next, r)

/-- The same decision on another representation of the word. -/
def Attempt.map {V : Type*} (f : V → W) : Attempt V R → Attempt W R
  | .done r => .done r
  | .swap next r => .swap (f next) r

/-- The word, and for each thread the operation it is running with the value
    of `cur` it last read. -/
structure Config (W Op T : Type*) where
  word : W
  pending : T → Option (Op × W)

/-- One atomic step of a thread. -/
inductive Act (Op T : Type*) where
  /-- Call the operation and perform its first load. -/
  | call (t : T) (op : Op)
  /-- A failed `compare_exchange_weak`, which reloads `cur`. -/
  | retry (t : T)
  /-- Return, after a successful `compare_exchange_weak` or without one. -/
  | finish (t : T)
  deriving DecidableEq, Repr

def init (w : W) : Config W Op T := ⟨w, fun _ => none⟩

variable [DecidableEq W] [DecidableEq T] (attempt : Op → W → Attempt W R)

/-- One step, with the operation and the result it returned if it returned. -/
def stepRet (c : Config W Op T) : Act Op T → Option (Config W Op T × Option (Op × R))
  | .call t op =>
    match c.pending t with
    | none => some ({ c with pending := Function.update c.pending t (some (op, c.word)) }, none)
    | some _ => none
  | .retry t =>
    match c.pending t with
    | none => none
    | some (op, cur) =>
      match attempt op cur with
      | .done _ => none
      | .swap _ _ =>
        some ({ c with pending := Function.update c.pending t (some (op, c.word)) }, none)
  | .finish t =>
    match c.pending t with
    | none => none
    | some (op, cur) =>
      match attempt op cur with
      | .done r => some ({ c with pending := Function.update c.pending t none }, some (op, r))
      | .swap next r =>
        if c.word = cur then
          some ({ word := next, pending := Function.update c.pending t none }, some (op, r))
        else none

variable {attempt}

/-- Everything a step can do. -/
theorem stepRet_cases {c c' : Config W Op T} {a : Act Op T} {ret : Option (Op × R)}
    (h : stepRet attempt c a = some (c', ret)) :
    (∃ t op, a = .call t op ∧ c.pending t = none ∧ ret = none ∧
      c' = { c with pending := Function.update c.pending t (some (op, c.word)) }) ∨
    (∃ t op cur next r, a = .retry t ∧ c.pending t = some (op, cur) ∧
      attempt op cur = .swap next r ∧ ret = none ∧
      c' = { c with pending := Function.update c.pending t (some (op, c.word)) }) ∨
    (∃ t op cur r, a = .finish t ∧ c.pending t = some (op, cur) ∧ attempt op cur = .done r ∧
      ret = some (op, r) ∧ c' = { c with pending := Function.update c.pending t none }) ∨
    (∃ t op next r, a = .finish t ∧ c.pending t = some (op, c.word) ∧
      attempt op c.word = .swap next r ∧ ret = some (op, r) ∧
      c' = { word := next, pending := Function.update c.pending t none }) := by
  cases a with
  | call t op =>
    simp only [stepRet] at h
    split at h
    · rename_i hp
      cases h
      exact Or.inl ⟨t, op, rfl, hp, rfl, rfl⟩
    · cases h
  | retry t =>
    simp only [stepRet] at h
    split at h
    · cases h
    · rename_i op cur hp
      split at h
      · cases h
      · rename_i next r hat
        cases h
        exact Or.inr (Or.inl ⟨t, op, cur, next, r, rfl, hp, hat, rfl, rfl⟩)
  | finish t =>
    simp only [stepRet] at h
    split at h
    · cases h
    · rename_i op cur hp
      split at h
      · rename_i r hat
        cases h
        exact Or.inr (Or.inr (Or.inl ⟨t, op, cur, r, rfl, hp, hat, rfl, rfl⟩))
      · rename_i next r hat
        split_ifs at h with hw
        cases h
        subst hw
        exact Or.inr (Or.inr (Or.inr ⟨t, op, next, r, rfl, hp, hat, rfl, rfl⟩))

/-! ## Linearizability -/

section Linearizability

/-- Operations run one after the other, each at one instant: the final word
    and what each of them returned, in order. -/
def sequential (attempt : Op → W → Attempt W R) : W → List (T × Op) → W × List (T × Op × R)
  | w, [] => (w, [])
  | w, (t, op) :: rest =>
    let now := (attempt op w).apply w
    let later := sequential attempt now.1 rest
    (later.1, (t, op, now.2) :: later.2)

omit [DecidableEq W] [DecidableEq T] in
theorem sequential_snoc (w : W) (l : List (T × Op)) (t : T) (op : Op) :
    sequential attempt w (l ++ [(t, op)]) =
      (((attempt op (sequential attempt w l).1).apply (sequential attempt w l).1).1,
        (sequential attempt w l).2 ++
          [(t, op, ((attempt op (sequential attempt w l).1).apply (sequential attempt w l).1).2)]) := by
  induction l generalizing w with
  | nil => rfl
  | cons x l ih =>
    obtain ⟨u, o⟩ := x
    simp only [List.cons_append, sequential]
    rw [ih]

/-- The interleaved system, with the returns in the order they happened. -/
def histStep (attempt : Op → W → Attempt W R) (s : Config W Op T × List (T × Op × R))
    (a : Act Op T) : Option (Config W Op T × List (T × Op × R)) :=
  (stepRet attempt s.1 a).map fun x =>
    match a, x.2 with
    | .finish t, some (op, r) => (x.1, s.2 ++ [(t, op, r)])
    | _, _ => (x.1, s.2)

/-- What thread `t` returned, in order. -/
def returnsOf (t : T) (l : List (T × Op × R)) : List (Op × R) :=
  (l.filter fun x => x.1 = t).map Prod.snd

omit [DecidableEq W] in
theorem returnsOf_snoc (t u : T) (op : Op) (r : R) (l : List (T × Op × R)) :
    returnsOf t (l ++ [(u, op, r)]) = returnsOf t l ++ if u = t then [(op, r)] else [] := by
  unfold returnsOf
  by_cases h : u = t <;> simp [List.filter_append, h]

/-- The result of a running operation that is already decided: it last read a
    value on which it returns without writing. -/
def decided (attempt : Op → W → Attempt W R) : Option (Op × W) → List (Op × R)
  | none => []
  | some (op, cur) =>
    match attempt op cur with
    | .done r => [(op, r)]
    | .swap _ _ => []

omit [DecidableEq W] in
theorem decided_done {op : Op} {cur : W} {r : R} (h : attempt op cur = .done r) :
    decided attempt (some (op, cur)) = [(op, r)] := by
  simp [decided, h]

omit [DecidableEq W] in
theorem decided_swap {op : Op} {cur next : W} {r : R} (h : attempt op cur = .swap next r) :
    decided attempt (some (op, cur)) = [] := by
  simp [decided, h]

/-- `lin` explains the state: it leads to the same word, and every thread gets
    the same results from it, where a decided operation counts as returned. -/
def Explains (attempt : Op → W → Attempt W R) (w : W) (lin : List (T × Op))
    (s : Config W Op T × List (T × Op × R)) : Prop :=
  (sequential attempt w lin).1 = s.1.word ∧
    ∀ t, returnsOf t (sequential attempt w lin).2 =
      returnsOf t s.2 ++ decided attempt (s.1.pending t)

omit [DecidableEq W] in
/-- A read of the word by `t` inside `op`. If the operation is decided by it,
    this is the instant at which it takes effect. -/
theorem Explains.read {w : W} {lin : List (T × Op)} {c : Config W Op T}
    {rets : List (T × Op × R)} (h : Explains attempt w lin (c, rets)) (t : T) (op : Op)
    (hp : decided attempt (c.pending t) = []) :
    ∃ lin', Explains attempt w lin'
      ({ c with pending := Function.update c.pending t (some (op, c.word)) }, rets) := by
  obtain ⟨hw, hr⟩ := h
  cases hat : attempt op c.word with
  | done r =>
    refine ⟨lin ++ [(t, op)], ?_, fun u => ?_⟩
    · rw [sequential_snoc, hw]; simp [hat, Attempt.apply]
    · rw [sequential_snoc, hw]
      simp only [hat, Attempt.apply, returnsOf_snoc, hr u]
      by_cases hu : t = u
      · subst hu; simp [hp, decided_done hat]
      · rw [Function.update_of_ne (Ne.symm hu)]; simp [hu]
  | swap next r =>
    refine ⟨lin, hw, fun u => ?_⟩
    rw [hr u]
    dsimp only
    by_cases hu : t = u
    · subst hu; simp [hp, decided_swap hat]
    · rw [Function.update_of_ne (Ne.symm hu)]

/-- A step keeps the interleaving explained by running the operations one at a time. -/
theorem explains_step {w : W} {s s' : Config W Op T × List (T × Op × R)} {a : Act Op T}
    (h : ∃ lin, Explains attempt w lin s) (hs : histStep attempt s a = some s') :
    ∃ lin, Explains attempt w lin s' := by
  obtain ⟨c, rets⟩ := s
  obtain ⟨lin, hex⟩ := h
  obtain ⟨⟨c', ret⟩, hc, rfl⟩ := Option.map_eq_some_iff.mp hs
  rcases stepRet_cases hc with ⟨t, op, rfl, hp, rfl, rfl⟩ | ⟨t, op, cur, next, r, rfl, hp, hat, rfl, rfl⟩ |
    ⟨t, op, cur, r, rfl, hp, hat, rfl, rfl⟩ | ⟨t, op, next, r, rfl, hp, hat, rfl, rfl⟩
  · exact hex.read t op (by rw [show c.pending t = none from hp]; rfl)
  · exact hex.read t op (by rw [show c.pending t = some (op, cur) from hp]; exact decided_swap hat)
  · -- the operation took effect when it read `cur`; only the return is recorded now
    obtain ⟨hw, hr⟩ := hex
    refine ⟨lin, hw, fun u => ?_⟩
    rw [hr u, returnsOf_snoc]
    dsimp only
    by_cases hu : t = u
    · subst hu
      simp only [show c.pending t = some (op, cur) from hp, decided_done hat]
      simp [decided]
    · rw [Function.update_of_ne (Ne.symm hu)]; simp [hu]
  · obtain ⟨hw, hr⟩ := hex
    refine ⟨lin ++ [(t, op)], ?_, fun u => ?_⟩
    · rw [sequential_snoc, hw]; simp [hat, Attempt.apply]
    · rw [sequential_snoc, hw, returnsOf_snoc, returnsOf_snoc, hr u]
      dsimp only
      by_cases hu : t = u
      · subst hu
        simp only [show c.pending t = some (op, c.word) from hp, decided_swap hat, hat]
        simp [decided, Attempt.apply]
      · rw [Function.update_of_ne (Ne.symm hu)]; simp [hu]

end Linearizability

/-! ## An encoded word -/

section Encoding

variable {V : Type*} [DecidableEq V] {attemptV : Op → V → Attempt V R} {enc : V → W}
  {Good : V → Prop}

/-- The words of `c` encode the good values of `d`. -/
structure Encodes (enc : V → W) (Good : V → Prop) (c : Config W Op T) (d : Config V Op T) :
    Prop where
  word : c.word = enc d.word
  good : Good d.word
  pending : ∀ t, c.pending t = (d.pending t).map fun x => (x.1, enc x.2)
  pending_good : ∀ t op v, d.pending t = some (op, v) → Good v

omit [DecidableEq W] [DecidableEq V] in
theorem Encodes.update {c : Config W Op T} {d : Config V Op T} (h : Encodes enc Good c d) {v : V}
    (hv : Good v) (t : T) {x : Option (Op × V)} (hx : ∀ op u, x = some (op, u) → Good u) :
    Encodes enc Good ⟨enc v, Function.update c.pending t (x.map fun y => (y.1, enc y.2))⟩
      ⟨v, Function.update d.pending t x⟩ := by
  refine ⟨rfl, hv, fun u => ?_, fun u op w hu => ?_⟩
  · by_cases hut : u = t
    · subst hut
      simp
    · simpa [Function.update_of_ne hut] using h.pending u
  · by_cases hut : u = t
    · subst hut
      exact hx op w (by simpa using hu)
    · exact h.pending_good u op w (by simpa [Function.update_of_ne hut] using hu)

/-- **Loops on an encoded word are loops on its values**, where the operation that steps decides
    on the word as on the value. -/
theorem Encodes.histStep (hinj : ∀ v v', Good v → Good v' → enc v = enc v' → v = v')
    {s s' : Config W Op T × List (T × Op × R)} {d : Config V Op T} {a : Act Op T}
    (h : Encodes enc Good s.1 d)
    (hattempt : ∀ t op v, a = .retry t ∨ a = .finish t → d.pending t = some (op, v) →
      attempt op (enc v) = (attemptV op v).map enc ∧ ∀ v' r, attemptV op v = .swap v' r → Good v')
    (hs : histStep attempt s a = some s') :
    ∃ d', CasLoop.histStep attemptV (d, s.2) a = some (d', s'.2) ∧ Encodes enc Good s'.1 d' := by
  obtain ⟨⟨word, pending⟩, rets⟩ := s
  obtain ⟨⟨c', ret⟩, hc, rfl⟩ := Option.map_eq_some_iff.mp hs
  obtain rfl : word = enc d.word := h.word
  -- the value that a pending operation read
  have hvalue : ∀ {t op cur}, pending t = some (op, cur) →
      ∃ v, d.pending t = some (op, v) ∧ cur = enc v ∧ Good v := by
    intro t op cur hp
    have hmap : pending t = (d.pending t).map fun x => (x.1, enc x.2) := h.pending t
    rw [hp] at hmap
    obtain ⟨⟨op', v⟩, hv, heq⟩ := Option.map_eq_some_iff.mp hmap.symm
    cases heq
    exact ⟨v, hv, rfl, h.pending_good t _ v hv⟩
  rcases stepRet_cases hc with ⟨t, op, rfl, hp, rfl, rfl⟩ |
    ⟨t, op, cur, next, r, rfl, hp, hat, rfl, rfl⟩ | ⟨t, op, cur, r, rfl, hp, hat, rfl, rfl⟩ |
    ⟨t, op, next, r, rfl, hp, hat, rfl, rfl⟩
  · have hnone : d.pending t = none := by
      have hmap := h.pending t
      rw [hp] at hmap
      exact Option.map_eq_none_iff.mp hmap.symm
    refine ⟨_, ?_, h.update h.good t (x := some (op, d.word)) ?_⟩
    · simp [CasLoop.histStep, stepRet, hnone]
    · rintro _ _ ⟨⟩
      exact h.good
  · obtain ⟨v, hv, rfl, -⟩ := hvalue hp
    obtain ⟨heq, -⟩ := hattempt t op v (.inl rfl) hv
    rw [hat] at heq
    refine ⟨_, ?_, h.update h.good t (x := some (op, d.word)) ?_⟩
    · cases hatV : attemptV op v with
      | done r => rw [hatV] at heq; cases heq
      | swap next r => simp [CasLoop.histStep, stepRet, hv, hatV]
    · rintro _ _ ⟨⟩
      exact h.good
  · obtain ⟨v, hv, rfl, -⟩ := hvalue hp
    obtain ⟨heq, -⟩ := hattempt t op v (.inr rfl) hv
    rw [hat] at heq
    refine ⟨_, ?_, h.update h.good t (x := none) (by simp)⟩
    cases hatV : attemptV op v with
    | done r => rw [hatV] at heq; cases heq; simp [CasLoop.histStep, stepRet, hv, hatV]
    | swap next r => rw [hatV] at heq; cases heq
  · obtain ⟨v, hv, hword, hgood⟩ := hvalue hp
    obtain rfl := hinj _ _ h.good hgood hword
    obtain ⟨heq, hnext⟩ := hattempt t op d.word (.inr rfl) hv
    rw [show attempt op (enc d.word) = _ from hat] at heq
    cases hatV : attemptV op d.word with
    | done r => rw [hatV] at heq; cases heq
    | swap next r =>
      rw [hatV] at heq
      cases heq
      refine ⟨_, ?_, h.update (hnext next r hatV) t (x := none) (by simp)⟩
      simp [CasLoop.histStep, stepRet, hv, hatV]

end Encoding

end Sirius.Common.CasLoop
