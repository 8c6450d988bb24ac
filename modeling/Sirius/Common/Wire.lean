import Sirius.Common.Bytes
import Sirius.Common.Checked

/-!
# Reading records from bytes

A parser takes a value off the front of a byte string or stops with an error.

* `Inverts p bytes a`: `p` reads `a` back from `bytes`, whatever stands behind them.
* `Yields p P`: every value `p` returns meets `P`.

Both are kept by sequencing and by reading a counted list, so a format is inverted,
or bounded, field by field.
-/

namespace Sirius.Common.Wire

/-- A parser of byte strings. -/
abbrev Parser (ε : Type) := StateT (List UInt8) (Except ε)

variable {ε ε' α β : Type}

/-- `p` reads `a` back from `bytes`. -/
def Inverts (p : Parser ε α) (bytes : List UInt8) (a : α) : Prop :=
  ∀ rest, p.run (bytes ++ rest) = .ok (a, rest)

/-- Every value `p` returns meets `P`. -/
def Yields (p : Parser ε α) (P : α → Prop) : Prop :=
  ∀ bytes a rest, p.run bytes = .ok (a, rest) → P a

/-! ## Rules -/

theorem Inverts.pure (a : α) : Inverts (pure a : Parser ε α) [] a := fun _ => rfl

variable {p : Parser ε α} {f : α → Parser ε β}

theorem Inverts.bind {as bs : List UInt8} {a : α} {b : β} (hp : Inverts p as a)
    (hf : Inverts (f a) bs b) : Inverts (p >>= f) (as ++ bs) b := by
  intro rest
  rw [StateT.run_bind, List.append_assoc, hp, ok_bind]
  exact hf rest

/-- A last step that reads nothing. -/
theorem Inverts.bind_pure {as : List UInt8} {a : α} {b : β} (hp : Inverts p as a)
    (hf : f a = Pure.pure b) : Inverts (p >>= f) as b := by
  have h : Inverts (p >>= f) (as ++ []) b := hp.bind (hf ▸ Inverts.pure b)
  rwa [List.append_nil] at h

theorem Inverts.map {f : α → β} {as : List UInt8} {a : α}
    (hp : Inverts p as a) : Inverts (p >>= fun x => Pure.pure (f x)) as (f a) :=
  hp.bind_pure rfl

variable {P : α → Prop}

theorem Yields.pure {a : α} (h : P a) : Yields (pure a : Parser ε α) P := by
  rintro bytes _ rest ⟨rfl⟩
  exact h

theorem Yields.bind {Q : β → Prop}
    (hp : Yields p P) (hf : ∀ a, P a → Yields (f a) Q) : Yields (p >>= f) Q := by
  intro bytes b rest h
  rw [StateT.run_bind, bind_eq_ok] at h
  obtain ⟨⟨a, more⟩, hrun, hrest⟩ := h
  exact hf a (hp _ _ _ hrun) _ _ _ hrest

theorem Yields.mono {P Q : α → Prop} (hp : Yields p P) (h : ∀ a, P a → Q a) : Yields p Q :=
  fun bytes a rest hrun => h a (hp bytes a rest hrun)

theorem Yields.true (p : Parser ε α) : Yields p fun _ => True := fun _ _ _ _ => trivial

theorem Yields.ite {c : Prop} [Decidable c] {p q : Parser ε α} (hp : c → Yields p P)
    (hq : ¬c → Yields q P) : Yields (if c then p else q) P := by
  split_ifs with hc
  · exact hp hc
  · exact hq hc

theorem Yields.throw (e : ε) : Yields (throw e : Parser ε α) P := by
  intro bytes a rest h
  cases h

/-- The error of a parser, replaced. -/
def orError (e : ε') (p : Parser ε α) : Parser ε' α := fun bytes =>
  match p.run bytes with
  | .ok r => .ok r
  | .error _ => .error e

theorem Inverts.orError {bytes : List UInt8} {a : α} (h : Inverts p bytes a)
    (e : ε') : Inverts (orError e p) bytes a := by
  intro rest
  show Wire.orError e p (bytes ++ rest) = _
  rw [Wire.orError, h rest]

theorem Yields.orError (h : Yields p P) (e : ε') : Yields (orError e p) P := by
  intro bytes a rest hrun
  have hrun' : Wire.orError e p bytes = .ok (a, rest) := hrun
  unfold Wire.orError at hrun'
  cases hp : p.run bytes with
  | error e => rw [hp] at hrun'; cases hrun'
  | ok r =>
    rw [hp] at hrun'
    obtain ⟨rfl⟩ := hrun'
    exact h bytes a rest hp

/-! ## Counted lists -/

/-- `n` values in a row. -/
def readN (p : Parser ε α) : ℕ → Parser ε (List α)
  | 0 => pure []
  | n + 1 => do
    let a ← p
    let as ← readN p n
    pure (a :: as)

theorem Inverts.readN {p : Parser ε β} {push : α → List UInt8} {value : α → β} {l : List α}
    (h : ∀ a ∈ l, Inverts p (push a) (value a)) :
    Inverts (readN p l.length) (l.flatMap push) (l.map value) := by
  induction l with
  | nil => exact Inverts.pure []
  | cons a l ih =>
    rw [List.flatMap_cons]
    exact (h a List.mem_cons_self).bind
      (Inverts.map (ih fun b hb => h b (List.mem_cons_of_mem a hb)))

/-- A counted list whose values are what was pushed. -/
theorem Inverts.readN_self {push : α → List UInt8} {l : List α}
    (h : ∀ a ∈ l, Inverts p (push a) a) : Inverts (Wire.readN p l.length) (l.flatMap push) l := by
  have hmap : Inverts (Wire.readN p l.length) (l.flatMap push) (l.map id) := Inverts.readN h
  rwa [List.map_id] at hmap

theorem Yields.readN (hp : Yields p P) (n : ℕ) :
    Yields (readN p n) fun l => l.length = n ∧ ∀ a ∈ l, P a := by
  induction n with
  | zero => exact Yields.pure ⟨rfl, by simp⟩
  | succ n ih =>
    refine hp.bind fun a ha => ih.bind fun l hl => Yields.pure ⟨by simp [hl.1], ?_⟩
    intro b hb
    rcases List.mem_cons.mp hb with rfl | hb
    · exact ha
    · exact hl.2 b hb

/-! ## Fixed widths -/

/-- `n` bytes, when there are so many. -/
def readBytes (n : ℕ) : Parser Unit (List UInt8) := fun bytes =>
  if n ≤ bytes.length then .ok (bytes.take n, bytes.drop n) else .error ()

theorem readBytes_inverts (bytes : List UInt8) :
    Inverts (readBytes bytes.length) bytes bytes := by
  intro rest
  show readBytes bytes.length (bytes ++ rest) = _
  rw [readBytes, if_pos (by simp), List.take_left, List.drop_left]

theorem readBytes_yields (n : ℕ) : Yields (readBytes n) fun bs => bs.length = n := by
  intro bytes a rest h
  have h' : readBytes n bytes = .ok (a, rest) := h
  unfold readBytes at h'
  split_ifs at h' with hn
  obtain ⟨rfl⟩ := h'
  exact List.length_take_of_le hn

/-- A little-endian number of `w` bytes. -/
def readNat (w : ℕ) : Parser Unit ℕ := do
  let bytes ← readBytes w
  pure (leValue bytes)

theorem readNat_inverts {w n : ℕ} (h : n < 256 ^ w) : Inverts (readNat w) (leBytes w n) n := by
  have hbytes := readBytes_inverts (leBytes w n)
  rw [length_leBytes] at hbytes
  have hmap := hbytes.map (f := leValue)
  rwa [leValue_leBytes h] at hmap

end Sirius.Common.Wire
