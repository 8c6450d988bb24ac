import Sirius.ScanManager.Admission

/-!
# The accounts of the preparation ledger

Every counter of the ledger is the sum of the charges it stands for, and the
charges stay inside the grant. Permits, units and blocks end in any order: a
temporary block keeps its permit alive after the `w_permit` is released, and a
retained block outlives its permit.

* `Accounts`: the invariant.
* `charges_bounded`: in every run after a successful admission.
-/

namespace Sirius.ScanManager

open Sirius.Common

namespace Block

variable {Key : Type}

/-- The charge of a block, as long as it has not given it back. -/
def charged (b : Block Key) : ℕ := if b.stage = .freed then 0 else b.charge

/-- What the block charges to the retained budget. -/
def retainedCharge (b : Block Key) : ℕ := if b.retained then b.charged else 0

/-- What the block charges to the temporary budget. -/
def temporaryCharge (b : Block Key) : ℕ := if b.retained then 0 else b.charged

/-- What the block charges to unit `k`. -/
def unitCharge [DecidableEq Key] (k : Key) (b : Block Key) : ℕ :=
  if b.key = k then b.retainedCharge else 0

/-- What the block charges to permit `p`. -/
def permitCharge (p : ℕ) (b : Block Key) : ℕ := if b.permit = p then b.temporaryCharge else 0

theorem charged_eq (b : Block Key) : b.charged = b.retainedCharge + b.temporaryCharge := by
  unfold retainedCharge temporaryCharge
  cases b.retained <;> simp

end Block

namespace Ledger

variable {Key : Type} {chargeSize : ℕ → Option ℕ}

/-- The sum of `f` over the blocks. -/
abbrev sumBlocks (s : Ledger Key) (f : Block Key → ℕ) : ℕ := Table.total (fun _ b => f b) s.blocks

/-! ## Owners of a permit -/

theorem holders_eq_zero {s : Ledger Key} {p : ℕ} (h : s.holders p = 0) {i : ℕ} {b : Block Key}
    (hb : s.blocks.lookup i = some b) (hp : b.permit = p) : ¬b.Holds := by
  intro hh
  have hle := Table.le_total (f := fun _ b => if b.permit = p ∧ Block.Holds b then 1 else 0) hb
  rw [if_pos ⟨hp, hh⟩] at hle
  unfold holders at h
  omega

theorem not_expired_of_holds {s : Ledger Key} {i : ℕ} {b : Block Key} {x : PermitState Key}
    (hb : s.blocks.lookup i = some b) (hh : b.Holds) (hx : s.permits.lookup b.permit = some x) :
    ¬s.Expired b.permit := by
  intro he
  exact holders_eq_zero (he x hx).2 hb rfl hh

theorem temporaryCharge_of_expired {s : Ledger Key} {p : ℕ} {x : PermitState Key}
    (hx : s.permits.lookup p = some x) (he : s.Expired p) :
    s.sumBlocks (Block.permitCharge p) = 0 := by
  apply Table.total_eq_zero
  intro i b hb
  unfold Block.permitCharge Block.temporaryCharge
  split_ifs with hp hr
  · rfl
  · exact absurd (Or.inr (by simpa using hr)) (holders_eq_zero (he x hx).2 hb hp)
  · rfl

/-- A permit without an owner gets none back. -/
theorem not_expired_mono {s s' : Ledger Key} {p : ℕ} {x x' : PermitState Key}
    (hx : s.permits.lookup p = some x) (hx' : s'.permits.lookup p = some x')
    (hh : x'.handle = true → x.handle = true) (hle : s'.holders p ≤ s.holders p)
    (he : ¬s'.Expired p) : ¬s.Expired p := by
  intro hold
  apply he
  intro y hy
  rw [hx'] at hy
  cases hy
  have := hold x hx
  refine ⟨?_, by omega⟩
  by_contra hne
  rw [hh (by simpa using hne)] at this
  cases this.1

variable [DecidableEq Key]

/-! ## The invariant -/

/-- The sums of the ledger are those of its blocks, permits and units, and keep their limits. -/
structure Accounts (s : Ledger Key) : Prop where
  unitRetained : ∀ k u, s.units.lookup k = some u → u.retained = s.sumBlocks (Block.unitCharge k)
  unitLimit : ∀ k u, s.units.lookup k = some u → u.retained ≤ u.retainedLimit
  retained : s.retained = s.sumBlocks Block.retainedCharge
  retained_le : s.retained ≤ s.retainedLimit
  permitTemporary : ∀ p x, s.permits.lookup p = some x →
    x.temporary = s.sumBlocks (Block.permitCharge p)
  permitLimits : ∀ p x, s.permits.lookup p = some x →
    x.temporary ≤ x.temporaryLimit ∧ x.temporaryLimit ≤ s.w
  temporary : s.sumBlocks Block.temporaryCharge = Table.total (fun _ x => x.temporary) s.permits
  registered : s.registered = Table.total (fun _ u => u.retainedLimit) s.units
  registered_le : s.registered ≤ s.retainedLimit
  active : s.active = s.permits.size
  active_le : s.active ≤ s.permitLimit
  blockUnit : ∀ i b, s.blocks.lookup i = some b → 0 < b.retainedCharge →
    (s.units.lookup b.key).isSome
  blockPermit : ∀ i b, s.blocks.lookup i = some b → b.Holds →
    ∃ x, s.permits.lookup b.permit = some x ∧ x.key = b.key
  blockCharge : ∀ i b, s.blocks.lookup i = some b → b.stage ≠ .freed → 0 < b.charge
  permitUnit : ∀ p x, s.permits.lookup p = some x → ¬s.Expired p →
    ∃ u, s.units.lookup x.key = some u ∧ u.permit = some p
  permitId : ∀ p x, s.permits.lookup p = some x → p < s.nextPermit
  unitPermitId : ∀ k u p, s.units.lookup k = some u → u.permit = some p → p < s.nextPermit
  blockId : ∀ i b, s.blocks.lookup i = some b → i < s.nextBlock ∧ b.permit < s.nextPermit
  found : s.missingUnit = false

theorem accounts_fresh {s : Ledger Key} (h : s.Fresh) : Accounts s := by
  obtain ⟨h1, h2, h3, h4, h5, h6, h7⟩ := h
  constructor
  all_goals simp [sumBlocks, h1, h2, h3, h4, h5, h6, h7, Table.size, Table.total]

/-! ## Units -/

section Effects

variable {s : Ledger Key} (hA : Accounts s)
include hA

variable {charge p i : ℕ}

/-- A new unit. -/
theorem accounts_newUnit {k : Key} (hk : s.units.lookup k = none)
    (hc : charge ≤ s.retainedLimit - s.registered) :
    Accounts { s with
      units := s.units.insert k { retainedLimit := charge }
      registered := s.registered + charge } := by
  have hfree : s.sumBlocks (Block.unitCharge k) = 0 := by
    apply Table.total_eq_zero
    intro i b hb
    unfold Block.unitCharge
    split_ifs with hkey
    · by_contra hne
      have := hA.blockUnit i b hb (Nat.pos_of_ne_zero hne)
      rw [hkey, hk] at this
      cases this
    · rfl
  refine { hA with
    unitRetained := Table.forall_lookup_insert hfree.symm hA.unitRetained
    unitLimit := Table.forall_lookup_insert (Nat.zero_le _) hA.unitLimit
    registered := ?_
    registered_le := ?_
    blockUnit := fun i b hb hpos => ?_
    permitUnit := fun p x hx he => ?_
    unitPermitId := fun k' u p hu hp => ?_ }
  · rw [Table.total_insert_new hk, ← hA.registered]
    exact Nat.add_comm _ _
  · have := hA.registered_le
    show s.registered + charge ≤ s.retainedLimit
    omega
  · exact Table.isSome_lookup_insert (hA.blockUnit i b hb hpos)
  · obtain ⟨u, hu, hp⟩ := hA.permitUnit p x hx he
    refine ⟨u, ?_, hp⟩
    rw [Table.lookup_insert_eq, if_neg]
    · exact hu
    · rintro rfl
      rw [hk] at hu
      cases hu
  · rcases Table.lookup_insert_cases hu with ⟨rfl, rfl⟩ | ⟨-, hu0⟩
    · cases hp
    · exact hA.unitPermitId k' u p hu0 hp

/-- A unit is marked retired. -/
theorem accounts_retire {k : Key} {u : UnitAccount} (hk : s.units.lookup k = some u) :
    Accounts (s.setUnit k { u with retired := true }) := by
  refine { hA with
    unitRetained := Table.forall_lookup_insert (hA.unitRetained _ u hk) hA.unitRetained
    unitLimit := Table.forall_lookup_insert (hA.unitLimit _ u hk) hA.unitLimit
    registered := ?_
    blockUnit := fun i b hb hpos => ?_
    permitUnit := fun p x hx he => ?_
    unitPermitId := fun k' u' p => Table.forall_lookup_insert (hA.unitPermitId k u p hk)
      (hA.unitPermitId · · p) k' u' }
  · exact hA.registered.trans (Table.total_insert_same hk rfl).symm
  · exact Table.isSome_lookup_insert (hA.blockUnit i b hb hpos)
  · exact Table.exists_lookup_insert hk id (hA.permitUnit p x hx he)

/-- `erase_retired`. -/
theorem accounts_eraseRetired (k : Key) : Accounts (s.eraseRetired k) := by
  unfold eraseRetired
  split
  · rename_i u hk
    split_ifs with hg
    · obtain ⟨-, hzero, hexp⟩ := hg
      have hreg := hA.registered
      rw [Table.total_of_lookup hk] at hreg
      refine { hA with
        unitRetained := fun k' u' hu => ?_
        unitLimit := fun k' u' hu => ?_
        registered := ?_
        registered_le := ?_
        blockUnit := fun i b hb hpos => ?_
        permitUnit := fun p x hx he => ?_
        unitPermitId := fun k' u' p hu hp => ?_ }
      · exact hA.unitRetained k' u' (Table.lookup_of_erase hu).2
      · exact hA.unitLimit k' u' (Table.lookup_of_erase hu).2
      · show s.registered - u.retainedLimit = Table.total _ (s.units.erase k)
        omega
      · have := hA.registered_le
        show s.registered - u.retainedLimit ≤ s.retainedLimit
        omega
      · rw [Table.lookup_erase_eq, if_neg]
        · exact hA.blockUnit i b hb hpos
        · -- a block charged to the unit keeps its retained count above zero
          rintro rfl
          have hle := Table.le_total (f := fun _ b' => Block.unitCharge b.key b') hb
          have := hA.unitRetained _ u hk
          simp only [Block.unitCharge, if_true] at hle
          simp only [sumBlocks, Block.unitCharge] at this
          omega
      · obtain ⟨v, hv, hp⟩ := hA.permitUnit p x hx he
        refine ⟨v, ?_, hp⟩
        rw [Table.lookup_erase_eq, if_neg]
        · exact hv
        · rintro rfl
          rw [hk] at hv
          cases hv
          exact he (hexp p hp)
      · exact hA.unitPermitId k' u' p (Table.lookup_of_erase hu).2 hp
    · exact hA
  · exact hA

/-! ## Permits -/

/-- A `w_permit` is released: the permit loses a flag or its handle. -/
theorem accounts_setPermit {x x' : PermitState Key} (hp : s.permits.lookup p = some x)
    (hk : x'.key = x.key) (ht : x'.temporary = x.temporary)
    (hl : x'.temporaryLimit = x.temporaryLimit) (hh : x'.handle = true → x.handle = true) :
    Accounts (s.setPermit p x') := by
  refine { hA with
    permitTemporary := Table.forall_lookup_insert (ht.trans (hA.permitTemporary _ x hp))
      hA.permitTemporary
    permitLimits := Table.forall_lookup_insert (ht ▸ hl ▸ hA.permitLimits _ x hp) hA.permitLimits
    temporary := ?_
    active := ?_
    blockPermit := fun i b hb hold => ?_
    permitUnit := fun p' y' hy he => ?_
    permitId := Table.forall_lookup_insert (hA.permitId _ x hp) hA.permitId }
  · exact hA.temporary.trans (Table.total_insert_same hp ht).symm
  · exact hA.active.trans (Table.size_insert_old hp).symm
  · exact Table.exists_lookup_insert hp hk.trans (hA.blockPermit i b hb hold)
  · rcases Table.lookup_insert_cases hy with ⟨rfl, rfl⟩ | ⟨-, hy0⟩
    · exact hk ▸ hA.permitUnit p' x hp (not_expired_mono hp hy hh le_rfl he)
    · exact hA.permitUnit p' y' hy0 (not_expired_mono hy0 hy id le_rfl he)

/-- A permit is attached to a unit whose last permit has no owner. -/
theorem accounts_attach {k : Key} {u : UnitAccount} {limit : ℕ} (hk : s.units.lookup k = some u)
    (hexp : ∀ p ∈ u.permit, s.Expired p) (hlimit : limit ≤ s.w) (hfree : s.active ≠ s.permitLimit) :
    Accounts (s.attach k u limit) := by
  have hnew : s.permits.lookup s.nextPermit = none := by
    by_contra hne
    obtain ⟨x, hx⟩ := Option.ne_none_iff_exists'.mp hne
    exact lt_irrefl _ (hA.permitId _ x hx)
  have hzero : s.sumBlocks (Block.permitCharge s.nextPermit) = 0 := by
    apply Table.total_eq_zero
    intro i b hb
    unfold Block.permitCharge
    rw [if_neg]
    intro he
    have := (hA.blockId i b hb).2
    omega
  refine { hA with
    unitRetained := Table.forall_lookup_insert (hA.unitRetained _ u hk) hA.unitRetained
    unitLimit := Table.forall_lookup_insert (hA.unitLimit _ u hk) hA.unitLimit
    permitTemporary := Table.forall_lookup_insert hzero.symm hA.permitTemporary
    permitLimits := Table.forall_lookup_insert ⟨Nat.zero_le _, hlimit⟩ hA.permitLimits
    temporary := ?_
    registered := ?_
    active := ?_
    active_le := ?_
    blockUnit := fun i b hb hpos => ?_
    blockPermit := fun i b hb hold => ?_
    permitUnit := fun p y hy he => ?_
    permitId := Table.forall_lookup_insert (Nat.lt_succ_self _)
      fun p y hy => Nat.lt_succ_of_lt (hA.permitId p y hy)
    unitPermitId := fun k' u' p hu hp => ?_
    blockId := fun i b hb => ?_ }
  · refine hA.temporary.trans ?_
    show _ = Table.total _ (s.permits.insert s.nextPermit _)
    rw [Table.total_insert_new hnew, Nat.zero_add]
  · exact hA.registered.trans (Table.total_insert_same hk rfl).symm
  · show s.active + 1 = Table.size (s.permits.insert s.nextPermit _)
    rw [Table.size_insert_new hnew, ← hA.active]
  · have := hA.active_le
    show s.active + 1 ≤ s.permitLimit
    omega
  · exact Table.isSome_lookup_insert (hA.blockUnit i b hb hpos)
  · obtain ⟨y, hy, hkey⟩ := hA.blockPermit i b hb hold
    refine ⟨y, ?_, hkey⟩
    show (s.permits.insert s.nextPermit _).lookup b.permit = some y
    rw [Table.lookup_insert_eq, if_neg]
    · exact hy
    · have := (hA.blockId i b hb).2
      omega
  · show ∃ u', (s.units.insert k _).lookup y.key = some u' ∧ _
    rw [Table.lookup_insert_eq]
    rcases Table.lookup_insert_cases hy with ⟨rfl, rfl⟩ | ⟨hne, hy0⟩
    · rw [if_pos rfl]
      exact ⟨_, rfl, rfl⟩
    · have he0 : ¬s.Expired p := not_expired_mono hy0 hy id le_rfl he
      obtain ⟨v, hv, hvp⟩ := hA.permitUnit p y hy0 he0
      rw [if_neg]
      · exact ⟨v, hv, hvp⟩
      · rintro hyk
        rw [hyk, hk] at hv
        cases hv
        exact he0 (hexp p hvp)
  · show p < s.nextPermit + 1
    rcases Table.lookup_insert_cases hu with ⟨rfl, rfl⟩ | ⟨-, hu0⟩
    · cases hp
      omega
    · have := hA.unitPermitId k' u' p hu0 hp
      omega
  · have := hA.blockId i b hb
    exact ⟨this.1, by show b.permit < s.nextPermit + 1; omega⟩

variable {x : PermitState Key}

/-- `~permit_state`: the last owner is gone. -/
theorem accounts_destroy (hp : s.permits.lookup p = some x)
    (he : s.Expired p) : Accounts { s with permits := s.permits.erase p, active := s.active - 1 } := by
  have hsize := Table.size_of_lookup hp
  have hact := hA.active
  have hzero : x.temporary = 0 :=
    (hA.permitTemporary p x hp).trans (temporaryCharge_of_expired hp he)
  refine { hA with
    permitTemporary := fun p' y hy => ?_
    permitLimits := fun p' y hy => ?_
    temporary := ?_
    active := ?_
    active_le := ?_
    blockPermit := fun i b hb hold => ?_
    permitUnit := fun p' y hy he' => ?_
    permitId := fun p' y hy => ?_ }
  · exact hA.permitTemporary p' y (Table.lookup_of_erase hy).2
  · exact hA.permitLimits p' y (Table.lookup_of_erase hy).2
  · refine hA.temporary.trans ?_
    rw [Table.total_of_lookup hp, hzero, Nat.zero_add]
  · show s.active - 1 = Table.size (s.permits.erase p)
    omega
  · have := hA.active_le
    show s.active - 1 ≤ s.permitLimit
    omega
  · obtain ⟨y, hy, hkey⟩ := hA.blockPermit i b hb hold
    refine ⟨y, ?_, hkey⟩
    rw [Table.lookup_erase_eq, if_neg]
    · exact hy
    · intro hbp
      exact not_expired_of_holds (s := s) hb hold hy (hbp ▸ he)
  · have hy0 := (Table.lookup_of_erase hy).2
    exact hA.permitUnit p' y hy0 (not_expired_mono hy0 hy id le_rfl he')
  · exact hA.permitId p' y (Table.lookup_of_erase hy).2

/-! ## Blocks -/

theorem newBlock_fresh : s.blocks.lookup s.nextBlock = none := by
  by_contra hne
  obtain ⟨b, hb⟩ := Option.ne_none_iff_exists'.mp hne
  exact lt_irrefl _ (hA.blockId _ b hb).1

theorem sumBlocks_new (f : Block Key → ℕ) (b : Block Key) :
    Table.total (fun _ b => f b) (s.blocks.insert s.nextBlock b) = f b + s.sumBlocks f :=
  Table.total_insert_new (newBlock_fresh hA)

variable {b : Block Key}

/-- A new owner of a permit that has one. -/
theorem not_expired_new {s' : Ledger Key} (he : ¬s.Expired b.permit)
    (hb : s'.blocks = s.blocks.insert s.nextBlock b) {y : PermitState Key} {y' : PermitState Key}
    (hy : s.permits.lookup p = some y) (hy' : s'.permits.lookup p = some y')
    (hh : y'.handle = y.handle) (he' : ¬s'.Expired p) : ¬s.Expired p := by
  by_cases hp : p = b.permit
  · rw [hp]
    exact he
  · refine not_expired_mono hy hy' (by rw [hh]; exact id) (le_of_eq ?_) he'
    unfold holders
    rw [hb, Table.total_insert_new (newBlock_fresh hA), if_neg (by rintro ⟨h, -⟩; exact hp h.symm),
      Nat.zero_add]

/-- A retained block is charged to its unit and the ledger. -/
theorem accounts_chargeRetained {u : UnitAccount} (hp : s.permits.lookup p = some x)
    (hk : s.units.lookup x.key = some u) (hpos : 0 < charge)
    (hu : charge ≤ u.retainedLimit - u.retained) (hl : charge ≤ s.retainedLimit - s.retained)
    (he : ¬s.Expired p) :
    Accounts { s with
      units := s.units.insert x.key { u with retained := u.retained + charge }
      retained := s.retained + charge
      blocks := s.blocks.insert s.nextBlock { permit := p, key := x.key, charge, retained := true }
      nextBlock := s.nextBlock + 1 } := by
  have hulimit := hA.unitLimit _ u hk
  have hrlimit := hA.retained_le
  refine { hA with
    unitRetained := fun k' u' hu' => ?_
    unitLimit := Table.forall_lookup_insert (show u.retained + charge ≤ u.retainedLimit by omega)
      hA.unitLimit
    retained := ?_
    retained_le := ?_
    permitTemporary := fun p' y hy => ?_
    temporary := ?_
    registered := ?_
    blockUnit := fun i b hb hpos => ?_
    blockPermit := Table.forall_lookup_insert (fun _ => ⟨x, hp, rfl⟩) hA.blockPermit
    blockCharge := Table.forall_lookup_insert (fun _ => hpos) hA.blockCharge
    permitUnit := fun p' y hy he' => ?_
    unitPermitId := fun k' u' p' => Table.forall_lookup_insert (hA.unitPermitId _ u p' hk)
      (hA.unitPermitId · · p') k' u'
    blockId := Table.forall_lookup_insert ⟨Nat.lt_succ_self _, hA.permitId p x hp⟩
      fun i b hb => (hA.blockId i b hb).imp_left Nat.lt_succ_of_lt }
  · refine Eq.trans ?_ (sumBlocks_new hA (Block.unitCharge k') _).symm
    rcases Table.lookup_insert_cases hu' with ⟨rfl, rfl⟩ | ⟨hne, hu0⟩
    · have hval : Block.unitCharge x.key
          { permit := p, key := x.key, charge, retained := true } = charge := by
        simp [Block.unitCharge, Block.retainedCharge, Block.charged]
      rw [hval, ← hA.unitRetained _ u hk]
      exact Nat.add_comm _ _
    · have hval : Block.unitCharge k'
          { permit := p, key := x.key, charge, retained := true } = 0 := by
        simp [Block.unitCharge, Ne.symm hne]
      rw [hval, ← hA.unitRetained k' u' hu0, Nat.zero_add]
  · refine Eq.trans ?_ (sumBlocks_new hA Block.retainedCharge _).symm
    rw [← hA.retained]
    simp [Block.retainedCharge, Block.charged, Nat.add_comm]
  · show s.retained + charge ≤ s.retainedLimit
    omega
  · refine Eq.trans ?_ (sumBlocks_new hA (Block.permitCharge p') _).symm
    rw [← hA.permitTemporary p' y hy]
    simp [Block.permitCharge, Block.temporaryCharge]
  · refine (sumBlocks_new hA Block.temporaryCharge _).trans ?_
    rw [hA.temporary]
    simp [Block.temporaryCharge]
  · exact hA.registered.trans (Table.total_insert_same hk rfl).symm
  · refine Table.isSome_lookup_insert ?_
    rcases Table.lookup_insert_cases hb with ⟨-, rfl⟩ | ⟨-, hb0⟩
    · exact hk ▸ rfl
    · exact hA.blockUnit i b hb0 hpos
  · exact Table.exists_lookup_insert hk id
      (hA.permitUnit p' y hy (not_expired_new hA he rfl hy hy rfl he'))

/-- A temporary block is charged to its permit. -/
theorem accounts_chargeTemporary (hp : s.permits.lookup p = some x) (hpos : 0 < charge)
    (hl : charge ≤ x.temporaryLimit - x.temporary) (he : ¬s.Expired p) :
    Accounts { s with
      permits := s.permits.insert p { x with temporary := x.temporary + charge }
      blocks := s.blocks.insert s.nextBlock { permit := p, key := x.key, charge, retained := false }
      nextBlock := s.nextBlock + 1 } := by
  have hlimits := hA.permitLimits p x hp
  refine { hA with
    unitRetained := fun k' u' hu' => ?_
    retained := ?_
    permitTemporary := fun p' y hy => ?_
    permitLimits := Table.forall_lookup_insert
      ⟨by show x.temporary + charge ≤ x.temporaryLimit; omega, hlimits.2⟩ hA.permitLimits
    temporary := ?_
    active := ?_
    blockUnit := Table.forall_lookup_insert (by simp [Block.retainedCharge]) hA.blockUnit
    blockPermit := fun i b hb hold => ?_
    blockCharge := Table.forall_lookup_insert (fun _ => hpos) hA.blockCharge
    permitUnit := fun p' y hy he' => ?_
    permitId := Table.forall_lookup_insert (hA.permitId _ x hp) hA.permitId
    blockId := Table.forall_lookup_insert ⟨Nat.lt_succ_self _, hA.permitId p x hp⟩
      fun i b hb => (hA.blockId i b hb).imp_left Nat.lt_succ_of_lt }
  · refine Eq.trans ?_ (sumBlocks_new hA (Block.unitCharge k') _).symm
    rw [← hA.unitRetained k' u' hu']
    simp [Block.unitCharge, Block.retainedCharge]
  · refine Eq.trans ?_ (sumBlocks_new hA Block.retainedCharge _).symm
    rw [← hA.retained]
    simp [Block.retainedCharge]
  · refine Eq.trans ?_ (sumBlocks_new hA (Block.permitCharge p') _).symm
    rcases Table.lookup_insert_cases hy with ⟨rfl, rfl⟩ | ⟨hne, hy0⟩
    · have hval : Block.permitCharge p'
          { permit := p', key := x.key, charge, retained := false } = charge := by
        simp [Block.permitCharge, Block.temporaryCharge, Block.charged]
      rw [hval, ← hA.permitTemporary p' x hp]
      exact Nat.add_comm _ _
    · have hval : Block.permitCharge p'
          { permit := p, key := x.key, charge, retained := false } = 0 := by
        simp [Block.permitCharge, Ne.symm hne]
      rw [hval, ← hA.permitTemporary p' y hy0, Nat.zero_add]
  · refine (sumBlocks_new hA Block.temporaryCharge _).trans ?_
    have hsum := Table.total_insert_old (f := fun _ (y : PermitState Key) => y.temporary)
      (v := { x with temporary := x.temporary + charge }) hp
    dsimp only at hsum
    have hval : Block.temporaryCharge
        ({ permit := p, key := x.key, charge, retained := false } : Block Key) = charge := by
      simp [Block.temporaryCharge, Block.charged]
    rw [hval, hA.temporary]
    show _ = Table.total _ (s.permits.insert p _)
    omega
  · exact hA.active.trans (Table.size_insert_old hp).symm
  · refine Table.exists_lookup_insert hp id ?_
    rcases Table.lookup_insert_cases hb with ⟨-, rfl⟩ | ⟨-, hb0⟩
    · exact ⟨x, hp, rfl⟩
    · exact hA.blockPermit i b hb0 hold
  · rcases Table.lookup_insert_cases hy with ⟨rfl, rfl⟩ | ⟨-, hy0⟩
    · exact hA.permitUnit p' x hp he
    · exact hA.permitUnit p' y hy0 (not_expired_new hA he rfl hy0 hy rfl he')

/-- The frame of `allocate_impl` becomes an owner of the permit. -/
theorem accounts_lock (hp : s.permits.lookup p = some x) (he : ¬s.Expired p) :
    Accounts { s with
      blocks := s.blocks.insert s.nextBlock
        { permit := p, key := x.key, charge := 0, retained := false, stage := .freed }
      nextBlock := s.nextBlock + 1 } := by
  have hsum : ∀ f : Block Key → ℕ,
      f { permit := p, key := x.key, charge := 0, retained := false, stage := .freed } = 0 →
      Table.total (fun _ b => f b) (s.blocks.insert s.nextBlock
        { permit := p, key := x.key, charge := 0, retained := false, stage := .freed }) =
        s.sumBlocks f := by
    intro f hf
    rw [sumBlocks_new hA f, hf, Nat.zero_add]
  refine { hA with
    unitRetained := fun k u hu => (hA.unitRetained k u hu).trans (hsum _ ?_).symm
    retained := hA.retained.trans (hsum _ ?_).symm
    permitTemporary := fun p' y hy => (hA.permitTemporary p' y hy).trans (hsum _ ?_).symm
    temporary := (hsum _ ?_).trans hA.temporary
    blockUnit := Table.forall_lookup_insert (by simp [Block.retainedCharge]) hA.blockUnit
    blockPermit := Table.forall_lookup_insert (fun _ => ⟨x, hp, rfl⟩) hA.blockPermit
    blockCharge := Table.forall_lookup_insert (fun hf => absurd rfl hf) hA.blockCharge
    permitUnit := fun p' y hy he' => ?_
    blockId := Table.forall_lookup_insert ⟨Nat.lt_succ_self _, hA.permitId p x hp⟩
      fun i b hb => (hA.blockId i b hb).imp_left Nat.lt_succ_of_lt }
  · simp [Block.unitCharge, Block.retainedCharge]
  · simp [Block.retainedCharge]
  · simp [Block.permitCharge, Block.temporaryCharge, Block.charged]
  · simp [Block.temporaryCharge, Block.charged]
  · exact hA.permitUnit p' y hy (not_expired_new hA he rfl hy hy rfl he')

omit hA [DecidableEq Key] in
theorem holders_insert_le {b c : Block Key} (hb : s.blocks.lookup i = some b)
    (hp : c.permit = b.permit) (hh : c.Holds → b.Holds) (p : ℕ) :
    Table.total (fun _ b => if b.permit = p ∧ Block.Holds b then 1 else 0) (s.blocks.insert i c) ≤
      s.holders p := by
  have hsum := Table.total_insert_old
    (f := fun _ b => if b.permit = p ∧ Block.Holds b then 1 else 0) (v := c) hb
  unfold holders
  by_cases hx : c.permit = p ∧ c.Holds
  · have hy : b.permit = p ∧ b.Holds := ⟨hp ▸ hx.1, hh hx.2⟩
    simp only [hx, hy, and_self, if_true] at hsum
    omega
  · simp only [hx, if_false] at hsum
    omega

/-- The backing has answered: the allocation becomes a block. -/
theorem accounts_allocated (hb : s.blocks.lookup i = some b)
    (hs : b.stage = .pending) : Accounts (s.setBlock i { b with stage := .live }) := by
  have hcharged : Block.charged { b with stage := .live } = b.charged := by
    simp [Block.charged, hs]
  have hret : Block.retainedCharge { b with stage := .live } = b.retainedCharge := by
    unfold Block.retainedCharge
    rw [hcharged]
  have htmp : Block.temporaryCharge { b with stage := .live } = b.temporaryCharge := by
    unfold Block.temporaryCharge
    rw [hcharged]
  have hhold : Block.Holds { b with stage := .live } → b.Holds := by
    intro _
    exact Or.inl (by rw [hs]; simp)
  have hsame : ∀ f : Block Key → ℕ, f { b with stage := .live } = f b →
      Table.total (fun _ b => f b) (s.blocks.insert i { b with stage := .live }) = s.sumBlocks f :=
    fun f hf => Table.total_insert_same hb hf
  refine { hA with
    unitRetained := fun k u hu => ?_
    retained := ?_
    permitTemporary := fun p x hx => ?_
    temporary := ?_
    blockUnit := Table.forall_lookup_insert (fun hpos => hA.blockUnit i b hb (hret ▸ hpos))
      hA.blockUnit
    blockPermit := Table.forall_lookup_insert (fun hold => hA.blockPermit i b hb (hhold hold))
      hA.blockPermit
    blockCharge := Table.forall_lookup_insert (fun _ => hA.blockCharge i b hb (by simp [hs]))
      hA.blockCharge
    permitUnit := fun p x hx he => ?_
    blockId := Table.forall_lookup_insert (hA.blockId _ b hb) hA.blockId }
  · refine (hA.unitRetained k u hu).trans (hsame _ ?_).symm
    unfold Block.unitCharge
    rw [hret]
  · exact hA.retained.trans (hsame _ hret).symm
  · refine (hA.permitTemporary p x hx).trans (hsame _ ?_).symm
    unfold Block.permitCharge
    rw [htmp]
  · exact (hsame _ htmp).trans hA.temporary
  · have hmono := holders_insert_le (c := { b with stage := .live }) hb rfl hhold p
    exact hA.permitUnit p x hx (not_expired_mono hx hx id hmono he)

/-- A temporary block, or an allocation of one that failed, gives its charge
    back to its permit. -/
theorem accounts_freeTemporary (hb : s.blocks.lookup i = some b) (hs : b.stage ≠ .freed)
    (hr : b.retained = false) : Accounts ((s.refund b).setBlock i { b with stage := .freed }) := by
  have hold : b.Holds := Or.inr hr
  obtain ⟨x, hx, hkey⟩ := hA.blockPermit i b hb hold
  have hrefund : s.refund b = s.setPermit b.permit { x with temporary := x.temporary - b.charge } := by
    simp [refund, hr, hx]
  rw [hrefund]
  have hval : b.temporaryCharge = b.charge := by simp [Block.temporaryCharge, Block.charged, hr, hs]
  have hfreed : Block.temporaryCharge { b with stage := .freed } = 0 := by
    simp [Block.temporaryCharge, Block.charged]
  have hrfreed : Block.retainedCharge { b with stage := .freed } = 0 := by
    simp [Block.retainedCharge, hr]
  have hrval : b.retainedCharge = 0 := by simp [Block.retainedCharge, hr]
  have hle : b.charge ≤ x.temporary := by
    rw [hA.permitTemporary _ x hx, ← hval]
    refine le_trans (le_of_eq ?_) (Table.le_total hb)
    simp [Block.permitCharge]
  have hblocks : ∀ f : Block Key → ℕ,
      Table.total (fun _ b => f b) (s.blocks.insert i { b with stage := .freed }) + f b =
        s.sumBlocks f + f { b with stage := .freed } :=
    fun f => Table.total_insert_old hb
  refine { hA with
    unitRetained := fun k u hu => ?_
    retained := ?_
    permitTemporary := fun p y hy => ?_
    permitLimits := Table.forall_lookup_insert
      ((hA.permitLimits _ x hx).imp_left (Nat.sub_le ..).trans) hA.permitLimits
    temporary := ?_
    active := ?_
    blockUnit := Table.forall_lookup_insert (by simp [hrfreed]) hA.blockUnit
    blockPermit := fun i' b' hb' hold' => ?_
    blockCharge := Table.forall_lookup_insert (fun hf => absurd rfl hf) hA.blockCharge
    permitUnit := fun p y hy he => ?_
    permitId := Table.forall_lookup_insert (hA.permitId _ x hx) hA.permitId
    blockId := Table.forall_lookup_insert (hA.blockId _ b hb) hA.blockId }
  · have := hblocks (Block.unitCharge k)
    have h1 : Block.unitCharge k b = 0 := by simp [Block.unitCharge, hrval]
    have h2 : Block.unitCharge k { b with stage := .freed } = 0 := by
      simp [Block.unitCharge, hrfreed]
    rw [h1, h2] at this
    exact (hA.unitRetained k u hu).trans this.symm
  · have := hblocks Block.retainedCharge
    rw [hrval, hrfreed] at this
    exact hA.retained.trans this.symm
  · have hsum := hblocks (Block.permitCharge p)
    rcases Table.lookup_insert_cases hy with ⟨rfl, rfl⟩ | ⟨hne, hy0⟩
    · have h1 : Block.permitCharge b.permit b = b.charge := by simp [Block.permitCharge, hval]
      have h2 : Block.permitCharge b.permit { b with stage := .freed } = 0 := by
        simp [Block.permitCharge, hfreed]
      have h3 := hA.permitTemporary _ x hx
      rw [h1, h2, ← h3] at hsum
      show x.temporary - b.charge = Table.total _ (s.blocks.insert i _)
      omega
    · have h1 : Block.permitCharge p b = 0 := by simp [Block.permitCharge, Ne.symm hne]
      have h2 : Block.permitCharge p { b with stage := .freed } = 0 := by
        simp [Block.permitCharge, Ne.symm hne]
      rw [h1, h2] at hsum
      exact (hA.permitTemporary p y hy0).trans hsum.symm
  · have hsum := hblocks Block.temporaryCharge
    have hperm := Table.total_insert_old (f := fun _ (y : PermitState Key) => y.temporary)
      (v := { x with temporary := x.temporary - b.charge }) hx
    dsimp only at hperm
    rw [hval, hfreed, hA.temporary] at hsum
    show Table.total _ (s.blocks.insert i _) = Table.total _ (s.permits.insert b.permit _)
    omega
  · exact hA.active.trans (Table.size_insert_old hx).symm
  · refine Table.exists_lookup_insert hx id ?_
    rcases Table.lookup_insert_cases hb' with ⟨-, rfl⟩ | ⟨-, hb0⟩
    · exact ⟨x, hx, hkey⟩
    · exact hA.blockPermit i' b' hb0 hold'
  · have hmono := holders_insert_le (c := { b with stage := .freed }) hb rfl (fun _ => hold) p
    rcases Table.lookup_insert_cases hy with ⟨rfl, rfl⟩ | ⟨-, hy0⟩
    · exact hA.permitUnit _ x hx (not_expired_mono hx hy id hmono he)
    · exact hA.permitUnit p y hy0 (not_expired_mono hy0 hy id hmono he)

/-- The unit of a retained charge is there. -/
theorem Accounts.unit_of_retained (hb : s.blocks.lookup i = some b) (hs : b.stage ≠ .freed)
    (hr : b.retained = true) : ∃ u, s.units.lookup b.key = some u := by
  have hval : b.retainedCharge = b.charge := by simp [Block.retainedCharge, Block.charged, hr, hs]
  have hpos := hA.blockCharge i b hb hs
  exact Option.isSome_iff_exists.mp (hA.blockUnit i b hb (hval ▸ hpos))

/-- A retained block gives its charge back to its unit and the ledger, and is
    freed or gone. -/
theorem accounts_freeRetained {t : Table ℕ (Block Key)}
    (hb : s.blocks.lookup i = some b) (hs : b.stage ≠ .freed) (hr : b.retained = true)
    (hsum : ∀ f : Block Key → ℕ, f { b with stage := .freed } = 0 →
      Table.total (fun _ b => f b) t + f b = s.sumBlocks f)
    (hlook : ∀ i' b', t.lookup i' = some b' →
      i' = i ∧ b' = { b with stage := .freed } ∨ s.blocks.lookup i' = some b')
    (hhold : Block.Holds { b with stage := .freed } → t.lookup i = some { b with stage := .freed } →
      b.Holds)
    (hmono : ∀ p, Table.total (fun _ b => if b.permit = p ∧ Block.Holds b then 1 else 0) t ≤
      s.holders p) :
    Accounts { s.refund b with blocks := t } := by
  have hval : b.retainedCharge = b.charge := by simp [Block.retainedCharge, Block.charged, hr, hs]
  have hrfreed : Block.retainedCharge { b with stage := .freed } = 0 := by
    simp [Block.retainedCharge, Block.charged]
  have htfreed : Block.temporaryCharge { b with stage := .freed } = 0 := by
    simp [Block.temporaryCharge, Block.charged]
  have htval : b.temporaryCharge = 0 := by simp [Block.temporaryCharge, hr]
  obtain ⟨u, hu⟩ := hA.unit_of_retained hb hs hr
  have hrefund : s.refund b = { s.setUnit b.key { u with retained := u.retained - b.charge } with
      retained := s.retained - b.charge } := by
    simp [refund, hr, hu]
  rw [hrefund]
  have hle : b.charge ≤ u.retained := by
    rw [hA.unitRetained _ u hu, ← hval]
    refine le_trans (le_of_eq ?_) (Table.le_total hb)
    simp [Block.unitCharge]
  refine { hA with
    unitRetained := fun k u' hu' => ?_
    unitLimit := Table.forall_lookup_insert ((Nat.sub_le ..).trans (hA.unitLimit _ u hu)) hA.unitLimit
    retained := ?_
    retained_le := ?_
    permitTemporary := fun p x hx => ?_
    temporary := ?_
    registered := ?_
    blockUnit := fun i' b' hb' hpos => ?_
    blockPermit := fun i' b' hb' hold' => ?_
    blockCharge := fun i' b' hb' hf => ?_
    permitUnit := fun p x hx he => ?_
    unitPermitId := fun k' u' p => Table.forall_lookup_insert (hA.unitPermitId _ u p hu)
      (hA.unitPermitId · · p) k' u'
    blockId := fun i' b' hb' => ?_ }
  · have htotal := hsum (Block.unitCharge k) (by simp [Block.unitCharge, hrfreed])
    rcases Table.lookup_insert_cases hu' with ⟨rfl, rfl⟩ | ⟨hne, hu0⟩
    · have h1 : Block.unitCharge b.key b = b.charge := by simp [Block.unitCharge, hval]
      rw [h1, ← hA.unitRetained _ u hu] at htotal
      show u.retained - b.charge = Table.total _ t
      omega
    · have h1 : Block.unitCharge k b = 0 := by simp [Block.unitCharge, Ne.symm hne]
      rw [h1] at htotal
      exact (hA.unitRetained k u' hu0).trans htotal.symm
  · have htotal := hsum Block.retainedCharge hrfreed
    rw [hval, ← hA.retained] at htotal
    show s.retained - b.charge = Table.total _ t
    omega
  · have := hA.retained_le
    show s.retained - b.charge ≤ s.retainedLimit
    omega
  · have htotal := hsum (Block.permitCharge p) (by simp [Block.permitCharge, htfreed])
    have h1 : Block.permitCharge p b = 0 := by simp [Block.permitCharge, htval]
    rw [h1] at htotal
    exact (hA.permitTemporary p x hx).trans htotal.symm
  · have htotal := hsum Block.temporaryCharge htfreed
    rw [htval] at htotal
    exact htotal.trans hA.temporary
  · exact hA.registered.trans (Table.total_insert_same hu rfl).symm
  · refine Table.isSome_lookup_insert ?_
    rcases hlook i' b' hb' with ⟨-, rfl⟩ | hb0
    · rw [hrfreed] at hpos
      cases hpos
    · exact hA.blockUnit i' b' hb0 hpos
  · rcases hlook i' b' hb' with ⟨rfl, rfl⟩ | hb0
    · exact hA.blockPermit _ b hb (hhold hold' hb')
    · exact hA.blockPermit i' b' hb0 hold'
  · rcases hlook i' b' hb' with ⟨-, rfl⟩ | hb0
    · exact absurd rfl hf
    · exact hA.blockCharge i' b' hb0 hf
  · exact Table.exists_lookup_insert hu id
      (hA.permitUnit p x hx (not_expired_mono hx hx id (hmono p) he))
  · rcases hlook i' b' hb' with ⟨rfl, rfl⟩ | hb0
    · exact hA.blockId _ b hb
    · exact hA.blockId i' b' hb0

/-- The owner of a block that has given its charge back ends. -/
theorem accounts_dropBlock (hb : s.blocks.lookup i = some b)
    (hs : b.stage = .freed) : Accounts { s with blocks := s.blocks.erase i } := by
  have hsum : ∀ f : Block Key → ℕ, f b = 0 →
      Table.total (fun _ b => f b) (s.blocks.erase i) = s.sumBlocks f := by
    intro f hf
    have := Table.total_of_lookup (f := fun _ b => f b) hb
    unfold sumBlocks
    omega
  have hret : b.retainedCharge = 0 := by simp [Block.retainedCharge, Block.charged, hs]
  have htmp : b.temporaryCharge = 0 := by simp [Block.temporaryCharge, Block.charged, hs]
  refine { hA with
    unitRetained := fun k u hu => (hA.unitRetained k u hu).trans (hsum _ ?_).symm
    retained := hA.retained.trans (hsum _ hret).symm
    permitTemporary := fun p x hx => (hA.permitTemporary p x hx).trans (hsum _ ?_).symm
    temporary := (hsum _ htmp).trans hA.temporary
    blockUnit := fun i' b' hb' => hA.blockUnit i' b' (Table.lookup_of_erase hb').2
    blockPermit := fun i' b' hb' => hA.blockPermit i' b' (Table.lookup_of_erase hb').2
    blockCharge := fun i' b' hb' => hA.blockCharge i' b' (Table.lookup_of_erase hb').2
    permitUnit := fun p x hx he => ?_
    blockId := fun i' b' hb' => hA.blockId i' b' (Table.lookup_of_erase hb').2 }
  · simp [Block.unitCharge, hret]
  · simp [Block.permitCharge, htmp]
  · refine hA.permitUnit p x hx (not_expired_mono hx hx id ?_ he)
    have := Table.total_of_lookup
      (f := fun _ b => if b.permit = p ∧ Block.Holds b then 1 else 0) hb
    show Table.total _ (s.blocks.erase i) ≤ Table.total _ s.blocks
    omega

end Effects

/-! ## Every step keeps the accounts -/

theorem refund_blocks (s : Ledger Key) (b : Block Key) : (s.refund b).blocks = s.blocks := by
  unfold refund
  split_ifs <;> split <;> rfl

section Step

variable {s s' : Ledger Key} (hA : Accounts s)
include hA

theorem accounts_registerUnit {k : Key} {limit : ℕ}
    (h : s.registerUnit chargeSize k limit = some s') : Accounts s' ∧
      s'.active = s.active ∧ s'.w = s.w ∧ s'.permitLimit = s.permitLimit ∧
      ∀ u, s'.units.lookup k = some u → u.permit = none := by
  unfold registerUnit at h
  split at h
  · cases h
  rename_i charge _
  split at h
  · cases h
  rename_i hnew
  split at h
  · cases h
  cases h
  refine ⟨accounts_newUnit hA (by simpa using hnew) (by omega), rfl, rfl, rfl, ?_⟩
  intro u hu
  simp only [Table.lookup_insert_eq, if_true, Option.some.injEq] at hu
  rw [← hu]

theorem accounts_startAllocation {p bytes : ℕ} {x : PermitState Key} {retained : Bool}
    (hp : s.permits.lookup p = some x) (he : ¬s.Expired p) :
    Accounts (s.startAllocation chargeSize p x bytes retained) := by
  obtain ⟨u, hu, -⟩ := hA.permitUnit p x hp he
  unfold startAllocation
  split
  · exact hA
  rename_i hopen
  have hbytes : bytes ≠ 0 := fun h => hopen (Or.inr (Or.inr h))
  simp only [hu]
  split
  · exact { hA with }
  cases retained with
  | true =>
    simp only [if_true]
    split
    · exact { hA with }
    · exact accounts_chargeRetained hA hp hu (by omega) (by omega) (by omega) he
  | false =>
    simp only [Bool.false_eq_true, if_false]
    split
    · exact { hA with }
    · exact accounts_chargeTemporary hA hp (by omega) (by omega) he

/-- An allocation that failed keeps owning its permit. -/
theorem accounts_fail {i : ℕ} {b : Block Key} (hb : s.blocks.lookup i = some b)
    (hs : b.stage = .pending) :
    Accounts ((s.refund b).setBlock i { b with stage := .freed }) := by
  by_cases hr : b.retained = true
  · have hhold : b.Holds := Or.inl (by simp [hs])
    rw [setBlock, refund_blocks]
    refine accounts_freeRetained hA hb (by simp [hs]) hr ?_ ?_ (fun _ _ => hhold) ?_
    · intro f hf
      have := Table.total_insert_old (f := fun _ b => f b) (v := { b with stage := .freed }) hb
      rw [hf] at this
      exact this
    · intro i' b' hb'
      exact (Table.lookup_insert_cases hb').imp_right And.right
    · exact holders_insert_le hb rfl (fun _ => hhold)
  · exact accounts_freeTemporary hA hb (by simp [hs]) (by simpa using hr)

/-- A retained block is released: its permit may be gone. -/
theorem accounts_releaseRetained {i : ℕ} {b : Block Key} (hb : s.blocks.lookup i = some b)
    (hs : b.stage = .live) (hr : b.retained = true) :
    Accounts { s.refund b with blocks := s.blocks.erase i } := by
  refine accounts_freeRetained hA hb (by simp [hs]) hr ?_ ?_ ?_ ?_
  · intro f _
    have := Table.total_of_lookup (f := fun _ b => f b) hb
    unfold sumBlocks
    omega
  · intro i' b' hb'
    exact Or.inr (Table.lookup_of_erase hb').2
  · intro _ hb'
    exact absurd rfl (Table.lookup_of_erase hb').1
  · intro p
    have := Table.total_of_lookup
      (f := fun _ b => if b.permit = p ∧ Block.Holds b then 1 else 0) hb
    unfold holders
    omega

theorem accounts_step {a : Action Key} (h : step chargeSize s a = some s') : Accounts s' := by
  cases a with
  | registerUnit k limit =>
    simp only [step] at h
    split at h
    · cases h
      exact hA
    · cases h
      cases hreg : s.registerUnit chargeSize k limit with
      | none => exact hA
      | some s1 => exact (accounts_registerUnit hA hreg).1
  | retireUnit k =>
    simp only [step] at h
    split at h
    · cases h
      exact hA
    · rename_i u hu
      cases h
      exact accounts_eraseRetired (accounts_retire hA hu) k
  | acquirePermit k =>
    simp only [step] at h
    split at h
    · cases h
      exact hA
    rename_i hopen
    split at h
    · cases h
      exact hA
    rename_i u hu
    split at h
    · cases h
      exact hA
    rename_i hexp
    push Not at hopen hexp
    cases h
    exact accounts_attach hA hu hexp.2 le_rfl hopen.2
  | tryAcquireUnit k limit temporaryLimit =>
    simp only [step] at h
    split at h
    · cases h
      exact hA
    rename_i hopen
    push Not at hopen
    split at h
    · cases h
      exact hA
    rename_i s1 hreg
    obtain ⟨hA1, hact, hw, hlim, hnone⟩ := accounts_registerUnit hA hreg
    split at h
    · cases h
      exact hA1
    rename_i u hu
    cases h
    refine accounts_attach hA1 hu ?_ (hw ▸ hopen.2.2) (by rw [hact, hlim]; exact hopen.2.1)
    rw [hnone u hu]
    intro p hp
    cases hp
  | stopPermit p =>
    simp only [step] at h
    split at h
    · rename_i x hx
      split at h
      · cases h
        exact accounts_setPermit hA hx rfl rfl rfl id
      · cases h
    · cases h
  | dropPermit p =>
    simp only [step] at h
    split at h
    · rename_i x hx
      split at h
      · cases h
        exact accounts_setPermit hA hx rfl rfl rfl (by simp)
      · cases h
    · cases h
  | destroyPermit p =>
    simp only [step] at h
    split at h
    · rename_i x hx
      split at h
      · rename_i he
        cases h
        exact accounts_eraseRetired (accounts_destroy hA hx he) x.key
      · cases h
    · cases h
  | lockPermit p =>
    simp only [step] at h
    split at h
    · rename_i x hx
      split at h
      · cases h
        exact hA
      · rename_i he
        cases h
        exact accounts_lock hA hx he
    · cases h
      exact hA
  | allocate p bytes retained =>
    simp only [step] at h
    split at h
    · rename_i x hx
      split at h
      · cases h
        exact hA
      · rename_i he
        cases h
        exact accounts_startAllocation hA hx he
    · cases h
      exact hA
  | allocated i ok =>
    simp only [step] at h
    split at h
    · rename_i b hb
      split at h
      · rename_i hs
        split at h
        · cases h
          exact accounts_allocated hA hb hs
        · cases h
          exact { accounts_fail hA hb hs with }
      · cases h
    · cases h
  | releaseBlock i =>
    simp only [step] at h
    split at h
    · rename_i b hb
      split at h
      · rename_i hs
        split at h
        · rename_i hr
          cases h
          exact accounts_eraseRetired (accounts_releaseRetained hA hb hs hr) b.key
        · rename_i hr
          cases h
          exact accounts_freeTemporary hA hb (by simp [hs]) (by simpa using hr)
      · cases h
    · cases h
  | dropBlock i =>
    simp only [step] at h
    split at h
    · rename_i b hb
      split at h
      · rename_i hs
        cases h
        exact accounts_dropBlock hA hb hs
      · cases h
    · cases h
  | close =>
    cases h
    exact { hA with }

end Step

/-! ## The limits of admission stay -/

/-- What admission fixed. -/
def limits (s : Ledger Key) : Option ℕ × ℕ × ℕ × ℕ :=
  (s.grant, s.retainedLimit, s.w, s.permitLimit)

theorem eraseRetired_limits (s : Ledger Key) (k : Key) : (s.eraseRetired k).limits = s.limits := by
  unfold eraseRetired
  split
  · split_ifs <;> rfl
  · rfl

theorem refund_limits (s : Ledger Key) (b : Block Key) : (s.refund b).limits = s.limits := by
  unfold refund
  split_ifs <;> split <;> rfl

theorem registerUnit_limits {s s' : Ledger Key} {k : Key} {limit : ℕ}
    (h : s.registerUnit chargeSize k limit = some s') : s'.limits = s.limits := by
  unfold registerUnit at h
  split at h
  · cases h
  · split_ifs at h
    cases h
    rfl

theorem startAllocation_limits (s : Ledger Key) (p bytes : ℕ) (x : PermitState Key)
    (retained : Bool) : (s.startAllocation chargeSize p x bytes retained).limits = s.limits := by
  unfold startAllocation
  split
  · rfl
  split
  · rfl
  split
  · rfl
  cases retained
  · simp only [Bool.false_eq_true, if_false]
    split <;> rfl
  · simp only [if_true]
    split <;> rfl

theorem step_limits {s s' : Ledger Key} {a : Action Key} (h : step chargeSize s a = some s') :
    s'.limits = s.limits := by
  cases a with
  | registerUnit k limit =>
    simp only [step] at h
    split at h
    · cases h
      rfl
    · cases h
      cases hreg : s.registerUnit chargeSize k limit with
      | none => rfl
      | some s1 => exact registerUnit_limits hreg
  | retireUnit k =>
    simp only [step] at h
    split at h
    · cases h
      rfl
    · cases h
      exact eraseRetired_limits _ k
  | tryAcquireUnit k limit temporaryLimit =>
    simp only [step] at h
    split at h
    · cases h
      rfl
    split at h
    · cases h
      rfl
    rename_i s1 hreg
    have hs1 := registerUnit_limits hreg
    split at h
    all_goals
      cases h
      exact hs1
  | destroyPermit p =>
    simp only [step] at h
    split at h
    · split_ifs at h
      cases h
      exact eraseRetired_limits _ _
    · cases h
  | allocate p bytes retained =>
    simp only [step] at h
    split at h
    · split_ifs at h
      · cases h
        rfl
      · cases h
        exact startAllocation_limits _ _ _ _ _
    · cases h
      rfl
  | allocated i ok =>
    simp only [step] at h
    split at h
    · split_ifs at h
      · cases h
        rfl
      · cases h
        exact refund_limits s _
    · cases h
  | releaseBlock i =>
    simp only [step] at h
    split at h
    · split_ifs at h
      · cases h
        exact (eraseRetired_limits _ _).trans (refund_limits s _)
      · cases h
        exact refund_limits s _
    · cases h
  | acquirePermit k | stopPermit p | dropPermit p | lockPermit p | dropBlock i | close =>
    simp only [step] at h
    repeat' split at h
    all_goals
      cases h
      try rfl

/-! ## Every run -/

/-- Every run after admission keeps the accounts and the limits. -/
theorem run_accounts {s0 s : Ledger Key} {as : List (Action Key)} (h0 : s0.Fresh)
    (hrun : run (step chargeSize) s0 as = some s) : Accounts s ∧ s.limits = s0.limits := by
  refine run_invariant (I := fun s => Accounts s ∧ s.limits = s0.limits) ?_
    ⟨accounts_fresh h0, rfl⟩ hrun
  intro s1 a s2 hI hstep
  exact ⟨accounts_step hI.1 hstep, (step_limits hstep).trans hI.2⟩

/-- The charges of all blocks are inside the limits. -/
theorem Accounts.charged_le {s : Ledger Key} (hA : Accounts s) :
    s.sumBlocks Block.charged ≤ s.retainedLimit + s.permitLimit * s.w := by
  have hsplit : s.sumBlocks Block.charged =
      s.sumBlocks Block.retainedCharge + s.sumBlocks Block.temporaryCharge := by
    unfold sumBlocks
    rw [← Table.total_add]
    exact Table.total_congr fun _ b _ => Block.charged_eq b
  have htmp : Table.total (fun _ x => PermitState.temporary x) s.permits ≤ s.permitLimit * s.w := by
    calc Table.total (fun _ x => PermitState.temporary x) s.permits
      _ ≤ s.permits.size * s.w := Table.total_le_mul fun p x hx =>
          (hA.permitLimits p x hx).1.trans (hA.permitLimits p x hx).2
      _ ≤ s.permitLimit * s.w := Nat.mul_le_mul_right _ (hA.active ▸ hA.active_le)
  rw [hsplit, ← hA.retained, hA.temporary]
  exact Nat.add_le_add hA.retained_le htmp

/-- No allocation is inside the backing: every charge belongs to a
    `charged_block`. -/
def Settled (s : Ledger Key) : Prop := ∀ i b, s.blocks.lookup i = some b → b.stage ≠ .pending

/-- **The charges stay inside the grant.** In every run after a successful
    admission: the charges of all blocks fit in the granted bytes; the counter of
    each permit, of each unit and of the ledger is the sum over the blocks charged
    to it; the permits are at most `n_permits`; and the retained limits of the
    units sum up to `registered`, which is at most `sigma_retained`. A block is
    charged from the section that checks its envelope on, so an allocation inside
    the backing counts; when there is none, the sums are over live blocks. -/
theorem charges_bounded {request : ℕ → ℕ → Option Grant} {admitted host : Bool}
    {quantum maxPermits : ℕ} {scans : List ScanEnvelope} {d : AdmissionDecision}
    {s0 s : Ledger Key} {as : List (Action Key)}
    (h0 : admitScans Key request admitted host quantum scans maxPermits = .ok (d, some s0))
    (hrun : run (step chargeSize) s0 as = some s) :
    s.sumBlocks Block.charged ≤ s0.grant.getD 0 ∧
      (∀ p x, s.permits.lookup p = some x → x.temporary = s.sumBlocks (Block.permitCharge p)) ∧
      (∀ k u, s.units.lookup k = some u → u.retained = s.sumBlocks (Block.unitCharge k)) ∧
      s.retained = s.sumBlocks Block.retainedCharge ∧
      s.active = s.permits.size ∧ s.active ≤ d.nPermits ∧
      s.registered = Table.total (fun _ u => u.retainedLimit) s.units ∧
      s.registered ≤ d.sigmaRetained ∧
      (s.Settled → ∀ i b, s.blocks.lookup i = some b →
        b.charged = if b.stage = .live then b.charge else 0) := by
  obtain ⟨hfresh, hret, hw, hpermits, hcover⟩ := admit_covers h0
  obtain ⟨hA, hlimits⟩ := run_accounts hfresh hrun
  simp only [limits, Prod.mk.injEq] at hlimits
  obtain ⟨-, h1, h2, h3⟩ := hlimits
  refine ⟨?_, hA.permitTemporary, hA.unitRetained, hA.retained, hA.active, ?_, hA.registered, ?_, ?_⟩
  · calc s.sumBlocks Block.charged
      _ ≤ s.retainedLimit + s.permitLimit * s.w := hA.charged_le
      _ = d.sigmaRetained + d.nPermits * d.w := by rw [h1, h2, h3, hret, hw, hpermits]
      _ ≤ s0.grant.getD 0 := hcover
  · rw [← hpermits, ← h3]
    exact hA.active_le
  · rw [← hret, ← h1]
    exact hA.registered_le
  · intro hsettled i b hb
    have := hsettled i b hb
    unfold Block.charged
    cases hs : b.stage with
    | pending => exact absurd hs this
    | live => rfl
    | freed => rfl

/-- A temporary and a retained block outlive their `w_permit`. -/
theorem charges_bounded_two_scans :
    ∃ (d : AdmissionDecision) (s0 s : Ledger ℕ),
      admitScans ℕ (fun _ bytes => some { bytes }) false true 64
        [{ units := [{ temporary := [100], retained := 10 }], qualified := true },
          { units := [{ temporary := [20] }], qualified := true }] 1 = .ok (d, some s0) ∧
      run (step (fun bytes => some ((bytes + 63) / 64 * 64))) s0
        [.tryAcquireUnit 0 10 none, .allocate 0 100 false, .allocated 0 true,
          .allocate 0 10 true, .allocated 1 true, .stopPermit 0, .dropPermit 0] = some s ∧
      s.sumBlocks Block.charged = 192 ∧ s.sumBlocks Block.charged ≤ s0.grant.getD 0 := by
  have hrun : ∃ s, run (step (fun bytes => some ((bytes + 63) / 64 * 64)))
      ({ grant := some 192, retainedLimit := 64, w := 128, permitLimit := 1 } : Ledger ℕ)
        [.tryAcquireUnit 0 10 none, .allocate 0 100 false, .allocated 0 true,
          .allocate 0 10 true, .allocated 1 true, .stopPermit 0, .dropPermit 0] = some s ∧
      s.sumBlocks Block.charged = 192 := ⟨_, rfl, by decide⟩
  obtain ⟨s, hrun, hsum⟩ := hrun
  exact ⟨_, _, s, admit_two_scans, hrun, hsum, (charges_bounded admit_two_scans hrun).1⟩

end Ledger

end Sirius.ScanManager
