import BpfVerifier.Properties.Merges
import Mathlib.Data.Set.Basic
import Mathlib.Order.Defs.PartialOrder

/-!
# Properties/Substates — the order of register states

`is_substate_of` asks for one type and, of scalars, for narrower bounds and a tnum that knows more
(`RegState.Within`).  On states whose tnums satisfy their invariant it is a preorder, along which
the values described only grow (`isSubstateOf_soundPreorder`).
-/

namespace BpfVerifier

/-! ## Registers -/

namespace RegState

/-- The bounds of one scalar lie within another's, and its tnum knows all the bits the other's does,
and knows them alike. -/
structure Within (a b : RegState) : Prop where
  umin : b.umin.toNat ≤ a.umin.toNat
  umax : a.umax.toNat ≤ b.umax.toNat
  smin : b.smin.toInt ≤ a.smin.toInt
  smax : a.smax.toInt ≤ b.smax.toInt
  mask : a.tnum.mask &&& ~~~b.tnum.mask = 0
  value : a.tnum.value &&& ~~~b.tnum.mask = b.tnum.value &&& ~~~b.tnum.mask

variable {a b c : RegState}

theorem within_of_isSubstateOf (ht : a.regType = .scalar) (h : a.isSubstateOf b = true) :
    a.Within b := by
  obtain ⟨humin, humax, hsmin, hsmax, hmask, hvalue⟩ := bounds_of_isSubstateOf ht h
  exact ⟨humin, humax, hsmin, hsmax, hmask, hvalue⟩

/-- **One type, and of scalars the one within the other.** -/
theorem isSubstateOf_iff : a.isSubstateOf b = true ↔
    a.regType = b.regType ∧ (a.regType = .scalar → a.Within b) := by
  constructor
  · intro h
    exact ⟨regType_of_isSubstateOf h, fun ht => within_of_isSubstateOf ht h⟩
  · rintro ⟨htype, hwithin⟩
    unfold isSubstateOf
    by_cases huninit : a.regType = .uninit
    · simp [huninit, ← htype]
    · by_cases hscalar : a.regType = .scalar
      · obtain ⟨humin, humax, hsmin, hsmax, hmask, hvalue⟩ := hwithin hscalar
        simp [← htype, hscalar, BitVec.ule_eq_decide, BitVec.sle_eq_decide, humin, humax, hsmin,
          hsmax, hmask, hvalue]
      · simp [← htype, huninit, hscalar]

theorem Within.refl (a : RegState) : a.Within a where
  umin := Nat.le_refl _
  umax := Nat.le_refl _
  smin := Int.le_refl _
  smax := Int.le_refl _
  mask := BitVec.and_not_self _
  value := rfl

/-- Bits known to one tnum and not to the next are not known to the one after that. -/
theorem and_not_and_not {x mask mask' : BitVec 64} (h : mask &&& ~~~mask' = 0) :
    x &&& ~~~mask &&& ~~~mask' = x &&& ~~~mask' := by
  refine BitVec.eq_of_getLsbD_eq fun i hi => ?_
  have hbit := congrArg (fun z : BitVec 64 => z.getLsbD i) h
  simp only [BitVec.getLsbD_and, BitVec.getLsbD_not, hi, decide_true, Bool.true_and,
    BitVec.ofNat_eq_ofNat, BitVec.getLsbD_zero] at hbit ⊢
  cases hm : mask.getLsbD i with
  | false => simp
  | true =>
    rw [hm, Bool.true_and] at hbit
    simp [hbit]

theorem Within.trans (hab : a.Within b) (hbc : b.Within c) : a.Within c where
  umin := Nat.le_trans hbc.umin hab.umin
  umax := Nat.le_trans hab.umax hbc.umax
  smin := Int.le_trans hbc.smin hab.smin
  smax := Int.le_trans hab.smax hbc.smax
  mask := by
    calc a.tnum.mask &&& ~~~c.tnum.mask
        = a.tnum.mask &&& ~~~b.tnum.mask &&& ~~~c.tnum.mask := (and_not_and_not hbc.mask).symm
      _ = 0 := by
        rw [hab.mask]
        exact BitVec.zero_and
  value := by
    calc a.tnum.value &&& ~~~c.tnum.mask
        = a.tnum.value &&& ~~~b.tnum.mask &&& ~~~c.tnum.mask := (and_not_and_not hbc.mask).symm
      _ = b.tnum.value &&& ~~~b.tnum.mask &&& ~~~c.tnum.mask := by rw [hab.value]
      _ = b.tnum.value &&& ~~~c.tnum.mask := and_not_and_not hbc.mask
      _ = c.tnum.value &&& ~~~c.tnum.mask := hbc.value

theorem isSubstateOf_refl (a : RegState) : a.isSubstateOf a = true :=
  isSubstateOf_iff.mpr ⟨rfl, fun _ => .refl a⟩

theorem isSubstateOf_trans (hab : a.isSubstateOf b = true) (hbc : b.isSubstateOf c = true) :
    a.isSubstateOf c = true := by
  obtain ⟨htab, hab⟩ := isSubstateOf_iff.mp hab
  obtain ⟨htbc, hbc⟩ := isSubstateOf_iff.mp hbc
  exact isSubstateOf_iff.mpr
    ⟨htab.trans htbc, fun ht => (hab ht).trans (hbc (htab.symm.trans ht))⟩

end RegState

/-! ## States -/

namespace VerifierState

theorem isSubstateOf_refl (s : VerifierState) : s.isSubstateOf s = true :=
  isSubstateOf_iff.mpr fun r => RegState.isSubstateOf_refl (s.get r)

theorem isSubstateOf_trans {s p q : VerifierState} (hsp : s.isSubstateOf p = true)
    (hpq : p.isSubstateOf q = true) : s.isSubstateOf q = true :=
  isSubstateOf_iff.mpr fun r =>
    RegState.isSubstateOf_trans (isSubstateOf_iff.mp hsp r) (isSubstateOf_iff.mp hpq r)

end VerifierState

/-- **A state whose tnums satisfy their invariant.** -/
abbrev TrackedState := { s : VerifierState // ∀ r, (s.get r).tnum.Wf }

namespace TrackedState

instance : Preorder TrackedState where
  le s p := s.1.isSubstateOf p.1 = true
  le_refl s := s.1.isSubstateOf_refl
  le_trans _ _ _ := VerifierState.isSubstateOf_trans

variable (L : Layout) (sized : ℕ → BitVec 32 → BitVec 64 → Prop) (ρ : ℕ → Val)

/-- The values a state describes of a register. -/
def values (s : TrackedState) (r : Reg) : Set Val := { v | RegMeans L sized ρ (s.1.get r) v }

/-- **A subsumed state describes no more values of any register.** -/
theorem values_subset {s p : TrackedState} (h : s ≤ p) (r : Reg) :
    s.values L sized ρ r ⊆ p.values L sized ρ r := fun _ hv =>
  hv.of_isSubstateOf (VerifierState.isSubstateOf_iff.mp h r) fun _ => p.2 r

end TrackedState

/-- **`is_substate_of` is a sound preorder.** -/
theorem isSubstateOf_soundPreorder :
    (∀ s : TrackedState, s.1.isSubstateOf s.1 = true) ∧
      (∀ s p q : TrackedState, s.1.isSubstateOf p.1 = true → p.1.isSubstateOf q.1 = true →
        s.1.isSubstateOf q.1 = true) ∧
      ∀ s p : TrackedState, s.1.isSubstateOf p.1 = true → ∀ L sized ρ r,
        s.values L sized ρ r ⊆ p.values L sized ρ r :=
  ⟨fun s => s.1.isSubstateOf_refl, fun _ _ _ => VerifierState.isSubstateOf_trans,
    fun _ _ h L sized ρ r => TrackedState.values_subset L sized ρ h r⟩

end BpfVerifier
