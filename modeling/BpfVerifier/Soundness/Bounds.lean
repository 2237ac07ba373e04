import BpfVerifier.Kverify.Branch

/-!
# Soundness/Bounds — the words a register state allows

`Bounds r x` says that the tnum and the four bounds of `r` allow the word `x`.  `refineBounds` keeps
every allowed word, and so do the two merges of the worklist, subsumption and widening — the latter
two only where a signed range that wraps is not compared with one that does not (`signedKeeps`).
-/

namespace BpfVerifier

open Word

namespace RegState

/-- The tnum and the bounds of a register allow a word. -/
structure Bounds (r : RegState) (x : BitVec 64) : Prop where
  tnum : r.tnum.Has x
  umin : r.umin.toNat ≤ x.toNat
  umax : x.toNat ≤ r.umax.toNat
  signed : Within r.smin r.smax x

variable {r r' : RegState} {x : BitVec 64}

/-! ## Introduction -/

@[simp] theorem bounds_unbounded (t : RegType) (x : BitVec 64) : (unbounded t).Bounds x where
  tnum := Tnum.has_unknown
  umin := Nat.zero_le _
  umax := by
    have := x.isLt
    simp only [unbounded, U64_MAX, BitVec.toNat_allOnes]
    omega
  signed := by
    refine Or.inl ⟨?_, ?_⟩
    · have := BitVec.le_toInt (x := x)
      rw [show (unbounded t).smin.toInt = I64_MIN.toInt from rfl,
        show I64_MIN.toInt = -2 ^ 63 by decide]
      omega
    · have := BitVec.toInt_lt (x := x)
      rw [show (unbounded t).smax.toInt = I64_MAX.toInt from rfl,
        show I64_MAX.toInt = 2 ^ 63 - 1 by decide]
      omega

theorem bounds_scalarValue (v : BitVec 64) : (scalarValue v).Bounds v where
  tnum := Tnum.has_constant.mpr rfl
  umin := Nat.le_refl _
  umax := Nat.le_refl _
  signed := Or.inl ⟨Int.le_refl _, Int.le_refl _⟩

theorem bounds_null : null.Bounds 0 where
  tnum := Tnum.has_constant.mpr rfl
  umin := Nat.le_refl _
  umax := Nat.le_refl _
  signed := Or.inl ⟨Int.le_refl _, Int.le_refl _⟩

/-- Where the unsigned bounds meet they give the word. -/
theorem Bounds.eq_of_collapse (h : r.Bounds x) (heq : r.umin = r.umax) : x = r.umin := by
  have h₁ := h.umin
  have h₂ := h.umax
  rw [← heq] at h₂
  exact BitVec.eq_of_toNat_eq (by omega)

/-! ## Tightening one bound -/

theorem Bounds.raiseUmin (h : r.Bounds x) {l : BitVec 64} (hl : l.toNat ≤ x.toNat) :
    ({ r with umin := maxU r.umin l } : RegState).Bounds x :=
  { h with umin := (toNat_maxU r.umin l).symm ▸ Nat.max_le.mpr ⟨h.umin, hl⟩ }

theorem Bounds.lowerUmax (h : r.Bounds x) {u : BitVec 64} (hu : x.toNat ≤ u.toNat) :
    ({ r with umax := minU r.umax u } : RegState).Bounds x :=
  { h with umax := (toNat_minU r.umax u).symm ▸ Nat.le_min.mpr ⟨h.umax, hu⟩ }

theorem Bounds.raiseSmin (h : r.Bounds x) {l : BitVec 64} (hl : l.toInt ≤ x.toInt) :
    ({ r with smin := maxS r.smin l } : RegState).Bounds x :=
  { h with signed := h.signed.maxS hl }

theorem Bounds.lowerSmax (h : r.Bounds x) {u : BitVec 64} (hu : x.toInt ≤ u.toInt) :
    ({ r with smax := minS r.smax u } : RegState).Bounds x :=
  { h with signed := h.signed.minS hu }

theorem Bounds.withTnum (h : r.Bounds x) {t : Tnum} (ht : t.Has x) :
    ({ r with tnum := t } : RegState).Bounds x := { h with tnum := ht }

/-! ## `refineBounds` -/

theorem Bounds.refineFromTnum (h : r.Bounds x) : r.refineFromTnum.Bounds x :=
  (h.raiseUmin h.tnum.minValue_le).lowerUmax h.tnum.le_maxValue

theorem Bounds.refineTnum (h : r.Bounds x) : r.refineTnum.Bounds x := by
  unfold RegState.refineTnum
  split
  · next heq => exact h.withTnum (Tnum.has_constant.mpr (h.eq_of_collapse heq))
  · exact h

theorem Bounds.refineSigned (h : r.Bounds x) : r.refineSigned.Bounds x := by
  unfold RegState.refineSigned
  split
  · next hle =>
    simp only [BitVec.ule_eq_decide, Bool.and_eq_true, decide_eq_true_eq] at hle
    have hmax : I64_MAX.toNat = 2 ^ 63 - 1 := by decide
    have h₁ := h.umin
    have h₂ := h.umax
    -- the unsigned range is below the sign boundary, so both orders agree on it
    have hx := toInt_eq_of_lt (x := x) (by omega)
    have hlo := toInt_eq_of_lt (x := r.umin) (by omega)
    have hhi := toInt_eq_of_lt (x := r.umax) (by omega)
    exact (h.raiseSmin (by omega)).lowerSmax (by omega)
  · exact h

theorem Bounds.refineUnsigned (h : r.Bounds x) : r.refineUnsigned.Bounds x := by
  unfold RegState.refineUnsigned
  split
  · next h₀ =>
    simp only [BitVec.sle_eq_decide, decide_eq_true_eq, BitVec.toInt_zero] at h₀
    obtain ⟨hlo, hhi⟩ := le_of_within h.signed h₀
    exact (h.raiseUmin hlo).lowerUmax hhi
  · exact h

theorem Bounds.refineCollapse (h : r.Bounds x) : r.refineCollapse.Bounds x := by
  unfold RegState.refineCollapse
  split
  · next heq =>
    have hx := h.eq_of_collapse heq
    exact
      { h with
        tnum := Tnum.has_constant.mpr hx
        signed := Or.inl (by simp only [hx, Int.le_refl, and_self]) }
  · exact h

/-- **Tightening the bounds of a register loses no word.** -/
theorem Bounds.refineBounds (h : r.Bounds x) : r.refineBounds.Bounds x :=
  h.refineFromTnum.refineTnum.refineSigned.refineUnsigned.refineCollapse

/-! ## Merges -/

/-- The signed bounds wrap: a non-negative lower and a negative upper bound. -/
def wrapped (r : RegState) : Bool := (0#64).sle r.smin && r.smax.slt 0

theorem wrapped_iff : r.wrapped = true ↔ 0 ≤ r.smin.toInt ∧ r.smax.toInt < 0 := by
  simp only [wrapped, BitVec.sle_eq_decide, BitVec.slt_eq_decide, Bool.and_eq_true,
    decide_eq_true_eq, BitVec.toInt_zero, show BitVec.toInt (0 : BitVec 64) = 0 from rfl]

/-- Comparing the signed bounds of `r` with wider ones `r'` is sound: not exactly `r` wraps, or the
wider ones are no bound at all, or the unsigned bounds of `r` vouch for them. -/
def signedKeeps (r r' : RegState) : Bool :=
  !r.wrapped || r'.wrapped || (r'.smin = I64_MIN && r'.smax = I64_MAX)
    || (r.umax.ule I64_MAX && r'.smin.sle r.umin && r.umax.sle r'.smax)

/-- Wider signed bounds keep a word where `signedKeeps` holds. -/
theorem Bounds.within (h : r.Bounds x) (hlo : r'.smin.toInt ≤ r.smin.toInt)
    (hhi : r.smax.toInt ≤ r'.smax.toInt) (hk : r.signedKeeps r' = true) :
    Within r'.smin r'.smax x := by
  simp only [signedKeeps, Bool.or_eq_true, Bool.not_eq_true', ← Bool.not_eq_true, wrapped_iff,
    Bool.and_eq_true, BitVec.sle_eq_decide, BitVec.ule_eq_decide, decide_eq_true_eq] at hk
  have hmin : I64_MIN.toInt = -2 ^ 63 := by decide
  have hmax : I64_MAX.toInt = 2 ^ 63 - 1 := by decide
  have hmaxN : I64_MAX.toNat = 2 ^ 63 - 1 := by decide
  have hxlo := BitVec.le_toInt (x := x)
  have hxhi := BitVec.toInt_lt (x := x)
  rcases hk with ((hk | hk) | ⟨hk₁, hk₂⟩) | ⟨⟨hk₁, hk₂⟩, hk₃⟩
  · rcases h.signed with ⟨h₁, h₂⟩ | ⟨h₀, hneg, -, -⟩
    · exact Or.inl ⟨by omega, by omega⟩
    · exact absurd hk (by omega)
  · rcases h.signed with ⟨h₁, h₂⟩ | ⟨h₀, hneg, h₁, h₂⟩
    · exact Or.inl ⟨by omega, by omega⟩
    · refine Or.inr ⟨hk.1, hk.2, ?_, ?_⟩
      · rcases toInt_cases r.smin with ⟨_, _⟩ | ⟨_, _, _⟩ <;>
          rcases toInt_cases r'.smin with ⟨_, _⟩ | ⟨_, _, _⟩ <;> omega
      · rcases toInt_cases r.smax with ⟨_, _⟩ | ⟨_, _, _⟩ <;>
          rcases toInt_cases r'.smax with ⟨_, _⟩ | ⟨_, _, _⟩ <;> omega
  · rw [hk₁, hk₂]
    exact Or.inl ⟨by omega, by omega⟩
  · have h₁ := h.umin
    have h₂ := h.umax
    have hx := toInt_eq_of_lt (x := x) (by omega)
    have hlo' := toInt_eq_of_lt (x := r.umin) (by omega)
    have hhi' := toInt_eq_of_lt (x := r.umax) (by omega)
    exact Or.inl ⟨by omega, by omega⟩

/-- A register is subsumed by one of its own type. -/
theorem regType_of_isSubstateOf (hs : r.isSubstateOf r' = true) : r.regType = r'.regType := by
  by_contra hne
  simp only [isSubstateOf] at hs
  split at hs
  · next hu => exact hne (hu.trans (of_decide_eq_true hs).symm)
  · simp at hs

/-- The subsuming scalar's bounds are wider. -/
theorem bounds_of_isSubstateOf (ht : r.regType = .scalar) (hs : r.isSubstateOf r' = true) :
    r'.umin.toNat ≤ r.umin.toNat ∧ r.umax.toNat ≤ r'.umax.toNat ∧
      r'.smin.toInt ≤ r.smin.toInt ∧ r.smax.toInt ≤ r'.smax.toInt ∧
      r.tnum.mask &&& ~~~r'.tnum.mask = 0 ∧
      r.tnum.value &&& ~~~r'.tnum.mask = r'.tnum.value &&& ~~~r'.tnum.mask := by
  have ht' : r'.regType = .scalar := (regType_of_isSubstateOf hs).symm.trans ht
  simp only [isSubstateOf, ht, ht', reduceCtorEq, if_false, ne_eq, not_true_eq_false, if_true,
    Bool.and_eq_true, BitVec.ule_eq_decide, BitVec.sle_eq_decide, decide_eq_true_eq] at hs
  obtain ⟨⟨⟨⟨⟨hlo, hhi⟩, hslo⟩, hshi⟩, hmask⟩, hval⟩ := hs
  exact ⟨hlo, hhi, hslo, hshi, hmask, hval⟩

/-- The subsuming tnum knows fewer bits, and knows them alike. -/
theorem has_of_isSubstateOf (h : r.tnum.Has x) (ht : r.regType = .scalar)
    (hs : r.isSubstateOf r' = true) (hw : r'.tnum.Wf) : r'.tnum.Has x := by
  obtain ⟨-, -, -, -, hmask, hval⟩ := bounds_of_isSubstateOf ht hs
  rw [Tnum.has_iff]
  intro i hi
  have hx := Tnum.has_iff.mp h i hi
  have hm := congrArg (fun z : BitVec 64 => z.getLsbD i) hmask
  have hv := congrArg (fun z : BitVec 64 => z.getLsbD i) hval
  have hw' := congrArg (fun z : BitVec 64 => z.getLsbD i) hw
  simp only [BitVec.getLsbD_and, BitVec.getLsbD_not, hi, decide_true, Bool.true_and,
    BitVec.ofNat_eq_ofNat, BitVec.getLsbD_zero] at hm hv hw'
  cases hb : r'.tnum.mask.getLsbD i <;> simp_all

/-- **A subsumed scalar's words are the subsuming one's.** -/
theorem Bounds.of_isSubstateOf (h : r.Bounds x) (ht : r.regType = .scalar)
    (hs : r.isSubstateOf r' = true) (hw : r'.tnum.Wf) (hk : r.signedKeeps r' = true) :
    r'.Bounds x := by
  obtain ⟨hlo, hhi, hslo, hshi, -, -⟩ := bounds_of_isSubstateOf ht hs
  have h₁ := h.umin
  have h₂ := h.umax
  exact ⟨has_of_isSubstateOf h.tnum ht hs hw, by omega, by omega, h.within hslo hshi hk⟩

/-- A bit the widened tnum knows is known alike on both sides. -/
theorem has_widenScalar {q : RegState} (hq : q.tnum.Wf) (h : r.tnum.Has x) :
    (q.widenScalar r).tnum.Has x := by
  rw [Tnum.has_iff]
  intro i hi
  have hx := Tnum.has_iff.mp h i hi
  have hw := congrArg (fun z : BitVec 64 => z.getLsbD i) hq
  simp only [BitVec.getLsbD_and, BitVec.ofNat_eq_ofNat, BitVec.getLsbD_zero] at hw
  simp only [RegState.widenScalar, BitVec.getLsbD_and, BitVec.getLsbD_or, BitVec.getLsbD_xor]
  cases hq : q.tnum.mask.getLsbD i <;> cases hr : r.tnum.mask.getLsbD i <;>
    cases hqv : q.tnum.value.getLsbD i <;> simp_all

/-- The order of the sides does not matter to the tnum. -/
theorem tnum_widenScalar_comm (q r : RegState) :
    (q.widenScalar r).tnum = (r.widenScalar q).tnum := by
  simp only [RegState.widenScalar, BitVec.and_comm, BitVec.xor_comm, BitVec.or_comm]

/-- The bounds of two states reach over one another once widened. -/
theorem widenScalar_bounds (q r : RegState) :
    (q.widenScalar r).umin.toNat = min q.umin.toNat r.umin.toNat ∧
      (q.widenScalar r).umax.toNat = max q.umax.toNat r.umax.toNat ∧
      (q.widenScalar r).smin.toInt = min q.smin.toInt r.smin.toInt ∧
      (q.widenScalar r).smax.toInt = max q.smax.toInt r.smax.toInt := by
  simp only [RegState.widenScalar, toNat_minU, toNat_maxU, toInt_minS, toInt_maxS, and_self]

/-- **Widening keeps the words of the state widened in.** -/
theorem Bounds.widenScalar {q : RegState} (h : r.Bounds x) (hw : q.tnum.Wf)
    (hk : r.signedKeeps (q.widenScalar r) = true) : (q.widenScalar r).Bounds x := by
  have h₁ := h.umin
  have h₂ := h.umax
  obtain ⟨humin, humax, hsmin, hsmax⟩ := widenScalar_bounds q r
  exact ⟨has_widenScalar hw h.tnum, by omega, by omega, h.within (by omega) (by omega) hk⟩

end RegState

end BpfVerifier
