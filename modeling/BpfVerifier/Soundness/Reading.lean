import BpfVerifier.Soundness.Bounds

/-!
# Soundness/Reading — two readings of the bounds of a register

`RegState.Bounds` reads the signed bounds as a range that may wrap, `RegState.Admits` as the two
bounds they are recorded as.  A `Reading` is what both have in common: narrowing a bound to one the
word satisfies keeps the word.  Read as recorded, bounds that allow some word allow no more after
`refineBounds` than before it (`Admits.of_refineBounds`).
-/

namespace BpfVerifier

open Word

/-! ## Readings -/

/-- A reading of register states as sets of words that is kept when a bound is narrowed. -/
structure Reading (P : RegState → BitVec 64 → Prop) : Prop where
  tnum {r x} : P r x → r.tnum.Has x
  umax {r x} : P r x → x.toNat ≤ r.umax.toNat
  scalarValue (v : BitVec 64) : P (.scalarValue v) v
  withTnum {r x} : P r x → ∀ {t : Tnum}, t.Has x → P { r with tnum := t } x
  raiseUmin {r x} : P r x → ∀ {l : BitVec 64}, l.toNat ≤ x.toNat →
    P { r with umin := maxU r.umin l } x
  lowerUmax {r x} : P r x → ∀ {u : BitVec 64}, x.toNat ≤ u.toNat →
    P { r with umax := minU r.umax u } x
  raiseSmin {r x} : P r x → ∀ {l : BitVec 64}, l.toInt ≤ x.toInt →
    P { r with smin := maxS r.smin l } x
  lowerSmax {r x} : P r x → ∀ {u : BitVec 64}, x.toInt ≤ u.toInt →
    P { r with smax := minS r.smax u } x
  refineBounds {r x} : P r x → P r.refineBounds x

theorem reading_bounds : Reading RegState.Bounds where
  tnum h := h.tnum
  umax h := h.umax
  scalarValue := RegState.bounds_scalarValue
  withTnum h _ := h.withTnum
  raiseUmin h _ := h.raiseUmin
  lowerUmax h _ := h.lowerUmax
  raiseSmin h _ := h.raiseSmin
  lowerSmax h _ := h.lowerSmax
  refineBounds h := h.refineBounds

namespace RegState

/-! ## The bounds as recorded -/

/-- The tnum and the four bounds of a register, as recorded, allow a word. -/
structure Admits (r : RegState) (x : BitVec 64) : Prop where
  tnum : r.tnum.Has x
  umin : r.umin.toNat ≤ x.toNat
  umax : x.toNat ≤ r.umax.toNat
  smin : r.smin.toInt ≤ x.toInt
  smax : x.toInt ≤ r.smax.toInt

variable {r : RegState} {x y : BitVec 64}

theorem admits_iff : r.Admits x ↔ r.tnum.Has x ∧ r.umin.toNat ≤ x.toNat ∧
    x.toNat ≤ r.umax.toNat ∧ r.smin.toInt ≤ x.toInt ∧ x.toInt ≤ r.smax.toInt :=
  ⟨fun h => ⟨h.tnum, h.umin, h.umax, h.smin, h.smax⟩,
    fun ⟨h₁, h₂, h₃, h₄, h₅⟩ => ⟨h₁, h₂, h₃, h₄, h₅⟩⟩

instance (r : RegState) (x : BitVec 64) : Decidable (r.Admits x) :=
  decidable_of_iff _ admits_iff.symm

/-- Bounds read as recorded are bounds that do not wrap. -/
theorem Admits.bounds (h : r.Admits x) : r.Bounds x where
  tnum := h.tnum
  umin := h.umin
  umax := h.umax
  signed := Or.inl ⟨h.smin, h.smax⟩

@[simp] theorem admits_unbounded (t : RegType) (x : BitVec 64) : (unbounded t).Admits x where
  tnum := Tnum.has_unknown
  umin := Nat.zero_le _
  umax := (bounds_unbounded t x).umax
  smin := by
    have := BitVec.le_toInt (x := x)
    rw [show (unbounded t).smin.toInt = -2 ^ 63 from by rfl]
    omega
  smax := by
    have := BitVec.toInt_lt (x := x)
    rw [show (unbounded t).smax.toInt = 2 ^ 63 - 1 from by rfl]
    omega

theorem admits_scalarValue (v : BitVec 64) : (scalarValue v).Admits v where
  tnum := Tnum.has_constant.mpr rfl
  umin := Nat.le_refl _
  umax := Nat.le_refl _
  smin := Int.le_refl _
  smax := Int.le_refl _

/-! ## Tightening one bound -/

theorem Admits.raiseUmin (h : r.Admits x) {l : BitVec 64} (hl : l.toNat ≤ x.toNat) :
    ({ r with umin := maxU r.umin l } : RegState).Admits x :=
  { h with umin := (toNat_maxU r.umin l).symm ▸ Nat.max_le.mpr ⟨h.umin, hl⟩ }

theorem Admits.lowerUmax (h : r.Admits x) {u : BitVec 64} (hu : x.toNat ≤ u.toNat) :
    ({ r with umax := minU r.umax u } : RegState).Admits x :=
  { h with umax := (toNat_minU r.umax u).symm ▸ Nat.le_min.mpr ⟨h.umax, hu⟩ }

theorem Admits.raiseSmin (h : r.Admits x) {l : BitVec 64} (hl : l.toInt ≤ x.toInt) :
    ({ r with smin := maxS r.smin l } : RegState).Admits x :=
  { h with smin := (toInt_maxS r.smin l).symm ▸ Int.max_le.mpr ⟨h.smin, hl⟩ }

theorem Admits.lowerSmax (h : r.Admits x) {u : BitVec 64} (hu : x.toInt ≤ u.toInt) :
    ({ r with smax := minS r.smax u } : RegState).Admits x :=
  { h with smax := (toInt_minS r.smax u).symm ▸ Int.le_min.mpr ⟨h.smax, hu⟩ }

theorem Admits.withTnum (h : r.Admits x) {t : Tnum} (ht : t.Has x) :
    ({ r with tnum := t } : RegState).Admits x := { h with tnum := ht }

/-! ## Loosening one bound -/

theorem Admits.of_raiseUmin {l : BitVec 64}
    (h : ({ r with umin := maxU r.umin l } : RegState).Admits x) : r.Admits x :=
  { h with umin := Nat.le_trans (Nat.le_max_left _ _) (toNat_maxU r.umin l ▸ h.umin) }

theorem Admits.of_lowerUmax {u : BitVec 64}
    (h : ({ r with umax := minU r.umax u } : RegState).Admits x) : r.Admits x :=
  { h with umax := Nat.le_trans (toNat_minU r.umax u ▸ h.umax) (Nat.min_le_left _ _) }

theorem Admits.of_raiseSmin {l : BitVec 64}
    (h : ({ r with smin := maxS r.smin l } : RegState).Admits x) : r.Admits x :=
  { h with smin := Int.le_trans (Int.le_max_left _ _) (toInt_maxS r.smin l ▸ h.smin) }

theorem Admits.of_lowerSmax {u : BitVec 64}
    (h : ({ r with smax := minS r.smax u } : RegState).Admits x) : r.Admits x :=
  { h with smax := Int.le_trans (toInt_minS r.smax u ▸ h.smax) (Int.min_le_left _ _) }

/-! ## `refineBounds` keeps the words allowed -/

/-- Where the unsigned bounds meet they give the word. -/
theorem Admits.eq_of_collapse (h : r.Admits x) (heq : r.umin = r.umax) : x = r.umin :=
  h.bounds.eq_of_collapse heq

theorem Admits.refineFromTnum (h : r.Admits x) : r.refineFromTnum.Admits x :=
  (h.raiseUmin h.tnum.minValue_le).lowerUmax h.tnum.le_maxValue

theorem Admits.refineTnum (h : r.Admits x) : r.refineTnum.Admits x := by
  unfold RegState.refineTnum
  split
  · next heq => exact h.withTnum (Tnum.has_constant.mpr (h.eq_of_collapse heq))
  · exact h

/-- Below the sign boundary the unsigned bounds are signed ones. -/
theorem Admits.toInt_le (h : r.Admits x) (hmax : r.umax.toNat < 2 ^ 63) :
    r.umin.toInt ≤ x.toInt ∧ x.toInt ≤ r.umax.toInt := by
  have h₁ := h.umin
  have h₂ := h.umax
  have hx := toInt_eq_of_lt (x := x) (by omega)
  have hlo := toInt_eq_of_lt (x := r.umin) (by omega)
  have hhi := toInt_eq_of_lt (x := r.umax) (by omega)
  omega

theorem Admits.refineSigned (h : r.Admits x) : r.refineSigned.Admits x := by
  unfold RegState.refineSigned
  split
  · next hle =>
    simp only [BitVec.ule_eq_decide, Bool.and_eq_true, decide_eq_true_eq] at hle
    have hmax : I64_MAX.toNat = 2 ^ 63 - 1 := by decide
    obtain ⟨hlo, hhi⟩ := h.toInt_le (by omega)
    exact (h.raiseSmin hlo).lowerSmax hhi
  · exact h

theorem Admits.refineUnsigned (h : r.Admits x) : r.refineUnsigned.Admits x := by
  unfold RegState.refineUnsigned
  split
  · next h₀ =>
    simp only [BitVec.sle_eq_decide, decide_eq_true_eq, BitVec.toInt_zero] at h₀
    obtain ⟨hlo, hhi⟩ := le_of_within (Or.inl ⟨h.smin, h.smax⟩) h₀
    exact (h.raiseUmin hlo).lowerUmax hhi
  · exact h

theorem Admits.refineCollapse (h : r.Admits x) : r.refineCollapse.Admits x := by
  unfold RegState.refineCollapse
  split
  · next heq =>
    have hx := h.eq_of_collapse heq
    exact
      { h with
        tnum := Tnum.has_constant.mpr hx
        smin := Int.le_of_eq (congrArg BitVec.toInt hx.symm)
        smax := Int.le_of_eq (congrArg BitVec.toInt hx) }
  · exact h

/-- **Tightening the bounds of a register loses no word.** -/
theorem Admits.refineBounds (h : r.Admits x) : r.refineBounds.Admits x :=
  h.refineFromTnum.refineTnum.refineSigned.refineUnsigned.refineCollapse

/-! ## `refineBounds` lets no word in -/

/-- A range collapsed to one word admits no other. -/
theorem Admits.of_collapse (hx : r.Admits x) (heq : r.umin = r.umax) (hy : y = r.umin) :
    r.Admits y := by
  rw [hy, ← hx.eq_of_collapse heq]
  exact hx

theorem Admits.of_refineFromTnum (h : r.refineFromTnum.Admits y) : r.Admits y :=
  (Admits.of_lowerUmax (r := { r with umin := maxU r.umin r.tnum.minValue }) h).of_raiseUmin

/-- The collapsed tnum is about the one word there was. -/
theorem Admits.of_refineTnum (hx : r.Admits x) (h : r.refineTnum.Admits y) : r.Admits y := by
  unfold RegState.refineTnum at h
  split at h
  · next heq => exact hx.of_collapse heq (Tnum.has_constant.mp h.tnum)
  · exact h

theorem Admits.of_refineSigned (h : r.refineSigned.Admits y) : r.Admits y := by
  unfold RegState.refineSigned at h
  split at h
  · exact (Admits.of_lowerSmax (r := { r with smin := maxS r.smin r.umin }) h).of_raiseSmin
  · exact h

theorem Admits.of_refineUnsigned (h : r.refineUnsigned.Admits y) : r.Admits y := by
  unfold RegState.refineUnsigned at h
  split at h
  · exact (Admits.of_lowerUmax (r := { r with umin := maxU r.umin r.smin }) h).of_raiseUmin
  · exact h

theorem Admits.of_refineCollapse (hx : r.Admits x) (h : r.refineCollapse.Admits y) :
    r.Admits y := by
  unfold RegState.refineCollapse at h
  split at h
  · next heq => exact hx.of_collapse heq (Tnum.has_constant.mp h.tnum)
  · exact h

/-- **Tightening the bounds of a register that allows some word lets no other word in.** -/
theorem Admits.of_refineBounds (hx : r.Admits x) (h : r.refineBounds.Admits y) : r.Admits y := by
  have h₂ := hx.refineFromTnum
  have h₅ := h₂.refineTnum.refineSigned.refineUnsigned
  exact (h₂.of_refineTnum (h₅.of_refineCollapse h).of_refineUnsigned.of_refineSigned
    ).of_refineFromTnum

end RegState

theorem reading_admits : Reading RegState.Admits where
  tnum h := h.tnum
  umax h := h.umax
  scalarValue := RegState.admits_scalarValue
  withTnum h _ := h.withTnum
  raiseUmin h _ := h.raiseUmin
  lowerUmax h _ := h.lowerUmax
  raiseSmin h _ := h.raiseSmin
  lowerSmax h _ := h.lowerSmax
  refineBounds h := h.refineBounds

end BpfVerifier
