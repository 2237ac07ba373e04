import BpfVerifier.Kverify.Transfer
import BpfVerifier.Soundness.Bounds

/-!
# Soundness/WellFormed — what every tracked register satisfies

A tracked register has a well-formed tnum, carries bounds only if it is a scalar, and names no
nullable pointer the walk has yet to hand out (`RegState.Wf`).  Every operation on registers keeps
this.
-/

namespace BpfVerifier

open Word

/-! ## Tnums -/

namespace Tnum

variable {a b t : Tnum}

theorem wf_iff : t.Wf ↔ ∀ i < 64, t.mask.getLsbD i = true → t.value.getLsbD i = false := by
  constructor
  · intro h i _ hm
    have hbit := congrArg (fun z : BitVec 64 => z.getLsbD i) h
    simpa [hm] using hbit
  · intro h
    apply BitVec.eq_of_getLsbD_eq
    intro i hi
    cases hm : t.mask.getLsbD i
    · simp [hm]
    · simp [h i hi hm]

@[simp] theorem wf_constant (v : BitVec 64) : (constant v).Wf := by simp [Wf, constant]

@[simp] theorem wf_unknown : unknown.Wf := by simp [Wf, unknown]

theorem Wf.trunc32 (h : t.Wf) : t.trunc32.Wf := by
  rw [wf_iff] at *
  intro i hi hm
  simp only [Tnum.trunc32, BitVec.getLsbD_and, Bool.and_eq_true] at hm ⊢
  rw [h i hi hm.1, Bool.false_and]

theorem Wf.lsh (h : t.Wf) (k : BitVec 32) : (t.lsh k).Wf := by
  unfold Tnum.lsh
  split
  · exact wf_constant 0
  · rw [wf_iff] at *
    intro i hi hm
    simp only [BitVec.getLsbD_shiftLeft, hi, decide_true, Bool.true_and, Bool.and_eq_true] at hm ⊢
    rw [h _ (by omega) hm.2, Bool.and_false]

theorem Wf.rsh (h : t.Wf) (k : BitVec 32) : (t.rsh k).Wf := by
  unfold Tnum.rsh
  split
  · exact wf_constant 0
  · rw [wf_iff] at *
    intro i _ hm
    simp only [BitVec.getLsbD_ushiftRight] at hm ⊢
    exact h _ (BitVec.lt_of_getLsbD hm) hm

/-- The least described word is one. -/
theorem Wf.has_value (h : t.Wf) : t.Has t.value := by
  rw [has_iff]
  intro i hi
  cases hm : t.mask.getLsbD i
  · simp
  · simp [wf_iff.mp h i hi hm]

/-- …and so is the greatest. -/
theorem Wf.has_maxValue (h : t.Wf) : t.Has t.maxValue := by
  rw [has_iff]
  intro i hi
  cases hm : t.mask.getLsbD i
  · simp [maxValue, hm]
  · simp [wf_iff.mp h i hi hm]

/-- A value cleared under its mask. -/
theorem wf_clear (v m : BitVec 64) : (⟨v &&& ~~~m, m⟩ : Tnum).Wf := by
  rw [wf_iff]
  intro i hi hm
  have hm' : m.getLsbD i = true := hm
  simp [hm']

/-- A mask cleared under its value. -/
theorem wf_clear_mask (v m : BitVec 64) : (⟨v, m &&& ~~~v⟩ : Tnum).Wf := by
  rw [wf_iff]
  intro i hi hm
  simp only [BitVec.getLsbD_and, BitVec.getLsbD_not, hi, decide_true, Bool.true_and,
    Bool.and_eq_true, Bool.not_eq_true'] at hm
  exact hm.2

theorem wf_add (a b : Tnum) : (a.add b).Wf := wf_clear _ _

theorem wf_sub (a b : Tnum) : (a.sub b).Wf := wf_add _ _

theorem wf_and (a b : Tnum) : (a.and b).Wf := by
  simpa only [Tnum.and] using wf_clear_mask _ _

theorem wf_or (a b : Tnum) : (a.or b).Wf := wf_clear_mask _ _

theorem wf_xor (a b : Tnum) : (a.xor b).Wf := wf_clear _ _

/-- Bits cleared in both parts. -/
theorem Wf.clearBits (h : t.Wf) (v : BitVec 64) :
    (⟨t.value &&& ~~~v, t.mask &&& ~~~v⟩ : Tnum).Wf := by
  rw [wf_iff] at *
  intro i hi hm
  simp only [BitVec.getLsbD_and, Bool.and_eq_true] at hm ⊢
  rw [h i hi hm.1, Bool.false_and]

/-- Bits set in the value and cleared in the mask. -/
theorem Wf.setBits (h : t.Wf) (v : BitVec 64) : (⟨t.value ||| v, t.mask &&& ~~~v⟩ : Tnum).Wf := by
  rw [wf_iff] at *
  intro i hi hm
  simp only [BitVec.getLsbD_and, BitVec.getLsbD_or, BitVec.getLsbD_not, hi, decide_true,
    Bool.true_and, Bool.and_eq_true, Bool.not_eq_true'] at hm ⊢
  rw [h i hi hm.1, hm.2, Bool.or_false]

end Tnum

theorem wf_aluTnum (op : AluOp) {a b : Tnum} (ha : a.Wf) : (aluTnum op a b).Wf := by
  unfold aluTnum
  split
  · exact Tnum.wf_add _ _
  · exact Tnum.wf_sub _ _
  · exact Tnum.wf_and _ _
  · exact Tnum.wf_or _ _
  · exact Tnum.wf_xor _ _
  · split
    · exact ha.lsh _
    · exact Tnum.wf_unknown
  · split
    · exact ha.rsh _
    · exact Tnum.wf_unknown
  · split
    · exact Tnum.wf_constant _
    · exact Tnum.wf_unknown
  · split
    · exact Tnum.wf_constant _
    · exact Tnum.wf_unknown
  · split
    · split
      · exact Tnum.wf_constant _
      · exact Tnum.wf_unknown
    · exact Tnum.wf_unknown
  · split
    · split
      · exact Tnum.wf_constant _
      · exact Tnum.wf_unknown
    · exact Tnum.wf_unknown
  · exact Tnum.wf_unknown
  · exact Tnum.wf_unknown

/-! ## Registers -/

/-- The pointers a nullable helper returns: to the start of a map value or of a reservation. -/
def RegType.isResult : RegType → Bool
  | .mapValuePtr _ o _ _ | .ringBufPtr _ o _ _ => o = 0
  | _ => false

/-- Every nullable pointer named in a type has been handed out, and is a helper's result. -/
def RegType.IdsBelow (n : ℕ) : RegType → Prop
  | .ptrOrNull inner _ id => id < n ∧ inner.isResult = true
  | _ => True

theorem RegType.IdsBelow.mono {n n' : ℕ} (hle : n ≤ n') {t : RegType} (h : t.IdsBelow n) :
    t.IdsBelow n' := by
  cases t with
  | ptrOrNull _ _ _ => exact ⟨Nat.lt_of_lt_of_le h.1 hle, h.2⟩
  | _ => trivial

theorem RegType.idsBelow_of_isResult {n : ℕ} {t : RegType} (h : t.isResult = true) :
    t.IdsBelow n := by
  cases t with
  | ptrOrNull _ _ _ => cases h
  | _ => trivial

/-- **The invariant of a tracked register**: only scalars carry bounds, and null is zero. -/
structure RegState.Wf (n : ℕ) (r : RegState) : Prop where
  ids : r.regType.IdsBelow n
  tnum : r.tnum.Wf
  zero : r.regType ≠ .scalar → r.Bounds 0
  any : r.regType ≠ .scalar → r.regType ≠ .null → ∀ x, r.Bounds x

namespace RegState

variable {n : ℕ} {r q : RegState}

theorem Wf.mono {n' : ℕ} (hle : n ≤ n') (h : r.Wf n) : r.Wf n' :=
  { h with ids := h.ids.mono hle }

theorem wf_unbounded {t : RegType} (ht : t.IdsBelow n) : (unbounded t).Wf n where
  ids := ht
  tnum := Tnum.wf_unknown
  zero _ := bounds_unbounded t 0
  any _ _ x := bounds_unbounded t x

theorem wf_uninit : uninit.Wf n := wf_unbounded (t := .uninit) trivial

theorem wf_scalarUnknown : scalarUnknown.Wf n := wf_unbounded (t := .scalar) trivial

theorem wf_kernelPtr : kernelPtr.Wf n := wf_unbounded (t := .kernelPtr) trivial

/-- A scalar with a well-formed tnum. -/
theorem wf_of_scalar (ht : r.regType = .scalar) (hw : r.tnum.Wf) : r.Wf n where
  ids := by
    rw [ht]
    trivial
  tnum := hw
  zero h := absurd ht h
  any h := absurd ht h

theorem wf_scalarValue (v : BitVec 64) : (scalarValue v).Wf n :=
  wf_of_scalar rfl (Tnum.wf_constant v)

theorem wf_null : null.Wf n where
  ids := trivial
  tnum := Tnum.wf_constant 0
  zero _ := bounds_null
  any _ h := absurd rfl h

theorem Wf.at (h : r.Wf n) (pc : ℕ) : (r.at_ pc).Wf n where
  ids := h.ids
  tnum := h.tnum
  zero hs := ⟨(h.zero hs).tnum, (h.zero hs).umin, (h.zero hs).umax, (h.zero hs).signed⟩
  any hs hn x :=
    ⟨(h.any hs hn x).tnum, (h.any hs hn x).umin, (h.any hs hn x).umax, (h.any hs hn x).signed⟩

theorem tnumWf_refineBounds (h : r.tnum.Wf) : r.refineBounds.tnum.Wf := by
  have hcollapse (r : RegState) (h : r.tnum.Wf) : r.refineCollapse.tnum.Wf := by
    unfold refineCollapse
    split
    · exact Tnum.wf_constant _
    · exact h
  have hunsigned (r : RegState) (h : r.tnum.Wf) : r.refineUnsigned.tnum.Wf := by
    unfold refineUnsigned
    split <;> exact h
  have hsigned (r : RegState) (h : r.tnum.Wf) : r.refineSigned.tnum.Wf := by
    unfold refineSigned
    split <;> exact h
  have htnum (r : RegState) (h : r.tnum.Wf) : r.refineTnum.tnum.Wf := by
    unfold refineTnum
    split
    · exact Tnum.wf_constant _
    · exact h
  exact hcollapse _ (hunsigned _ (hsigned _ (htnum _ h)))

theorem wf_scalarAlu (dst src : RegState) (op : AluOp) (is64 : Bool) (hd : dst.tnum.Wf) :
    (scalarAlu dst src op is64).Wf n := by
  refine wf_of_scalar (regType_refineBounds _) (tnumWf_refineBounds ?_)
  have h := wf_aluTnum op (b := src.tnum) hd
  cases is64
  · exact h.trunc32
  · exact h

theorem tnumWf_widenScalar (hq : q.tnum.Wf) (hr : r.tnum.Wf) : (q.widenScalar r).tnum.Wf := by
  have h₁ := Tnum.wf_iff.mp hq
  have h₂ := Tnum.wf_iff.mp hr
  rw [Tnum.wf_iff]
  intro i hi hm
  have hbool : ∀ a b c d : Bool, (c = true → a = false) → (d = true → b = false) →
      (c || d || (a ^^ b)) = true → (a && b) = false := by decide
  simp only [widenScalar, BitVec.getLsbD_or, BitVec.getLsbD_and, BitVec.getLsbD_xor] at hm ⊢
  exact hbool _ _ _ _ (h₁ i hi) (h₂ i hi) hm

theorem Wf.refineWithId (h : r.Wf n) (ptrId : ℕ) {newType : RegType} (ht : newType.IdsBelow n) :
    (refineWithId ptrId newType r).Wf n := by
  unfold BpfVerifier.refineWithId
  split
  · next hr =>
    split
    · split
      · exact wf_null
      · have hany (x : BitVec 64) : ({ r with regType := newType } : RegState).Bounds x :=
          have hb := h.any (by simp [hr]) (by simp [hr]) x
          ⟨hb.tnum, hb.umin, hb.umax, hb.signed⟩
        exact ⟨ht, h.tnum, fun _ => hany 0, fun _ _ => hany⟩
    · exact h
  · exact h

end RegState

/-! ## Refined scalars -/

/-- A scalar with a well-formed tnum. -/
structure RegState.IsScalar (r : RegState) : Prop where
  type : r.regType = .scalar
  tnum : r.tnum.Wf

theorem RegState.IsScalar.refineBounds {r : RegState} (h : r.IsScalar) :
    r.refineBounds.IsScalar where
  type := by rw [RegState.regType_refineBounds, h.type]
  tnum := RegState.tnumWf_refineBounds h.tnum

/-- Narrowing a scalar for a 64-bit comparison. -/
theorem isScalar_refineScalar64 {r : RegState} (h : r.IsScalar) (op : JmpOp) (val : BitVec 64) :
    (refineScalar64 r r op val).1.IsScalar ∧ (refineScalar64 r r op val).2.IsScalar := by
  obtain ⟨ht, hw⟩ := h
  have hself : r.IsScalar := ⟨ht, hw⟩
  have hvalue : (RegState.scalarValue val).IsScalar := ⟨rfl, Tnum.wf_constant val⟩
  cases op with
  | ja => exact ⟨hself, hself⟩
  | jeq => exact ⟨hvalue, hself⟩
  | jne => exact ⟨hself, hvalue⟩
  | jset =>
    simp only [refineScalar64]
    refine ⟨?_, RegState.IsScalar.refineBounds ⟨ht, hw.clearBits val⟩⟩
    split
    · exact RegState.IsScalar.refineBounds ⟨ht, hw.setBits val⟩
    · exact hself
  | _ =>
    simp only [refineScalar64]
    exact ⟨RegState.IsScalar.refineBounds ⟨ht, hw⟩, RegState.IsScalar.refineBounds ⟨ht, hw⟩⟩

section

variable {r : RegState} (h : r.IsScalar)

include h

theorem isScalar_clampU32BoundsMin (lo : BitVec 64) :
    (clampU32BoundsMin r lo).refineBounds.IsScalar := by
  refine .refineBounds ?_
  unfold clampU32BoundsMin
  split <;> exact ⟨h.1, h.2⟩

theorem isScalar_clampU32BoundsMax (hi : BitVec 64) :
    (clampU32BoundsMax r hi).refineBounds.IsScalar := by
  refine .refineBounds ?_
  unfold clampU32BoundsMax
  split <;> exact ⟨h.1, h.2⟩

theorem isScalar_clampS32Min (lo : BitVec 64) : (clampS32Min r lo).IsScalar := by
  unfold clampS32Min
  split
  · exact .refineBounds ⟨h.1, h.2⟩
  · exact h

theorem isScalar_clampS32Max (hi : BitVec 64) : (clampS32Max r hi).IsScalar := by
  unfold clampS32Max
  split
  · exact .refineBounds ⟨h.1, h.2⟩
  · exact h

/-- The low half of the tnum becomes a constant. -/
theorem isScalar_pinLow32 (val : BitVec 64) : (pinLow32 r (val &&& U32_MAX)).IsScalar := by
  obtain ⟨ht, hw⟩ := h
  have hpinned : (⟨(r.tnum.value &&& ~~~U32_MAX) ||| (val &&& U32_MAX),
      r.tnum.mask &&& ~~~U32_MAX⟩ : Tnum).Wf := by
    rw [Tnum.wf_iff] at *
    intro i hi hm
    simp only [BitVec.getLsbD_and, BitVec.getLsbD_or, BitVec.getLsbD_not, hi, decide_true,
      Bool.true_and, Bool.and_eq_true, Bool.not_eq_true'] at hm ⊢
    rw [hw i hi hm.1, hm.2, Bool.false_and, Bool.and_false, Bool.or_false]
  unfold pinLow32 clampU32Bounds
  refine .refineBounds ?_
  split <;> exact ⟨ht, hpinned⟩

end

/-- Narrowing a scalar for a 32-bit comparison. -/
theorem isScalar_refineScalar32 {r : RegState} (h : r.IsScalar) (op : JmpOp) (val : BitVec 64) :
    (refineScalar32 r r op val).1.IsScalar ∧ (refineScalar32 r r op val).2.IsScalar := by
  have hmin := isScalar_clampU32BoundsMin h
  have hmax := isScalar_clampU32BoundsMax h
  have hsmin := isScalar_clampS32Min h
  have hsmax := isScalar_clampS32Max h
  have hpin := isScalar_pinLow32 h val
  cases op with
  | ja => exact ⟨h, h⟩
  | jeq =>
    simp only [refineScalar32]
    exact ⟨hpin, h⟩
  | jne =>
    simp only [refineScalar32]
    exact ⟨h, hpin⟩
  | jgt =>
    simp only [refineScalar32]
    exact ⟨hmin _, hmax _⟩
  | jge =>
    simp only [refineScalar32]
    exact ⟨hmin _, hmax _⟩
  | jlt =>
    simp only [refineScalar32]
    exact ⟨hmax _, hmin _⟩
  | jle =>
    simp only [refineScalar32]
    exact ⟨hmax _, hmin _⟩
  | jsgt =>
    simp only [refineScalar32]
    exact ⟨hsmin _, hsmax _⟩
  | jsge =>
    simp only [refineScalar32]
    exact ⟨hsmin _, hsmax _⟩
  | jslt =>
    simp only [refineScalar32]
    exact ⟨hsmax _, hsmin _⟩
  | jsle =>
    simp only [refineScalar32]
    exact ⟨hsmax _, hsmin _⟩
  | jset =>
    simp only [refineScalar32]
    constructor
    · split
      · refine .refineBounds ?_
        split <;> exact ⟨h.1, h.2.setBits _⟩
      · exact h
    · refine .refineBounds ?_
      split <;> exact ⟨h.1, h.2.clearBits _⟩

end BpfVerifier
