import BpfVerifier.Concrete.Machine
import BpfVerifier.Soundness.Bounds

/-!
# Soundness/Alu — ALU results on scalars

The verifier computes a tnum on 64 bits and truncates it for a 32-bit operation.  The result covers
the machine's, except for the cases `scalarExact` rules out: a subtraction that loses a borrow, and
a 32-bit division, modulo or right shift whose 64-bit result does not truncate to the 32-bit one.
-/

namespace BpfVerifier

open Word

/-! ## Operand checks -/

section

variable {state : VerifierState} {insn : BpfInsn} {src : Source} {is64 : Bool}

theorem toNat_immU (insn : BpfInsn) : insn.immU.toNat = insn.imm.toNat := by
  change (insn.imm.setWidth 64).toNat = _
  rw [BitVec.toNat_setWidth]
  omega

theorem toNat_immOf_le (insn : BpfInsn) (is64 : Bool) :
    (insn.immOf is64).toNat ≤ insn.immS.toNat := by
  cases is64 with
  | true => exact Nat.le_refl _
  | false =>
    change (insn.imm.setWidth 64).toNat ≤ (insn.imm.signExtend 64).toNat
    rw [BitVec.toNat_signExtend]
    exact Nat.le_add_right _ _

theorem toNat_imm_le (insn : BpfInsn) (is64 : Bool) :
    insn.imm.toNat ≤ (insn.immOf is64).toNat := by
  rw [← toNat_immU]
  cases is64 with
  | true => exact toNat_immOf_le insn false
  | false => exact Nat.le_refl _

/-- A shift that passes its check has a legal amount. -/
theorem umax_operand_le (h : shiftOverflow state insn src is64 = none) :
    (aluSrcState state insn src is64).umax.toNat ≤ (maxShift is64).toNat := by
  simp only [shiftOverflow, ite_eq_left_iff, reduceCtorEq, imp_false, Decidable.not_not,
    BitVec.ule_eq_decide, decide_eq_true_eq] at h
  cases src with
  | imm => exact Nat.le_trans (toNat_immOf_le insn is64) h
  | reg => exact h

/-- A division that passes its check has a divisor that is not zero. -/
theorem umin_operand_ne_zero (h : divByZero state insn src = none) :
    (aluSrcState state insn src is64).umin ≠ 0 := by
  cases src with
  | imm =>
    have himm : insn.imm ≠ 0 := by simpa [divByZero] using h
    intro hzero
    have hle := toNat_imm_le insn is64
    rw [show insn.immOf is64 = 0 from hzero] at hle
    exact himm (BitVec.eq_of_toNat_eq (Nat.le_zero.mp hle))
  | reg => simpa [divByZero, aluSrcState] using h

end

/-! ## 32-bit results -/

/-- Truncation clears the upper half. -/
theorem setWidth_setWidth_32 (z : BitVec 64) : (z.setWidth 32).setWidth 64 = z &&& 0xFFFFFFFF := by
  apply BitVec.eq_of_getLsbD_eq
  intro i hi
  rw [show (0xFFFFFFFF : BitVec 64) = (BitVec.allOnes 32).setWidth 64 by decide]
  simp only [BitVec.getLsbD_setWidth, BitVec.getLsbD_and, BitVec.getLsbD_allOnes, hi]
  by_cases h : i < 32 <;> simp [h]

/-- The truncated unknown tnum covers every truncated word. -/
theorem has_unknown_trunc32 (z : BitVec 32) : Tnum.unknown.trunc32.Has (z.setWidth 64) := by
  have h := (Tnum.has_unknown (x := z.setWidth 64)).trunc32
  rw [← setWidth_setWidth_32] at h
  simpa using h

/-- A 64-bit result that truncates to the machine's covers it once truncated. -/
theorem Tnum.Has.setWidth {t : Tnum} {z : BitVec 64} (h : t.Has z) {w : BitVec 32}
    (hw : z.setWidth 32 = w) : t.trunc32.Has (w.setWidth 64) := by
  rw [← hw, setWidth_setWidth_32]
  exact h.trunc32

theorem setWidth_sub_32 (x y : BitVec 64) :
    (x - y).setWidth 32 = x.setWidth 32 - y.setWidth 32 := by
  apply BitVec.eq_of_toNat_eq
  simp only [BitVec.toNat_setWidth, BitVec.toNat_sub]
  omega

theorem setWidth_shiftLeft_32 (x : BitVec 64) (k : ℕ) :
    (x <<< k).setWidth 32 = x.setWidth 32 <<< k := by
  apply BitVec.eq_of_getLsbD_eq
  intro i hi
  simp only [BitVec.getLsbD_setWidth, BitVec.getLsbD_shiftLeft]
  by_cases h : i < k
  · simp [h]
  · simp [h, hi, show i < 64 by omega, show i - k < 32 by omega]

/-! ## When the tracked result is exact -/

/-- The low halves of the operands give the low half of the result. -/
def truncates (op : AluOp) (a b : BitVec 64) : Bool :=
  (aluWord op a b).setWidth 32 = aluWord op (a.setWidth 32) (b.setWidth 32)

/-- **The tracked result of a scalar operation covers the machine's.** -/
def scalarExact (dst src : Tnum) (op : AluOp) (is64 : Bool) : Bool :=
  match op, is64 with
  | .sub, true => dst.SubExact src (BitVec.allOnes 64)
  | .sub, false => dst.SubExact src 0xFFFFFFFF
  | .div, false | .mod, false | .arsh, false =>
    match dst.knownValue, src.knownValue with
    | some a, some b => truncates op a b
    | _, _ => true
  | .rsh, false =>
    match src.knownValue with
    -- nothing is shifted in from the upper half
    | some b => truncates .rsh dst.maxValue b
    | none => true
  | _, _ => true

section

variable {op : AluOp} {a b : Tnum} {x y : BitVec 64}

/-- A known shift amount in range is the machine's. -/
theorem toNat_setWidth_of_lt {y : BitVec 64} (h : y.toNat < 64) :
    (y.setWidth 32).toNat = y.toNat := by
  simp only [BitVec.toNat_setWidth]
  omega

/-- Multiplication, division, modulo and arithmetic shifts follow known operands only. -/
theorem aluTnum_eq_unknown (hop : op = .mul ∨ op = .div ∨ op = .mod ∨ op = .arsh)
    (hk : ¬(a.isKnown = true ∧ b.isKnown = true)) : aluTnum op a b = .unknown := by
  -- the row of known operands does not apply
  have hno (u v : BitVec 64) (hu : a.knownValue = some u) (hv : b.knownValue = some v) :
      False := by
    refine hk ⟨?_, ?_⟩ <;> by_contra hnot <;>
      simp [Tnum.knownValue_of_not_isKnown (Bool.eq_false_iff.mpr hnot)] at hu hv
  rcases hop with rfl | rfl | rfl | rfl <;> simp only [aluTnum]

theorem aluTnum_of_isKnown (hop : op = .mul ∨ op = .div ∨ op = .mod ∨ op = .arsh)
    (hdiv : op = .div ∨ op = .mod → b.value ≠ 0) (hka : a.isKnown = true)
    (hkb : b.isKnown = true) : aluTnum op a b = .constant (aluWord op a.value b.value) := by
  rcases hop with rfl | rfl | rfl | rfl
  · simp only [aluTnum, aluWord, Tnum.knownValue_of_isKnown hka, Tnum.knownValue_of_isKnown hkb]
  · simp only [aluTnum, aluWord, Tnum.knownValue_of_isKnown hka, Tnum.knownValue_of_isKnown hkb]
    exact if_pos (hdiv (by decide))
  · simp only [aluTnum, aluWord, Tnum.knownValue_of_isKnown hka, Tnum.knownValue_of_isKnown hkb]
    exact if_pos (hdiv (by decide))
  · simp only [aluTnum, aluWord, Tnum.knownValue_of_isKnown hka, Tnum.knownValue_of_isKnown hkb]

/-- **Multiplication, division, modulo and arithmetic shifts** are tracked on known operands, or not
at all. -/
theorem aluTnum_knownOnly (hop : op = .mul ∨ op = .div ∨ op = .mod ∨ op = .arsh) (a b : Tnum) :
    aluTnum op a b = .unknown ∨ a.isKnown = true ∧ b.isKnown = true ∧
      aluTnum op a b = .constant (aluWord op a.value b.value) := by
  by_cases hk : a.isKnown = true ∧ b.isKnown = true
  · by_cases hz : (op = .div ∨ op = .mod) ∧ b.value = 0
    · left
      rcases hz with ⟨rfl | rfl, hz⟩ <;>
        simp [aluTnum, Tnum.knownValue_of_isKnown hk.1, Tnum.knownValue_of_isKnown hk.2, hz]
    · exact Or.inr ⟨hk.1, hk.2, aluTnum_of_isKnown hop (fun h hv => hz ⟨h, hv⟩) hk.1 hk.2⟩
  · exact Or.inl (aluTnum_eq_unknown hop hk)

/-- The 64-bit operations. -/
theorem has_aluTnum (ha : a.Has x) (hb : b.Has y)
    (hex : op = .sub → a.SubExact b (BitVec.allOnes 64))
    (hshift : op = .lsh ∨ op = .rsh ∨ op = .arsh → y.toNat < 64) :
    (aluTnum op a b).Has (aluWord op x y) := by
  have hknown (hop : op = .mul ∨ op = .div ∨ op = .mod ∨ op = .arsh) :
      (aluTnum op a b).Has (aluWord op x y) := by
    rcases aluTnum_knownOnly hop a b with hun | ⟨hka, hkb, hconst⟩
    · rw [hun]
      exact Tnum.has_unknown
    · rw [hconst, ← ha.eq_of_isKnown hka, ← hb.eq_of_isKnown hkb]
      exact Tnum.has_constant.mpr rfl
  cases op with
  | add => exact ha.add hb
  | sub => exact ha.sub hb (hex rfl)
  | and => exact ha.and hb
  | or => exact ha.or hb
  | xor => exact ha.xor hb
  | mov => exact Tnum.has_unknown
  | neg => exact Tnum.has_unknown
  | mul => exact hknown (by decide)
  | div => exact hknown (by decide)
  | mod => exact hknown (by decide)
  | arsh => exact hknown (by decide)
  | lsh =>
    have hlt := hshift (by decide)
    simp only [aluTnum, aluWord, Nat.mod_eq_of_lt hlt]
    split
    · next v hv =>
      rw [← hb.eq_of_knownValue hv, ← toNat_setWidth_of_lt hlt]
      exact ha.lsh (by rwa [toNat_setWidth_of_lt hlt])
    · exact Tnum.has_unknown
  | rsh =>
    have hlt := hshift (by decide)
    simp only [aluTnum, aluWord, Nat.mod_eq_of_lt hlt]
    split
    · next v hv =>
      rw [← hb.eq_of_knownValue hv, ← toNat_setWidth_of_lt hlt]
      exact ha.rsh (by rwa [toNat_setWidth_of_lt hlt])
    · exact Tnum.has_unknown

/-- A right shift that brings nothing in for the greatest word brings nothing in for any. -/
theorem truncates_rsh_of_has (ha : a.Has x) (hlt : y.toNat < 32)
    (h : truncates .rsh a.maxValue y = true) : truncates .rsh x y = true := by
  have hk : (y.setWidth 32).toNat % 32 = y.toNat := by
    simp only [BitVec.toNat_setWidth]
    omega
  simp only [truncates, aluWord, decide_eq_true_eq, hk,
    Nat.mod_eq_of_lt (show y.toNat < 64 by omega)] at h ⊢
  apply BitVec.eq_of_getLsbD_eq
  intro i hi
  have hbit := congrArg (fun z : BitVec 32 => z.getLsbD i) h
  have hsub := ha.sub_max (y.toNat + i)
  simp only [BitVec.getLsbD_setWidth, BitVec.getLsbD_ushiftRight, hi, decide_true,
    Bool.true_and] at hbit ⊢
  by_cases hin : y.toNat + i < 32
  · simp [hin]
  · simp only [hin, decide_false, Bool.false_and] at hbit ⊢
    cases hx : x.getLsbD (y.toNat + i)
    · rfl
    · rw [hsub hx] at hbit
      cases hbit

/-- The 32-bit operations. -/
theorem has_aluTnum_trunc32 (ha : a.Has x) (hb : b.Has y) (hex : scalarExact a b op false = true)
    (hshift : op = .lsh ∨ op = .rsh ∨ op = .arsh → y.toNat < 32) :
    (aluTnum op a b).trunc32.Has ((aluWord op (x.setWidth 32) (y.setWidth 32)).setWidth 64) := by
  have h64 (hsub : op ≠ .sub) : (aluTnum op a b).Has (aluWord op x y) :=
    has_aluTnum ha hb (fun h => absurd h hsub) (fun h => by have := hshift h; omega)
  -- both operands known: the exactness test is about the operands themselves
  have hknown (hop : op = .mul ∨ op = .div ∨ op = .mod ∨ op = .arsh) (hsub : op ≠ .sub)
      (ht : a.isKnown = true → b.isKnown = true → truncates op a.value b.value = true) :
      (aluTnum op a b).trunc32.Has
        ((aluWord op (x.setWidth 32) (y.setWidth 32)).setWidth 64) := by
    rcases aluTnum_knownOnly hop a b with hun | ⟨hka, hkb, -⟩
    · rw [hun]
      exact has_unknown_trunc32 _
    · have ht := ht hka hkb
      rw [← ha.eq_of_isKnown hka, ← hb.eq_of_isKnown hkb] at ht
      exact (h64 hsub).setWidth (by simpa [truncates] using ht)
  have htest (hop : scalarExact a b op false = match a.knownValue, b.knownValue with
        | some u, some v => truncates op u v
        | _, _ => true) (hka : a.isKnown = true) (hkb : b.isKnown = true) :
      truncates op a.value b.value = true := by
    rw [hop, Tnum.knownValue_of_isKnown hka, Tnum.knownValue_of_isKnown hkb] at hex
    exact hex
  cases op with
  | add => exact (h64 (by decide)).setWidth (BitVec.setWidth_add _ _ (by decide))
  | sub =>
    have h := ha.sub_trunc32 hb (by simpa [scalarExact] using hex)
    rw [← setWidth_setWidth_32, setWidth_sub_32] at h
    exact h
  | mul => exact (h64 (by decide)).setWidth (BitVec.setWidth_mul _ _ (by decide))
  | and => exact (h64 (by decide)).setWidth BitVec.setWidth_and
  | or => exact (h64 (by decide)).setWidth BitVec.setWidth_or
  | xor => exact (h64 (by decide)).setWidth BitVec.setWidth_xor
  | mov => exact has_unknown_trunc32 _
  | neg => exact has_unknown_trunc32 _
  | lsh =>
    have hlt := hshift (by decide)
    have hk : (y.setWidth 32).toNat % 32 = y.toNat := by
      simp only [BitVec.toNat_setWidth]
      omega
    refine (h64 (by decide)).setWidth ?_
    simp only [aluWord, hk, Nat.mod_eq_of_lt (show y.toNat < 64 by omega)]
    exact setWidth_shiftLeft_32 x _
  | rsh =>
    have hlt := hshift (by decide)
    simp only [scalarExact] at hex
    split at hex
    · next v hv =>
      rw [← hb.eq_of_knownValue hv] at hex
      have ht := truncates_rsh_of_has ha hlt hex
      exact (h64 (by decide)).setWidth (by simpa [truncates] using ht)
    · next hv =>
      simp only [aluTnum, hv]
      exact has_unknown_trunc32 _
  | div => exact hknown (by decide) (by decide) (htest rfl)
  | mod => exact hknown (by decide) (by decide) (htest rfl)
  | arsh => exact hknown (by decide) (by decide) (htest rfl)

end

/-! ## Results as register states -/

theorem bounds_ofTnum {t : Tnum} {x : BitVec 64} (h : t.Has x) : (ofTnum t).Bounds x where
  tnum := h
  umin := h.minValue_le
  umax := h.le_maxValue
  signed := within_of_le h.minValue_le h.le_maxValue

/-- **The tracked result of a scalar operation allows the machine's.** -/
theorem bounds_scalarAlu {dst src : RegState} {op : AluOp} {is64 : Bool} {x y : BitVec 64}
    (hx : dst.tnum.Has x) (hy : src.tnum.Has y)
    (hex : scalarExact dst.tnum src.tnum op is64 = true)
    (hshift : op = .lsh ∨ op = .rsh ∨ op = .arsh → y.toNat ≤ (maxShift is64).toNat) :
    (scalarAlu dst src op is64).Bounds (aluBits is64 op x y) := by
  unfold scalarAlu aluBits
  refine RegState.Bounds.refineBounds (bounds_ofTnum ?_)
  cases is64
  · simp only [Bool.false_eq_true, if_false]
    exact has_aluTnum_trunc32 hx hy hex fun h => Nat.lt_succ_of_le (hshift h)
  · simp only [if_true]
    refine has_aluTnum hx hy (fun h => ?_) fun h => Nat.lt_succ_of_le (hshift h)
    subst h
    simpa [scalarExact] using hex

/-! ## 32-bit moves -/

/-- A 32-bit move truncates the bounds soundly: the upper half is already clear, or the bounds
allow every truncated word. -/
def mov32Exact (r : RegState) : Bool :=
  r.umax.ule U32_MAX || (r.umin = 0 && r.smin.sle 0 && (U32_MAX.sle r.smax || r.wrapped))

theorem toNat_and_U32_MAX (x : BitVec 64) : (x &&& 0xFFFFFFFF).toNat = x.toNat % 2 ^ 32 := by
  rw [← setWidth_setWidth_32]
  simp only [BitVec.toNat_setWidth]
  omega

/-- **A 32-bit move allows the truncated word.** -/
theorem bounds_mov32 {r : RegState} {x : BitVec 64} (h : r.Bounds x) (hex : mov32Exact r = true) :
    (mov32 r).Bounds (x &&& 0xFFFFFFFF) := by
  have hz := toNat_and_U32_MAX x
  have hU : U32_MAX.toNat = 2 ^ 32 - 1 := by decide
  have hUi : U32_MAX.toInt = 2 ^ 32 - 1 := by decide
  have h0 : BitVec.toInt (0 : BitVec 64) = 0 := rfl
  have hzi := toInt_eq_of_lt (x := x &&& 0xFFFFFFFF) (by omega)
  have hlo := h.umin
  have hhi := h.umax
  simp only [mov32Exact, Bool.or_eq_true, Bool.and_eq_true, BitVec.ule_eq_decide,
    BitVec.sle_eq_decide, decide_eq_true_eq, RegState.wrapped_iff] at hex
  have humax : (x &&& 0xFFFFFFFF).toNat ≤ (mov32 r).umax.toNat := by
    simp only [mov32, toNat_minU]
    omega
  rcases hex with hle | ⟨⟨hmin, hsmin⟩, hsmax⟩
  · have hx : x &&& 0xFFFFFFFF = x := BitVec.eq_of_toNat_eq (by omega)
    rw [hx] at humax hzi
    have hsigned := (h.signed.maxS (l := 0) (by omega)).minS (h := U32_MAX) (by omega)
    exact ⟨h.tnum.trunc32, by rw [hx]; exact hlo, by rw [hx]; exact humax,
      by rw [hx]; exact hsigned⟩
  · refine ⟨h.tnum.trunc32, ?_, humax, ?_⟩
    · change r.umin.toNat ≤ _
      rw [hmin]
      exact Nat.zero_le _
    · have hsmin' : (maxS r.smin 0).toInt = 0 := by
        rw [toInt_maxS]
        omega
      have hsminN : (maxS r.smin 0).toNat = 0 := by
        rcases toInt_cases (maxS r.smin 0) with ⟨_, _⟩ | ⟨_, _, _⟩ <;> omega
      change Within (maxS r.smin 0) (minS r.smax U32_MAX) _
      rcases hsmax with hwide | ⟨-, hneg⟩
      · refine Or.inl ⟨by omega, ?_⟩
        rw [toInt_minS]
        omega
      · have hsmax' : minS r.smax U32_MAX = r.smax := by
          rw [minS, BitVec.sle_eq_decide, if_pos (decide_eq_true (by omega))]
        rw [hsmax']
        refine Or.inr ⟨by omega, hneg, by omega, ?_⟩
        rcases toInt_cases r.smax with ⟨_, _⟩ | ⟨_, _, _⟩ <;> omega

end BpfVerifier
