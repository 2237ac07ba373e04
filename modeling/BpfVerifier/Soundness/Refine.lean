import BpfVerifier.Soundness.Alu
import BpfVerifier.Soundness.Reading

/-!
# Soundness/Refine — narrowing scalars on the edges of a branch

On each edge of a comparison with a known value the narrowed bounds allow every word the comparison
sends there, in either reading of the bounds.  The one exception is a signed 32-bit comparison that
lowers the upper bound of a value whose upper half is clear and whose bit 31 is set
(`boundedAbove`, `signed32Exact`): it is narrowed as a 64-bit number, and compared as a negative
one.
-/

namespace BpfVerifier

open Word

variable {P : RegState → BitVec 64 → Prop} {r : RegState} {x val : BitVec 64}

/-- Both edges of a comparison that came out as `taken`. -/
def EdgeBounds (edges : RegState × RegState) (taken : Bool) (x : BitVec 64) : Prop :=
  (taken = true → edges.1.Bounds x) ∧ (taken = false → edges.2.Bounds x)

/-- The same, in any reading of the bounds. -/
def EdgeHolds (P : RegState → BitVec 64 → Prop) (edges : RegState × RegState) (taken : Bool)
    (x : BitVec 64) : Prop :=
  (taken = true → P edges.1 x) ∧ (taken = false → P edges.2 x)

/-! ## Bit tests -/

/-- A word with a single bit set: any two set bits are the same. -/
theorem eq_of_countOnes (h : countOnes val = 1) {i j : ℕ} (hi : val.getLsbD i = true)
    (hj : val.getLsbD j = true) : i = j := by
  rw [countOnes, List.countP_eq_length_filter, List.length_eq_one_iff] at h
  obtain ⟨a, ha⟩ := h
  have hmem (k : ℕ) (hk : val.getLsbD k = true) : k = a := by
    have : k ∈ (List.range 64).filter fun i => val.getLsbD i :=
      List.mem_filter.mpr ⟨List.mem_range.mpr (BitVec.lt_of_getLsbD hk), hk⟩
    rw [ha] at this
    exact List.mem_singleton.mp this
  rw [hmem i hi, hmem j hj]

/-- Where the tested bits are all clear they are known to be. -/
theorem Tnum.Has.clearBits {t : Tnum} (h : t.Has x) (hx : x &&& val = 0) :
    (⟨t.value &&& ~~~val, t.mask &&& ~~~val⟩ : Tnum).Has x := by
  rw [Tnum.has_iff] at *
  intro i hi
  have hbit := congrArg (fun z : BitVec 64 => z.getLsbD i) hx
  have hti := h i hi
  simp only [BitVec.getLsbD_and, BitVec.getLsbD_not, hi, decide_true, Bool.true_and,
    BitVec.ofNat_eq_ofNat, BitVec.getLsbD_zero] at hbit ⊢
  cases hv : val.getLsbD i <;> simp_all

/-- Where the only tested bit is set it is known to be. -/
theorem Tnum.Has.setBit {t : Tnum} (h : t.Has x) (hone : countOnes val = 1) (hx : x &&& val ≠ 0) :
    (⟨t.value ||| val, t.mask &&& ~~~val⟩ : Tnum).Has x := by
  obtain ⟨j, hj⟩ : ∃ j, (x &&& val).getLsbD j = true := by
    by_contra hnone
    refine hx (BitVec.eq_of_getLsbD_eq fun i _ => ?_)
    have := fun hi => hnone ⟨i, hi⟩
    simpa using this
  obtain ⟨hxj, hvj⟩ := Bool.and_eq_true_iff.mp (by simpa using hj)
  rw [Tnum.has_iff] at *
  intro i hi
  have hti := h i hi
  simp only [BitVec.getLsbD_or, BitVec.getLsbD_and, BitVec.getLsbD_not, hi, decide_true,
    Bool.true_and]
  cases hv : val.getLsbD i
  · simp [hti]
  · obtain rfl := eq_of_countOnes hone hv hvj
    simp [hxj]

/-- The bounds of a refined tnum. -/
theorem Reading.withTnumBounds (hP : Reading P) (h : P r x) {t : Tnum} (ht : t.Has x) :
    P { r with
      tnum := t
      umin := maxU r.umin t.minValue
      umax := minU r.umax t.maxValue } x :=
  hP.lowerUmax (hP.raiseUmin (hP.withTnum h ht) ht.minValue_le) ht.le_maxValue

/-! ## 64-bit comparisons -/

/-- **A 64-bit comparison narrows each edge to words it sends there.** -/
theorem Reading.edges64 (hP : Reading P) (h : P r x) (op : JmpOp) :
    EdgeHolds P (refineScalar64 r r op val) (compare op x val) x := by
  cases op with
  | ja => exact ⟨fun _ => h, fun _ => h⟩
  | jeq =>
    refine ⟨fun ht => ?_, fun _ => h⟩
    obtain rfl : x = val := by simpa [compare] using ht
    exact hP.scalarValue x
  | jne =>
    refine ⟨fun _ => h, fun hf => ?_⟩
    obtain rfl : x = val := by simpa [compare] using hf
    exact hP.scalarValue x
  | jgt =>
    simp only [EdgeHolds, compare, refineScalar64, BitVec.ult_eq_decide, decide_eq_true_eq,
      decide_eq_false_iff_not]
    exact ⟨fun ht => hP.refineBounds (hP.raiseUmin h (succU_le_of_lt ht)),
      fun hf => hP.refineBounds (hP.lowerUmax h (by omega))⟩
  | jge =>
    simp only [EdgeHolds, compare, refineScalar64, BitVec.ule_eq_decide, decide_eq_true_eq,
      decide_eq_false_iff_not]
    exact ⟨fun ht => hP.refineBounds (hP.raiseUmin h ht),
      fun hf => hP.refineBounds (hP.lowerUmax h (le_predU_of_lt (by omega)))⟩
  | jlt =>
    simp only [EdgeHolds, compare, refineScalar64, BitVec.ult_eq_decide, decide_eq_true_eq,
      decide_eq_false_iff_not]
    exact ⟨fun ht => hP.refineBounds (hP.lowerUmax h (le_predU_of_lt ht)),
      fun hf => hP.refineBounds (hP.raiseUmin h (by omega))⟩
  | jle =>
    simp only [EdgeHolds, compare, refineScalar64, BitVec.ule_eq_decide, decide_eq_true_eq,
      decide_eq_false_iff_not]
    exact ⟨fun ht => hP.refineBounds (hP.lowerUmax h ht),
      fun hf => hP.refineBounds (hP.raiseUmin h (succU_le_of_lt (by omega)))⟩
  | jsgt =>
    simp only [EdgeHolds, compare, refineScalar64, BitVec.slt_eq_decide, decide_eq_true_eq,
      decide_eq_false_iff_not]
    exact ⟨fun ht => hP.refineBounds (hP.raiseSmin h (succS_le_of_lt ht)),
      fun hf => hP.refineBounds (hP.lowerSmax h (by omega))⟩
  | jsge =>
    simp only [EdgeHolds, compare, refineScalar64, BitVec.sle_eq_decide, decide_eq_true_eq,
      decide_eq_false_iff_not]
    exact ⟨fun ht => hP.refineBounds (hP.raiseSmin h ht),
      fun hf => hP.refineBounds (hP.lowerSmax h (le_predS_of_lt (by omega)))⟩
  | jslt =>
    simp only [EdgeHolds, compare, refineScalar64, BitVec.slt_eq_decide, decide_eq_true_eq,
      decide_eq_false_iff_not]
    exact ⟨fun ht => hP.refineBounds (hP.lowerSmax h (le_predS_of_lt ht)),
      fun hf => hP.refineBounds (hP.raiseSmin h (by omega))⟩
  | jsle =>
    simp only [EdgeHolds, compare, refineScalar64, BitVec.sle_eq_decide, decide_eq_true_eq,
      decide_eq_false_iff_not]
    exact ⟨fun ht => hP.refineBounds (hP.lowerSmax h ht),
      fun hf => hP.refineBounds (hP.raiseSmin h (succS_le_of_lt (by omega)))⟩
  | jset =>
    simp only [EdgeHolds, compare, refineScalar64, decide_eq_true_eq, decide_eq_false_iff_not,
      not_not]
    refine ⟨fun ht => ?_, fun hf => ?_⟩
    · split
      · next hone => exact hP.refineBounds (hP.withTnumBounds h ((hP.tnum h).setBit hone ht))
      · exact h
    · have htn := (hP.tnum h).clearBits hf
      exact hP.refineBounds
        (hP.raiseUmin (hP.lowerUmax (hP.withTnum h htn) htn.le_maxValue) htn.minValue_le)

theorem bounds_refineScalar64 (h : r.Bounds x) (op : JmpOp) :
    EdgeBounds (refineScalar64 r r op val) (compare op x val) x :=
  reading_bounds.edges64 h op

/-! ## 32-bit comparisons -/

/-- A signed 32-bit comparison agrees with the 64-bit bounds: the upper half is not known to be
clear, or bit 31 is. -/
def signed32Exact (r : RegState) : Bool := !r.umax.ule U32_MAX || r.umax.ult 0x80000000

/-- The signed comparisons. -/
def JmpOp.isSigned : JmpOp → Bool
  | .jsgt | .jsge | .jslt | .jsle => true
  | _ => false

/-- The edge of a signed comparison on which the signed upper bound is lowered. -/
def boundedAbove : JmpOp → Bool → Bool
  | .jsgt, false | .jsge, false | .jslt, true | .jsle, true => true
  | _, _ => false

theorem isSigned_of_boundedAbove {op : JmpOp} {taken : Bool} (h : boundedAbove op taken = true) :
    op.isSigned = true := by
  cases op <;> cases taken <;> first | rfl | cases h

theorem toNat_U32_MAX : U32_MAX.toNat = 2 ^ 32 - 1 := by decide

theorem toNat_and_U32 (v : BitVec 64) : (v &&& U32_MAX).toNat = v.toNat % 2 ^ 32 :=
  toNat_and_U32_MAX v

/-- A word known to be in the 32-bit domain reads the same on 32 bits. -/
theorem Reading.lt_of_umax (hP : Reading P) (h : P r x) (hu : r.umax.ule U32_MAX = true) :
    x.toNat < 2 ^ 32 ∧ (x.setWidth 32).toNat = x.toNat := by
  have := hP.umax h
  have hU := toNat_U32_MAX
  simp only [BitVec.ule_eq_decide, decide_eq_true_eq] at hu
  rw [BitVec.toNat_setWidth]
  omega

/-- The signed reading of a word in the 32-bit domain: at most the word, and the word itself where
bit 31 is clear. -/
theorem toInt_setWidth_le (h : x.toNat < 2 ^ 32) :
    (x.setWidth 32).toInt ≤ x.toInt ∧ (x.toNat < 2 ^ 31 → (x.setWidth 32).toInt = x.toInt) := by
  rw [toInt_eq_of_lt (x := x) (by omega), BitVec.toInt_eq_toNat_cond, BitVec.toNat_setWidth]
  split <;> omega

theorem Reading.clampMin (hP : Reading P) (h : P r x) {lo : BitVec 64}
    (hlo : (x.setWidth 32).toNat = x.toNat → lo.toNat ≤ x.toNat) :
    P (clampU32BoundsMin r lo).refineBounds x := by
  unfold clampU32BoundsMin
  split
  · next hu => exact hP.refineBounds (hP.raiseUmin h (hlo (hP.lt_of_umax h hu).2))
  · exact hP.refineBounds h

theorem Reading.clampMax (hP : Reading P) (h : P r x) {hi : BitVec 64}
    (hhi : (x.setWidth 32).toNat = x.toNat → x.toNat ≤ hi.toNat) :
    P (clampU32BoundsMax r hi).refineBounds x := by
  unfold clampU32BoundsMax
  split
  · next hu => exact hP.refineBounds (hP.lowerUmax h (hhi (hP.lt_of_umax h hu).2))
  · exact hP.refineBounds h

/-- A signed lower bound of the low half is one of the word, whatever bit 31 is. -/
theorem Reading.clampSMin (hP : Reading P) (h : P r x) {lo : BitVec 64}
    (hlo : lo.toInt ≤ (x.setWidth 32).toInt) : P (clampS32Min r lo) x := by
  unfold clampS32Min
  split
  · next hu =>
    have hle := (toInt_setWidth_le (hP.lt_of_umax h hu).1).1
    exact hP.refineBounds (hP.raiseSmin h (Int.le_trans hlo hle))
  · exact h

/-- A signed upper bound of the low half is one of a word whose bit 31 is clear. -/
theorem Reading.clampSMax (hP : Reading P) (h : P r x)
    (hex : r.umax.ule U32_MAX = true → x.toNat < 2 ^ 31) {hi : BitVec 64}
    (hhi : (x.setWidth 32).toInt ≤ hi.toInt) : P (clampS32Max r hi) x := by
  unfold clampS32Max
  split
  · next hu =>
    have heq := (toInt_setWidth_le (hP.lt_of_umax h hu).1).2 (hex hu)
    exact hP.refineBounds (hP.lowerSmax h (heq ▸ hhi))
  · exact h

/-- The low half of a word, pinned. -/
theorem Reading.pinLow32 (hP : Reading P) (h : P r x) (heq : x.setWidth 32 = val.setWidth 32) :
    P (BpfVerifier.pinLow32 r (val &&& U32_MAX)) x := by
  have htnum : (⟨(r.tnum.value &&& ~~~U32_MAX) ||| (val &&& U32_MAX),
      r.tnum.mask &&& ~~~U32_MAX⟩ : Tnum).Has x := by
    rw [Tnum.has_iff]
    intro i hi
    have hti := Tnum.has_iff.mp (hP.tnum h) i hi
    have hbit := congrArg (fun z : BitVec 32 => z.getLsbD i) heq
    have hmask : U32_MAX.getLsbD i = decide (i < 32) := by
      rw [show U32_MAX = (BitVec.allOnes 32).setWidth 64 by decide, BitVec.getLsbD_setWidth,
        BitVec.getLsbD_allOnes, decide_eq_true hi, Bool.true_and]
    simp only [BitVec.getLsbD_setWidth] at hbit
    simp only [BitVec.getLsbD_or, BitVec.getLsbD_and, BitVec.getLsbD_not, hi, decide_true,
      Bool.true_and, hmask, hti]
    generalize decide (i < 32) = low at hbit ⊢
    cases low
    · simp
    · simpa using hbit.symm
  unfold BpfVerifier.pinLow32
  refine hP.refineBounds ?_
  unfold clampU32Bounds
  split
  · next hu =>
    have hx := (hP.lt_of_umax h hu).1
    have hval := congrArg BitVec.toNat heq
    simp only [BitVec.toNat_setWidth] at hval
    have hlow := toNat_and_U32 val
    exact hP.lowerUmax (hP.raiseUmin (hP.withTnum h htnum) (by omega)) (by omega)
  · exact hP.withTnum h htnum

/-- The signed reading of the compared low half. -/
theorem toInt_sval (val : BitVec 64) :
    (((val &&& U32_MAX).setWidth 32).signExtend 64).toInt = (val.setWidth 32).toInt := by
  rw [BitVec.toInt_signExtend_of_le (by decide)]
  congr 1
  apply BitVec.eq_of_toNat_eq
  simp only [BitVec.toNat_setWidth, toNat_and_U32]
  omega

/-- A signed bound that the low half exceeds or stays below, moved by one. -/
theorem succS_le_toInt {a : BitVec 64} {y : BitVec 32} (h : a.toInt < y.toInt) :
    (succS a).toInt ≤ y.toInt := by
  have hy : (y.signExtend 64).toInt = y.toInt := BitVec.toInt_signExtend_of_le (by decide)
  rw [← hy] at h ⊢
  exact succS_le_of_lt h

theorem toInt_le_predS {a : BitVec 64} {y : BitVec 32} (h : y.toInt < a.toInt) :
    y.toInt ≤ (predS a).toInt := by
  have hy : (y.signExtend 64).toInt = y.toInt := BitVec.toInt_signExtend_of_le (by decide)
  rw [← hy] at h ⊢
  exact le_predS_of_lt h

/-- The 32-bit bit test reads the low half. -/
theorem and_low_eq_zero_iff :
    x.setWidth 32 &&& val.setWidth 32 = 0 ↔ x &&& (val &&& U32_MAX) = 0 := by
  rw [← BitVec.setWidth_and, ← BitVec.toNat_inj, ← BitVec.toNat_inj, ← BitVec.and_assoc,
    toNat_and_U32, BitVec.toNat_setWidth]
  rfl

/-- **A 32-bit comparison narrows each edge to words it sends there**, where a signed upper bound is
lowered for words whose bit 31 is clear only. -/
theorem Reading.edges32 (hP : Reading P) (h : P r x) (op : JmpOp)
    (hex : boundedAbove op (compare op (x.setWidth 32) (val.setWidth 32)) = true →
      r.umax.ule U32_MAX = true → x.toNat < 2 ^ 31) :
    EdgeHolds P (refineScalar32 r r op val) (compare op (x.setWidth 32) (val.setWidth 32)) x := by
  have hlow := toNat_and_U32 val
  have hv : (val.setWidth 32).toNat = val.toNat % 2 ^ 32 := BitVec.toNat_setWidth ..
  have hs := toInt_sval val
  cases op with
  | ja => exact ⟨fun _ => h, fun _ => h⟩
  | jeq =>
    simp only [EdgeHolds, compare, refineScalar32, decide_eq_true_eq]
    exact ⟨fun ht => hP.pinLow32 h ht, fun _ => h⟩
  | jne =>
    simp only [EdgeHolds, compare, refineScalar32, ne_eq, decide_eq_false_iff_not, not_not]
    exact ⟨fun _ => h, fun hf => hP.pinLow32 h hf⟩
  | jgt =>
    simp only [EdgeHolds, compare, refineScalar32, BitVec.ult_eq_decide, decide_eq_true_eq,
      decide_eq_false_iff_not]
    exact ⟨fun ht => hP.clampMin h fun hx => succU_le_of_lt (by omega),
      fun hf => hP.clampMax h fun hx => by omega⟩
  | jge =>
    simp only [EdgeHolds, compare, refineScalar32, BitVec.ule_eq_decide, decide_eq_true_eq,
      decide_eq_false_iff_not]
    exact ⟨fun ht => hP.clampMin h fun hx => by omega,
      fun hf => hP.clampMax h fun hx => le_predU_of_lt (by omega)⟩
  | jlt =>
    simp only [EdgeHolds, compare, refineScalar32, BitVec.ult_eq_decide, decide_eq_true_eq,
      decide_eq_false_iff_not]
    exact ⟨fun ht => hP.clampMax h fun hx => le_predU_of_lt (by omega),
      fun hf => hP.clampMin h fun hx => by omega⟩
  | jle =>
    simp only [EdgeHolds, compare, refineScalar32, BitVec.ule_eq_decide, decide_eq_true_eq,
      decide_eq_false_iff_not]
    exact ⟨fun ht => hP.clampMax h fun hx => by omega,
      fun hf => hP.clampMin h fun hx => succU_le_of_lt (by omega)⟩
  | jsgt =>
    refine ⟨fun ht => hP.clampSMin h (succS_le_toInt ?_),
      fun hf => hP.clampSMax h (hex (by rw [hf]; rfl)) ?_⟩
    · simp only [compare, BitVec.slt_eq_decide, decide_eq_true_eq] at ht
      omega
    · simp only [compare, BitVec.slt_eq_decide, decide_eq_false_iff_not] at hf
      omega
  | jsge =>
    refine ⟨fun ht => hP.clampSMin h ?_,
      fun hf => hP.clampSMax h (hex (by rw [hf]; rfl)) (toInt_le_predS ?_)⟩
    · simp only [compare, BitVec.sle_eq_decide, decide_eq_true_eq] at ht
      omega
    · simp only [compare, BitVec.sle_eq_decide, decide_eq_false_iff_not] at hf
      omega
  | jslt =>
    refine ⟨fun ht => hP.clampSMax h (hex (by rw [ht]; rfl)) (toInt_le_predS ?_),
      fun hf => hP.clampSMin h ?_⟩
    · simp only [compare, BitVec.slt_eq_decide, decide_eq_true_eq] at ht
      omega
    · simp only [compare, BitVec.slt_eq_decide, decide_eq_false_iff_not] at hf
      omega
  | jsle =>
    refine ⟨fun ht => hP.clampSMax h (hex (by rw [ht]; rfl)) ?_,
      fun hf => hP.clampSMin h (succS_le_toInt ?_)⟩
    · simp only [compare, BitVec.sle_eq_decide, decide_eq_true_eq] at ht
      omega
    · simp only [compare, BitVec.sle_eq_decide, decide_eq_false_iff_not] at hf
      omega
  | jset =>
    simp only [EdgeHolds, compare, refineScalar32, decide_eq_true_eq, decide_eq_false_iff_not,
      ne_eq, not_not, and_low_eq_zero_iff]
    refine ⟨fun ht => ?_, fun hf => ?_⟩
    · split
      · next hone =>
        have htn := (hP.tnum h).setBit hone ht
        refine hP.refineBounds ?_
        split
        · exact hP.withTnumBounds h htn
        · exact hP.withTnum h htn
      · exact h
    · have htn := (hP.tnum h).clearBits hf
      refine hP.refineBounds ?_
      split
      · exact hP.raiseUmin (hP.lowerUmax (hP.withTnum h htn) htn.le_maxValue) htn.minValue_le
      · exact hP.withTnum h htn

theorem bounds_refineScalar32 (h : r.Bounds x) (op : JmpOp)
    (hex : op.isSigned = true → signed32Exact r = true) :
    EdgeBounds (refineScalar32 r r op val) (compare op (x.setWidth 32) (val.setWidth 32)) x := by
  refine reading_bounds.edges32 h op fun hop hu => ?_
  have hclear := hex (isSigned_of_boundedAbove hop)
  simp only [signed32Exact, hu, Bool.not_true, Bool.false_or, BitVec.ult_eq_decide,
    decide_eq_true_eq] at hclear
  exact Nat.lt_of_le_of_lt h.umax hclear

end BpfVerifier
