import BpfVerifier.Soundness.Alu
import BpfVerifier.Soundness.Reading
import BpfVerifier.Soundness.WellFormed

/-!
# Soundness/Results — the words an ALU result allows

The register a scalar operation leaves takes all its bounds from one tnum, the signed ones too.
Read as recorded they allow a word of the tnum as long as bit 63 is known, and no word at all
otherwise (`admits_ofTnum_iff`).  When that is, is told from the operands (`signKnown`), and so is
when a difference or a truncated result is a word of its tnum (`SubAgrees`, `truncatesAlike`).
-/

namespace BpfVerifier

open Word

/-! ## The bounds of a tnum -/

theorem msb_iff {x : BitVec 64} : x.msb = true ↔ 2 ^ 63 ≤ x.toNat := by
  rw [BitVec.msb_eq_decide, decide_eq_true_eq]

theorem msb_eq_getLsbD (x : BitVec 64) : x.msb = x.getLsbD 63 := BitVec.msb_eq_getLsbD_last x

section

variable {t : Tnum} {x : BitVec 64}

/-- A tnum that knows bit 63 bounds its words in the signed order too. -/
theorem admits_ofTnum (h : t.Has x) (hs : t.mask.msb = false) : (ofTnum t).Admits x := by
  have hmin := h.minValue_le
  have hmax := h.le_maxValue
  -- both extremes are on the same side of the sign boundary
  have hside : (2 ^ 63 ≤ t.minValue.toNat ↔ 2 ^ 63 ≤ t.maxValue.toNat) := by
    rw [← msb_iff, ← msb_iff]
    simp [Tnum.minValue, Tnum.maxValue, hs]
  refine ⟨h, hmin, hmax, ?_, ?_⟩
  · change t.minValue.toInt ≤ x.toInt
    rcases toInt_cases t.minValue with ⟨_, _⟩ | ⟨_, _, _⟩ <;>
      rcases toInt_cases x with ⟨_, _⟩ | ⟨_, _, _⟩ <;> omega
  · change x.toInt ≤ t.maxValue.toInt
    rcases toInt_cases t.maxValue with ⟨_, _⟩ | ⟨_, _, _⟩ <;>
      rcases toInt_cases x with ⟨_, _⟩ | ⟨_, _, _⟩ <;> omega

theorem maxU_self (a : BitVec 64) : maxU a a = a := by simp [maxU]

theorem minU_self (a : BitVec 64) : minU a a = a := by simp [minU]

theorem maxS_self (a : BitVec 64) : maxS a a = a := by simp [maxS]

theorem minS_self (a : BitVec 64) : minS a a = a := by simp [minS]

/-- The extremes of a tnum that does not know bit 63. -/
theorem Tnum.Wf.straddles (hw : t.Wf) (hs : t.mask.msb = true) :
    t.minValue.toNat < 2 ^ 63 ∧ 2 ^ 63 ≤ t.maxValue.toNat := by
  have hval : t.value.msb = false := by
    rw [msb_eq_getLsbD] at hs ⊢
    exact Tnum.wf_iff.mp hw 63 (by decide) hs
  rw [← msb_iff, ← Nat.not_le, ← msb_iff]
  simp [Tnum.minValue, Tnum.maxValue, hval, hs]

/-- **Bounds taken from a tnum are left as they are**: they are the extremes already, and the range
collapses only if the tnum is a constant. -/
theorem refineBounds_ofTnum (hw : t.Wf) : (ofTnum t).refineBounds = ofTnum t := by
  have hconst (h : t.minValue = t.maxValue) : t = .constant t.minValue := by
    have hmask : t.mask = 0 := BitVec.add_right_eq_self.mp (hw.add_eq_max.trans h.symm)
    exact congrArg (Tnum.mk t.value) hmask
  have h₁ : (ofTnum t).refineFromTnum = ofTnum t := by
    simp only [RegState.refineFromTnum, ofTnum, maxU_self, minU_self]
  have h₂ : (ofTnum t).refineTnum = ofTnum t := by
    unfold RegState.refineTnum
    split
    · next h => exact congrArg (fun u => { ofTnum t with tnum := u }) (hconst h).symm
    · rfl
  have h₃ : (ofTnum t).refineSigned = ofTnum t := by
    unfold RegState.refineSigned
    split
    · simp only [ofTnum, maxS_self, minS_self]
    · rfl
  have h₄ : (ofTnum t).refineUnsigned = ofTnum t := by
    unfold RegState.refineUnsigned
    split
    · simp only [ofTnum, maxU_self, minU_self]
    · rfl
  have h₅ : (ofTnum t).refineCollapse = ofTnum t := by
    unfold RegState.refineCollapse
    split
    · next h =>
      have hmax : t.minValue = t.maxValue := h
      simp only [ofTnum, ← hmax, ← hconst hmax]
    · rfl
  rw [RegState.refineBounds, h₁, h₂, h₃, h₄, h₅]

/-- **The words an ALU result allows**: those of its tnum if bit 63 is known, else none. -/
theorem admits_ofTnum_iff (hw : t.Wf) :
    (ofTnum t).refineBounds.Admits x ↔ t.Has x ∧ t.mask.msb = false := by
  constructor
  · intro h
    cases hs : t.mask.msb with
    | true =>
      rw [refineBounds_ofTnum hw] at h
      obtain ⟨hmin, hmax⟩ := hw.straddles hs
      have hlo : t.minValue.toInt ≤ x.toInt := h.smin
      have hhi : x.toInt ≤ t.maxValue.toInt := h.smax
      rw [toInt_eq_of_lt hmin] at hlo
      rw [toInt_eq_of_ge hmax] at hhi
      have := t.maxValue.isLt
      omega
    | false => exact ⟨((admits_ofTnum hw.has_value hs).of_refineBounds h).tnum, rfl⟩
  · rintro ⟨h, hs⟩
    exact (admits_ofTnum h hs).refineBounds

/-- A truncated tnum knows bit 63. -/
theorem msb_mask_trunc32 (t : Tnum) : t.trunc32.mask.msb = false := by
  rw [Tnum.trunc32, BitVec.msb_and, show (0xFFFFFFFF : BitVec 64).msb = false by decide,
    Bool.and_false]

@[simp] theorem msb_mask_unknown : Tnum.unknown.mask.msb = true := by decide

end

/-! ## When bit 63 of a result is known -/

namespace Tnum

/-- The bits of a difference that `sub` leaves open: those unknown in an operand, and those that
change when both masks are added to the difference of the known parts. -/
def openBits (a b : Tnum) : BitVec 64 :=
  (a.value - b.value + (a.mask + b.mask)) ^^^ (a.value - b.value) ||| a.mask ||| b.mask

/-- The difference of two words has, among the bits `m`, the bits `sub` records. -/
def SubAgrees (a b : Tnum) (x y m : BitVec 64) : Prop :=
  (x - y) &&& ~~~a.openBits b &&& m = (a.value - b.value) &&& ~~~a.openBits b &&& m

instance (a b : Tnum) (x y m : BitVec 64) : Decidable (a.SubAgrees b x y m) :=
  inferInstanceAs (Decidable (_ = _))

theorem sub_eq (a b : Tnum) :
    a.sub b = ⟨(a.value - b.value) &&& ~~~a.openBits b, a.openBits b⟩ := by
  simp only [Tnum.sub, Tnum.add, openBits, BitVec.sub_eq_add_neg]

theorem has_sub_iff {a b : Tnum} {x y : BitVec 64} :
    (a.sub b).Has (x - y) ↔ a.SubAgrees b x y (BitVec.allOnes 64) := by
  rw [sub_eq, SubAgrees, BitVec.and_allOnes, BitVec.and_allOnes]
  rfl

end Tnum

/-- **Bit 63 of a 64-bit result is known**, told from the operands. -/
def signKnown (op : AluOp) (a b : Tnum) : Bool :=
  match op with
  | .mov | .neg => true
  | .add =>
    !(a.mask ||| b.mask).msb && (a.minValue + b.minValue).msb = (a.maxValue + b.maxValue).msb
  | .sub => !(a.openBits b).msb
  | .and => (a.minValue &&& b.minValue).msb || !(a.maxValue &&& b.maxValue).msb
  | .or => (a.minValue ||| b.minValue).msb || !(a.mask ||| b.mask).msb
  | .xor => !(a.mask ||| b.mask).msb
  | .lsh => b.isKnown && !(a.mask <<< b.value.toNat).msb
  | .rsh => b.isKnown && !(a.mask >>> b.value.toNat).msb
  | .mul | .div | .mod | .arsh => a.isKnown && b.isKnown

section

variable {op : AluOp} {a b : Tnum} {x y : BitVec 64}

/-- **`signKnown` tells whether the tracked result knows bit 63.** -/
theorem msb_mask_aluTnum (ha : a.Wf) (hb : b.Has y) (hmov : op ≠ .mov) (hneg : op ≠ .neg)
    (hshift : op = .lsh ∨ op = .rsh ∨ op = .arsh → y.toNat < 64)
    (hdiv : op = .div ∨ op = .mod → y ≠ 0) :
    (aluTnum op a b).mask.msb = false ↔ signKnown op a b = true := by
  have hboth (hop : op = .mul ∨ op = .div ∨ op = .mod ∨ op = .arsh) :
      (aluTnum op a b).mask.msb = false ↔ (a.isKnown && b.isKnown) = true := by
    rw [Bool.and_eq_true]
    by_cases hk : a.isKnown = true ∧ b.isKnown = true
    · rw [aluTnum_of_isKnown hop (fun h => hb.eq_of_isKnown hk.2 ▸ hdiv h) hk.1 hk.2]
      simp [hk, Tnum.constant]
    · simp [aluTnum_eq_unknown hop hk, hk]
  cases op with
  | mov => exact absurd rfl hmov
  | neg => exact absurd rfl hneg
  | add =>
    have hsum : a.value + b.value + (a.mask + b.mask) = a.maxValue + b.maxValue := by
      rw [← ha.add_eq_max, ← hb.wf.add_eq_max]
      ac_rfl
    have hbool (p q u v : Bool) :
        ((u ^^ v) || p || q) = false ↔ (!(p || q) && decide (v = u)) = true := by
      revert p q u v
      decide
    simp only [aluTnum, Tnum.add, hsum, signKnown, Tnum.minValue, BitVec.msb_or, BitVec.msb_xor]
    exact hbool _ _ _ _
  | sub => simp [aluTnum, Tnum.sub_eq, signKnown]
  | and =>
    simp only [aluTnum, Tnum.and, signKnown, Tnum.minValue, Tnum.maxValue, BitVec.msb_and,
      BitVec.msb_or, BitVec.msb_not]
    cases a.value.msb <;> cases b.value.msb <;> cases a.mask.msb <;> cases b.mask.msb <;> decide
  | or =>
    simp only [aluTnum, Tnum.or, signKnown, Tnum.minValue, BitVec.msb_and, BitVec.msb_or,
      BitVec.msb_not]
    cases a.value.msb <;> cases b.value.msb <;> cases a.mask.msb <;> cases b.mask.msb <;> decide
  | xor => simp [aluTnum, Tnum.xor, signKnown]
  | lsh =>
    have hlt := hshift (by decide)
    cases hk : b.isKnown
    · simp [aluTnum, signKnown, hk, Tnum.knownValue_of_not_isKnown hk]
    · rw [hb.eq_of_isKnown hk] at hlt
      simp only [aluTnum, signKnown, hk, Tnum.knownValue_of_isKnown hk, Tnum.lsh,
        toNat_setWidth_of_lt hlt, if_neg (Nat.not_le.mpr hlt), Bool.true_and, Bool.not_eq_true']
  | rsh =>
    have hlt := hshift (by decide)
    cases hk : b.isKnown
    · simp [aluTnum, signKnown, hk, Tnum.knownValue_of_not_isKnown hk]
    · rw [hb.eq_of_isKnown hk] at hlt
      simp only [aluTnum, signKnown, hk, Tnum.knownValue_of_isKnown hk, Tnum.rsh,
        toNat_setWidth_of_lt hlt, if_neg (Nat.not_le.mpr hlt), Bool.true_and, Bool.not_eq_true']
  | mul => exact hboth (by decide)
  | div => exact hboth (by decide)
  | mod => exact hboth (by decide)
  | arsh => exact hboth (by decide)

/-- **The words a 64-bit result allows**, told from the operands. -/
theorem admits_scalarAlu64_iff {dst src : RegState} (ha : dst.tnum.Has x) (hb : src.tnum.Has y)
    (hmov : op ≠ .mov) (hneg : op ≠ .neg)
    (hshift : op = .lsh ∨ op = .rsh ∨ op = .arsh → y.toNat < 64)
    (hdiv : op = .div ∨ op = .mod → y ≠ 0) :
    (scalarAlu dst src op true).Admits (aluWord op x y) ↔
      signKnown op dst.tnum src.tnum = true ∧
        (op = .sub → dst.tnum.SubAgrees src.tnum x y (BitVec.allOnes 64)) := by
  have hhas : (aluTnum op dst.tnum src.tnum).Has (aluWord op x y) ↔
      (op = .sub → dst.tnum.SubAgrees src.tnum x y (BitVec.allOnes 64)) := by
    by_cases hsub : op = .sub
    · subst hsub
      simp only [aluTnum, aluWord, Tnum.has_sub_iff, forall_const]
    · simp only [hsub, false_implies, iff_true]
      exact has_aluTnum ha hb (fun h => absurd h hsub) hshift
  change (ofTnum (aluTnum op dst.tnum src.tnum)).refineBounds.Admits _ ↔ _
  rw [admits_ofTnum_iff (wf_aluTnum op ha.wf), hhas,
    msb_mask_aluTnum ha.wf hb hmov hneg hshift hdiv, and_comm]

/-! ## When a truncated result is exact -/

/-- **A truncated result is the 32-bit one**, told from the operands. -/
def truncatesAlike (op : AluOp) (a b : Tnum) (x y : BitVec 64) : Prop :=
  match op with
  | .sub => a.SubAgrees b x y 0xFFFFFFFF
  | .div | .mod | .arsh => a.isKnown = true → b.isKnown = true → truncates op x y = true
  | .rsh => b.isKnown = true → truncates .rsh a.value y = true
  | _ => True

instance (op : AluOp) (a b : Tnum) (x y : BitVec 64) : Decidable (truncatesAlike op a b x y) := by
  unfold truncatesAlike
  split <;> infer_instance

/-- Membership of a low half is about the low bits. -/
theorem has_trunc32_iff {t : Tnum} {z : BitVec 64} :
    t.trunc32.Has (z &&& 0xFFFFFFFF) ↔ z &&& ~~~t.mask &&& 0xFFFFFFFF = t.value &&& 0xFFFFFFFF := by
  have hleft : (z &&& 0xFFFFFFFF) &&& ~~~t.trunc32.mask = z &&& ~~~t.mask &&& 0xFFFFFFFF := by
    apply BitVec.eq_of_getLsbD_eq
    intro i hi
    simp only [Tnum.trunc32, BitVec.getLsbD_and, BitVec.getLsbD_not, hi, decide_true,
      Bool.true_and]
    cases z.getLsbD i <;> cases t.mask.getLsbD i <;> simp
  rw [Tnum.Has, hleft]
  rfl

theorem has_sub_trunc32_iff :
    (a.sub b).trunc32.Has ((x - y) &&& 0xFFFFFFFF) ↔ a.SubAgrees b x y 0xFFFFFFFF := by
  rw [has_trunc32_iff, Tnum.sub_eq]
  rfl

/-- The low half of a shifted tnum: from the upper half no known one may be shifted in. -/
theorem has_rsh_trunc32_iff (ha : a.Has x) {k : ℕ} :
    (⟨a.value >>> k, a.mask >>> k⟩ : Tnum).trunc32.Has ((x.setWidth 32 >>> k).setWidth 64) ↔
      (a.value >>> k).setWidth 32 = a.value.setWidth 32 >>> k := by
  have hlow (i : ℕ) (hi : i < 64) : (0xFFFFFFFF : BitVec 64).getLsbD i = decide (i < 32) := by
    rw [show (0xFFFFFFFF : BitVec 64) = (BitVec.allOnes 32).setWidth 64 by decide,
      BitVec.getLsbD_setWidth, BitVec.getLsbD_allOnes, decide_eq_true hi, Bool.true_and]
  have hrec (i : ℕ) : a.value.getLsbD i = (x.getLsbD i && !a.mask.getLsbD i) := by
    by_cases hi : i < 64
    · exact Tnum.has_iff.mp ha i hi
    · simp only [BitVec.getLsbD_of_ge _ _ (Nat.not_lt.mp hi), Bool.false_and]
  have hbit (i : ℕ) (hi : i < 32) :
      ((a.value >>> k).setWidth 32).getLsbD i = (a.value.setWidth 32 >>> k).getLsbD i ↔
        a.value.getLsbD (k + i) = ((x.setWidth 32 >>> k).getLsbD i && !a.mask.getLsbD (k + i)) := by
    simp only [BitVec.getLsbD_setWidth, BitVec.getLsbD_ushiftRight, hi, decide_true, Bool.true_and]
    by_cases hin : k + i < 32
    · simp only [hin, decide_true, Bool.true_and, hrec]
    · simp only [hin, decide_false, Bool.false_and]
  have hword (i : ℕ) (hi : i < 64) : ((x.setWidth 32 >>> k).setWidth 64).getLsbD i
      = (x.setWidth 32 >>> k).getLsbD i := by
    rw [BitVec.getLsbD_setWidth, decide_eq_true hi, Bool.true_and]
  constructor
  · intro h
    apply BitVec.eq_of_getLsbD_eq
    intro i hi
    have hmem := Tnum.has_iff.mp h i (by omega)
    simp only [Tnum.trunc32, BitVec.getLsbD_and, hlow i (by omega), hword i (by omega), hi,
      decide_true, Bool.and_true, BitVec.getLsbD_ushiftRight (x := a.value),
      BitVec.getLsbD_ushiftRight (x := a.mask)] at hmem
    exact (hbit i hi).mpr hmem
  · intro h
    rw [Tnum.has_iff]
    intro i hi
    rw [hword i hi]
    simp only [Tnum.trunc32, BitVec.getLsbD_and, hlow i hi]
    by_cases hi32 : i < 32
    · have hmem := (hbit i hi32).mp (congrArg (fun z : BitVec 32 => z.getLsbD i) h)
      simp only [hi32, decide_true, Bool.and_true, BitVec.getLsbD_ushiftRight (x := a.value),
        BitVec.getLsbD_ushiftRight (x := a.mask)]
      exact hmem
    · rw [BitVec.getLsbD_of_ge (x.setWidth 32 >>> k) i (by omega)]
      simp [hi32]

/-- A known number truncates to the low half of its words. -/
theorem has_constant_trunc32_iff {v : BitVec 64} {w : BitVec 32} :
    (Tnum.constant v).trunc32.Has (w.setWidth 64) ↔ v.setWidth 32 = w := by
  have htrunc : (Tnum.constant v).trunc32 = .constant ((v.setWidth 32).setWidth 64) := by
    rw [setWidth_setWidth_32]
    simp [Tnum.trunc32, Tnum.constant]
  rw [htrunc, Tnum.has_constant]
  constructor
  · intro h
    have hback := congrArg (BitVec.setWidth 32) h
    simpa [BitVec.setWidth_setWidth_of_le] using hback.symm
  · rintro rfl
    rfl

/-- **The low half of the tracked result covers the 32-bit result** when they truncate alike. -/
theorem has_trunc32_aluTnum_iff (ha : a.Has x) (hb : b.Has y)
    (hshift : op = .lsh ∨ op = .rsh ∨ op = .arsh → y.toNat < 32)
    (hdiv : op = .div ∨ op = .mod → y ≠ 0) :
    (aluTnum op a b).trunc32.Has ((aluWord op (x.setWidth 32) (y.setWidth 32)).setWidth 64) ↔
      truncatesAlike op a b x y := by
  have hboth (hop : op = .mul ∨ op = .div ∨ op = .mod ∨ op = .arsh) :
      (aluTnum op a b).trunc32.Has ((aluWord op (x.setWidth 32) (y.setWidth 32)).setWidth 64) ↔
        (a.isKnown = true → b.isKnown = true → truncates op x y = true) := by
    by_cases hk : a.isKnown = true ∧ b.isKnown = true
    · rw [aluTnum_of_isKnown hop (fun h => hb.eq_of_isKnown hk.2 ▸ hdiv h) hk.1 hk.2,
        ← ha.eq_of_isKnown hk.1, ← hb.eq_of_isKnown hk.2, has_constant_trunc32_iff]
      simp only [hk, forall_const, truncates, decide_eq_true_eq]
    · rw [aluTnum_eq_unknown hop hk]
      exact iff_of_true (has_unknown_trunc32 _) fun h₁ h₂ => absurd ⟨h₁, h₂⟩ hk
  have hexact (hex : scalarExact a b op false = true) (h : truncatesAlike op a b x y) :
      (aluTnum op a b).trunc32.Has ((aluWord op (x.setWidth 32) (y.setWidth 32)).setWidth 64) ↔
        truncatesAlike op a b x y := iff_of_true (has_aluTnum_trunc32 ha hb hex hshift) h
  cases op with
  | sub =>
    rw [show aluWord .sub (x.setWidth 32) (y.setWidth 32) = x.setWidth 32 - y.setWidth 32 from rfl,
      ← setWidth_sub_32, setWidth_setWidth_32]
    exact has_sub_trunc32_iff
  | rsh =>
    have hlt := hshift (by decide)
    have hk : (y.setWidth 32).toNat = y.toNat := toNat_setWidth_of_lt (by omega)
    cases hkb : b.isKnown
    · simp only [aluTnum, Tnum.knownValue_of_not_isKnown hkb, truncatesAlike, hkb]
      exact iff_of_true (has_unknown_trunc32 _) fun h => absurd h (by decide)
    · simp only [aluTnum, Tnum.knownValue_of_isKnown hkb, ← hb.eq_of_isKnown hkb, Tnum.rsh,
        truncatesAlike, hkb, forall_const, truncates, aluWord, hk, decide_eq_true_eq,
        if_neg (show ¬64 ≤ y.toNat by omega), Nat.mod_eq_of_lt hlt,
        Nat.mod_eq_of_lt (show y.toNat < 64 by omega)]
      exact has_rsh_trunc32_iff ha
  | div => exact hboth (by decide)
  | mod => exact hboth (by decide)
  | arsh => exact hboth (by decide)
  | _ => exact hexact rfl trivial

/-- **The words a 32-bit result allows**, told from the operands. -/
theorem admits_scalarAlu32_iff {dst src : RegState} (ha : dst.tnum.Has x) (hb : src.tnum.Has y)
    (hshift : op = .lsh ∨ op = .rsh ∨ op = .arsh → y.toNat < 32)
    (hdiv : op = .div ∨ op = .mod → y ≠ 0) :
    (scalarAlu dst src op false).Admits (aluBits false op x y) ↔
      truncatesAlike op dst.tnum src.tnum x y := by
  change (ofTnum (aluTnum op dst.tnum src.tnum).trunc32).refineBounds.Admits
    ((aluWord op (x.setWidth 32) (y.setWidth 32)).setWidth 64) ↔ _
  rw [admits_ofTnum_iff (wf_aluTnum op ha.wf).trunc32, has_trunc32_aluTnum_iff ha hb hshift hdiv]
  exact and_iff_left (msb_mask_trunc32 _)

end

end BpfVerifier
