import BpfVerifier.Machinery.Carry
import BpfVerifier.Machinery.Word

/-!
# Kverify/Tnum — tracked numbers

A `Tnum` records which bits of a word are known: `value` the known ones, `mask` the unknown
positions.  `Has` reads it as the set of words it describes, and each operation is checked against
the word operation it tracks.  `add` loses nothing; `sub` negates the known part of its second
argument only, and tracks the difference exactly when `SubExact` holds.
-/

namespace BpfVerifier

/-- Known bits of a word. -/
structure Tnum where
  value : BitVec 64
  mask : BitVec 64
  deriving DecidableEq, Repr

namespace Tnum

/-- A fully known constant. -/
def constant (v : BitVec 64) : Tnum := ⟨v, 0⟩

/-- Completely unknown 64-bit value. -/
def unknown : Tnum := ⟨0, BitVec.allOnes 64⟩

/-- Whether this tnum represents a single known value. -/
def isKnown (t : Tnum) : Bool := t.mask = 0

/-- If fully known, return the concrete value. -/
def knownValue (t : Tnum) : Option (BitVec 64) := if t.isKnown then some t.value else none

/-- AND of two tnums. -/
def and (self other : Tnum) : Tnum :=
  let alpha := self.value ||| self.mask
  let beta := other.value ||| other.mask
  let v := self.value &&& other.value
  let mu := alpha &&& beta &&& ~~~v
  { value := v, mask := mu }

/-- OR of two tnums. -/
def or (self other : Tnum) : Tnum :=
  let v := self.value ||| other.value
  let mu := (self.mask ||| other.mask) &&& ~~~v
  { value := v, mask := mu }

/-- XOR of two tnums. -/
def xor (self other : Tnum) : Tnum :=
  let v := self.value ^^^ other.value
  let mu := self.mask ||| other.mask
  { value := v &&& ~~~mu, mask := mu }

/-- Left shift by a known amount.  Shifts >= 64 produce zero. -/
def lsh (self : Tnum) (shift : BitVec 32) : Tnum :=
  if 64 ≤ shift.toNat then constant 0
  else { value := self.value <<< shift.toNat, mask := self.mask <<< shift.toNat }

/-- Logical right shift by a known amount.  Shifts >= 64 produce zero. -/
def rsh (self : Tnum) (shift : BitVec 32) : Tnum :=
  if 64 ≤ shift.toNat then constant 0
  else { value := self.value >>> shift.toNat, mask := self.mask >>> shift.toNat }

/-- ADD of two tnums. -/
def add (self other : Tnum) : Tnum :=
  let sv := self.value + other.value
  let sm := self.mask + other.mask
  let sigma := sv + sm
  let chi := sigma ^^^ sv
  let mu := chi ||| self.mask ||| other.mask
  { value := sv &&& ~~~mu, mask := mu }

/-- SUB of two tnums: self - other. -/
def sub (self other : Tnum) : Tnum :=
  let negOther : Tnum := { value := -other.value, mask := other.mask }
  self.add negOther

/-- Truncate to 32 bits (upper 32 bits become known-zero). -/
def trunc32 (self : Tnum) : Tnum :=
  { value := self.value &&& 0xFFFFFFFF, mask := self.mask &&& 0xFFFFFFFF }

/-- Possible minimum value. -/
def minValue (self : Tnum) : BitVec 64 := self.value

/-- Possible maximum value. -/
def maxValue (self : Tnum) : BitVec 64 := self.value ||| self.mask

/-! ## The words a tnum describes -/

/-- The words a tnum describes: the known bits are as recorded. -/
def Has (t : Tnum) (x : BitVec 64) : Prop := x &&& ~~~t.mask = t.value

instance (t : Tnum) (x : BitVec 64) : Decidable (t.Has x) := inferInstanceAs (Decidable (_ = _))

/-- The recorded invariant: no bit is both known to be one and unknown. -/
def Wf (t : Tnum) : Prop := t.value &&& t.mask = 0

instance (t : Tnum) : Decidable t.Wf := inferInstanceAs (Decidable (_ = _))

variable {a b t : Tnum} {x y : BitVec 64}

/-- Membership bit by bit. -/
theorem has_iff : t.Has x ↔ ∀ i < 64,
    t.value.getLsbD i = (x.getLsbD i && !t.mask.getLsbD i) := Word.and_not_eq_iff

/-- Only a well-formed tnum describes a word. -/
theorem Has.wf (h : t.Has x) : t.Wf := by
  unfold Has at h
  unfold Wf
  rw [← h, BitVec.and_assoc]
  simp

/-- The known ones are in the word. -/
theorem Has.value_sub (h : t.Has x) : Carry.Sub t.value x := by
  intro i hi
  have hlt : i < 64 := BitVec.lt_of_getLsbD hi
  rw [has_iff.mp h i hlt] at hi
  exact (Bool.and_eq_true_iff.mp hi).1

/-- The word is within the known ones and the unknown bits. -/
theorem Has.sub_max (h : t.Has x) : Carry.Sub x t.maxValue := by
  intro i hi
  have hlt : i < 64 := BitVec.lt_of_getLsbD hi
  have := has_iff.mp h i hlt
  cases hm : t.mask.getLsbD i <;> simp_all [maxValue]

theorem value_sub_max (t : Tnum) : Carry.Sub t.value t.maxValue := by
  intro i hi
  simp [maxValue, hi]

theorem toNat_le_of_sub {a b : BitVec 64} (h : Carry.Sub a b) : a.toNat ≤ b.toNat := by
  have hb : a &&& b = a := by
    apply BitVec.eq_of_getLsbD_eq
    intro i _
    have := h i
    cases ha : a.getLsbD i <;> simp_all
  rw [← hb, BitVec.toNat_and]
  exact Nat.and_le_right

/-- **The recorded extremes bound every described word.** -/
theorem Has.minValue_le (h : t.Has x) : t.minValue.toNat ≤ x.toNat := toNat_le_of_sub h.value_sub

theorem Has.le_maxValue (h : t.Has x) : x.toNat ≤ t.maxValue.toNat := toNat_le_of_sub h.sub_max

theorem and_not_zero (x : BitVec 64) : x &&& ~~~(0 : BitVec 64) = x := BitVec.and_allOnes

@[simp] theorem has_constant {v : BitVec 64} : (constant v).Has x ↔ x = v := by
  simp only [Has, constant, and_not_zero]

@[simp] theorem has_unknown : unknown.Has x := by
  simp [Has, unknown]

/-- **A known value is the word.** -/
theorem Has.eq_of_knownValue (h : t.Has x) {v : BitVec 64} (hv : t.knownValue = some v) :
    x = v := by
  unfold knownValue isKnown at hv
  split at hv
  · next hm =>
    have hm0 : t.mask = 0 := by simpa using hm
    unfold Has at h
    rw [hm0, and_not_zero] at h
    rw [← Option.some.inj hv, h]
  · cases hv

theorem knownValue_of_isKnown (h : t.isKnown = true) : t.knownValue = some t.value := if_pos h

theorem knownValue_of_not_isKnown (h : t.isKnown = false) : t.knownValue = none :=
  if_neg (by simp [h])

theorem Has.eq_of_isKnown (h : t.Has x) (hk : t.isKnown = true) : x = t.value :=
  h.eq_of_knownValue (knownValue_of_isKnown hk)

/-! ## The bitwise operations -/

theorem Has.and (ha : a.Has x) (hb : b.Has y) : (a.and b).Has (x &&& y) := by
  rw [has_iff] at *
  intro i hi
  have h₁ := ha i hi
  have h₂ := hb i hi
  simp only [Tnum.and, BitVec.getLsbD_and, BitVec.getLsbD_or, BitVec.getLsbD_not, h₁, h₂, hi]
  cases x.getLsbD i <;> cases y.getLsbD i <;> cases a.mask.getLsbD i <;>
    cases b.mask.getLsbD i <;> simp

theorem Has.or (ha : a.Has x) (hb : b.Has y) : (a.or b).Has (x ||| y) := by
  rw [has_iff] at *
  intro i hi
  have h₁ := ha i hi
  have h₂ := hb i hi
  simp only [Tnum.or, BitVec.getLsbD_and, BitVec.getLsbD_or, BitVec.getLsbD_not, h₁, h₂, hi]
  cases x.getLsbD i <;> cases y.getLsbD i <;> cases a.mask.getLsbD i <;>
    cases b.mask.getLsbD i <;> simp

theorem Has.xor (ha : a.Has x) (hb : b.Has y) : (a.xor b).Has (x ^^^ y) := by
  rw [has_iff] at *
  intro i hi
  have h₁ := ha i hi
  have h₂ := hb i hi
  simp only [Tnum.xor, BitVec.getLsbD_and, BitVec.getLsbD_or, BitVec.getLsbD_xor,
    BitVec.getLsbD_not, h₁, h₂, hi]
  cases x.getLsbD i <;> cases y.getLsbD i <;> cases a.mask.getLsbD i <;>
    cases b.mask.getLsbD i <;> simp

theorem Has.lsh (ha : a.Has x) {k : BitVec 32} (hk : k.toNat < 64) :
    (a.lsh k).Has (x <<< k.toNat) := by
  rw [Tnum.lsh, if_neg (by omega), has_iff]
  intro i hi
  simp only [BitVec.getLsbD_shiftLeft, hi, decide_true, Bool.true_and]
  by_cases hki : i < k.toNat
  · simp [hki]
  · simp [hki, has_iff.mp ha (i - k.toNat) (by omega)]

theorem Has.rsh (ha : a.Has x) {k : BitVec 32} (hk : k.toNat < 64) :
    (a.rsh k).Has (x >>> k.toNat) := by
  rw [Tnum.rsh, if_neg (by omega), has_iff]
  intro i hi
  simp only [BitVec.getLsbD_ushiftRight]
  by_cases hki : k.toNat + i < 64
  · exact has_iff.mp ha _ hki
  · simp [BitVec.getLsbD_of_ge _ _ (Nat.not_lt.mp hki)]

theorem Has.trunc32 (ha : a.Has x) : a.trunc32.Has (x &&& 0xFFFFFFFF) := by
  rw [has_iff]
  intro i hi
  simp only [Tnum.trunc32, BitVec.getLsbD_and, has_iff.mp ha i hi]
  cases x.getLsbD i <;> cases a.mask.getLsbD i <;> simp

/-! ## Addition and subtraction -/

theorem Wf.add_eq_max (h : t.Wf) : t.value + t.mask = t.maxValue :=
  BitVec.add_eq_or_of_and_eq_zero _ _ h

/-- Outside the mask the least and the greatest described word agree. -/
theorem getLsbD_value_eq_max {i : ℕ} (hm : t.mask.getLsbD i = false) :
    t.value.getLsbD i = t.maxValue.getLsbD i := by
  simp [maxValue, hm]

/-- **Tracked addition covers every sum.** -/
theorem Has.add (ha : a.Has x) (hb : b.Has y) : (a.add b).Has (x + y) := by
  -- the greatest sum is the one `sigma` records
  have hsigma : a.value + b.value + (a.mask + b.mask) = a.maxValue + b.maxValue := by
    rw [← ha.wf.add_eq_max, ← hb.wf.add_eq_max]
    ac_rfl
  rw [has_iff]
  intro i hi
  simp only [Tnum.add, hsigma, BitVec.getLsbD_and, BitVec.getLsbD_or, BitVec.getLsbD_xor,
    BitVec.getLsbD_not, hi, decide_true, Bool.true_and]
  cases hma : a.mask.getLsbD i
  · cases hmb : b.mask.getLsbD i
    · by_cases hchi : (a.maxValue + b.maxValue).getLsbD i = (a.value + b.value).getLsbD i
      · have hbit := Carry.getLsbD_add_eq hi ha.value_sub hb.value_sub ha.sub_max hb.sub_max
          (getLsbD_value_eq_max hma) (getLsbD_value_eq_max hmb) hchi.symm
        simp [hchi, hbit]
      · cases h₁ : (a.maxValue + b.maxValue).getLsbD i <;>
          cases h₂ : (a.value + b.value).getLsbD i <;> simp_all
    · simp
  · simp

/-- The bits of `x - y` that can move while `x` and `y` range over `a` and `b`. -/
def borrows (a b : Tnum) : BitVec 64 := (a.value - b.maxValue) ^^^ (a.maxValue - b.value)

/-- Every bit of `m` a borrow can move is marked unknown by `sub`. -/
def SubExact (a b : Tnum) (m : BitVec 64) : Prop := a.borrows b &&& ~~~(a.sub b).mask &&& m = 0

instance (a b : Tnum) (m : BitVec 64) : Decidable (a.SubExact b m) :=
  inferInstanceAs (Decidable (_ = _))

/-- **Tracked subtraction covers every bit of a difference whose borrows it marks.** -/
theorem Has.sub_getLsbD (ha : a.Has x) (hb : b.Has y) {m : BitVec 64} (hex : a.SubExact b m)
    {i : ℕ} (hi : i < 64) (hmi : m.getLsbD i = true) :
    (a.sub b).value.getLsbD i = ((x - y).getLsbD i && !(a.sub b).mask.getLsbD i) := by
  have hsv : a.value + -b.value = a.value - b.value := (BitVec.sub_eq_add_neg _ _).symm
  have hmask : (a.sub b).mask
      = (a.value - b.value + (a.mask + b.mask)) ^^^ (a.value - b.value) ||| a.mask ||| b.mask := by
    simp only [Tnum.sub, Tnum.add, hsv]
  have hval : (a.sub b).value = (a.value - b.value) &&& ~~~(a.sub b).mask := by
    rw [hmask]
    simp only [Tnum.sub, Tnum.add, hsv]
  rw [hval]
  simp only [BitVec.getLsbD_and, BitVec.getLsbD_not, hi, decide_true, Bool.true_and]
  cases hm : (a.sub b).mask.getLsbD i
  case true => simp
  have hm' := hm
  rw [hmask] at hm'
  simp only [BitVec.getLsbD_or, Bool.or_eq_false_iff] at hm'
  -- no borrow reaches an unmasked bit, so the two extreme differences agree there
  have hborrow : (a.value - b.maxValue).getLsbD i = (a.maxValue - b.value).getLsbD i := by
    have hbit := congrArg (fun z => z.getLsbD i)
      (show a.borrows b &&& ~~~(a.sub b).mask &&& m = 0 from hex)
    simp only [borrows, BitVec.getLsbD_and, BitVec.getLsbD_not, BitVec.getLsbD_xor, hm, hi,
      hmi] at hbit
    simpa using hbit
  have hx := Carry.getLsbD_sub_eq hi ha.value_sub hb.value_sub ha.sub_max hb.sub_max
    (getLsbD_value_eq_max hm'.1.2) (getLsbD_value_eq_max hm'.2) hborrow
  have hv := Carry.getLsbD_sub_eq hi (Carry.Sub.refl a.value) (Carry.Sub.refl b.value)
    (value_sub_max a) (value_sub_max b)
    (getLsbD_value_eq_max hm'.1.2) (getLsbD_value_eq_max hm'.2) hborrow
  rw [hx, ← hv]

theorem Has.sub (ha : a.Has x) (hb : b.Has y) (hex : a.SubExact b (BitVec.allOnes 64)) :
    (a.sub b).Has (x - y) := by
  rw [has_iff]
  intro i hi
  exact ha.sub_getLsbD hb hex hi (BitVec.getLsbD_allOnes.trans (decide_eq_true hi))

/-- The low half of a difference needs the low borrows only. -/
theorem Has.sub_trunc32 (ha : a.Has x) (hb : b.Has y) (hex : a.SubExact b 0xFFFFFFFF) :
    (a.sub b).trunc32.Has ((x - y) &&& 0xFFFFFFFF) := by
  rw [has_iff]
  intro i hi
  simp only [Tnum.trunc32, BitVec.getLsbD_and]
  cases hmi : (0xFFFFFFFF : BitVec 64).getLsbD i
  · simp
  · rw [ha.sub_getLsbD hb hex hi hmi]
    simp

end Tnum

end BpfVerifier
