import Mathlib.Algebra.Ring.Int.Defs
import Mathlib.Algebra.Ring.Nat
import Mathlib.Tactic.Common

/-!
# Machinery/Word — machine-integer arithmetic on `BitVec`

The unsigned and signed `max`, `min` and saturating successor of a fixed-width integer type, with
their readings in `ℕ` (`toNat`) and `ℤ` (`toInt`).  Order facts about words are stated through those
two readings throughout, so that `omega` closes them.  A word outside a mask is compared bit by bit
(`and_not_eq_iff`).  An arithmetic shift is built from a logical one and is a division that rounds
down (`ushiftRight_or_fill`, `toNat_sshiftRight`).
-/

namespace Word

variable {n : ℕ}

/-! ## Extrema -/

/-- Unsigned maximum. -/
def maxU (a b : BitVec n) : BitVec n := if a.ule b then b else a

/-- Unsigned minimum. -/
def minU (a b : BitVec n) : BitVec n := if a.ule b then a else b

/-- Signed maximum. -/
def maxS (a b : BitVec n) : BitVec n := if a.sle b then b else a

/-- Signed minimum. -/
def minS (a b : BitVec n) : BitVec n := if a.sle b then a else b

@[simp] theorem toNat_maxU (a b : BitVec n) : (maxU a b).toNat = max a.toNat b.toNat := by
  unfold maxU
  split <;> simp only [BitVec.ule_eq_decide, decide_eq_true_eq] at * <;> omega

@[simp] theorem toNat_minU (a b : BitVec n) : (minU a b).toNat = min a.toNat b.toNat := by
  unfold minU
  split <;> simp only [BitVec.ule_eq_decide, decide_eq_true_eq] at * <;> omega

@[simp] theorem toInt_maxS (a b : BitVec n) : (maxS a b).toInt = max a.toInt b.toInt := by
  unfold maxS
  split <;> simp only [BitVec.sle_eq_decide, decide_eq_true_eq] at * <;> omega

@[simp] theorem toInt_minS (a b : BitVec n) : (minS a b).toInt = min a.toInt b.toInt := by
  unfold minS
  split <;> simp only [BitVec.sle_eq_decide, decide_eq_true_eq] at * <;> omega

/-! ## Saturating successor and predecessor -/

/-- `saturating_add(1)` on an unsigned word. -/
def succU (a : BitVec n) : BitVec n := if a = BitVec.allOnes n then a else a + 1

/-- `saturating_sub(1)` on an unsigned word. -/
def predU (a : BitVec n) : BitVec n := if a = 0 then a else a - 1

/-- `saturating_add(1)` on a signed word. -/
def succS (a : BitVec n) : BitVec n := if a = BitVec.intMax n then a else a + 1

/-- `saturating_sub(1)` on a signed word. -/
def predS (a : BitVec n) : BitVec n := if a = BitVec.intMin n then a else a - 1

/-- What exceeds `a` is at least its saturating successor. -/
theorem succU_le_of_lt {a x : BitVec 64} (h : a.toNat < x.toNat) : (succU a).toNat ≤ x.toNat := by
  have hne : a ≠ BitVec.allOnes 64 := by
    rintro rfl
    have := x.isLt
    simp at h
    omega
  rw [succU, if_neg hne]
  have := x.isLt
  bv_omega

/-- What is below `a` is at most its saturating predecessor. -/
theorem le_predU_of_lt {a x : BitVec 64} (h : x.toNat < a.toNat) : x.toNat ≤ (predU a).toNat := by
  have hne : a ≠ 0 := by
    rintro rfl
    simp at h
  rw [predU, if_neg hne]
  bv_omega

/-! ## The two readings of a word -/

/-- A word below the sign boundary reads the same in both orders. -/
theorem toInt_eq_of_lt {x : BitVec 64} (h : x.toNat < 2 ^ 63) : x.toInt = x.toNat := by
  rw [BitVec.toInt_eq_toNat_cond]
  split <;> omega

/-- A word from the sign boundary on reads as a negative number. -/
theorem toInt_eq_of_ge {x : BitVec 64} (h : 2 ^ 63 ≤ x.toNat) :
    x.toInt = x.toNat - 2 ^ 64 := by
  rw [BitVec.toInt_eq_toNat_cond]
  split <;> omega

/-- A sum that fits does not wrap. -/
theorem toInt_add_of_bounds {x y : BitVec 64} (hlo : -2 ^ 63 ≤ x.toInt + y.toInt)
    (hhi : x.toInt + y.toInt < 2 ^ 63) : (x + y).toInt = x.toInt + y.toInt := by
  rw [BitVec.toInt_add, Int.bmod_eq_of_le (by omega) (by omega)]

/-- A number of steps that ends inside the signed range does not wrap. -/
theorem toInt_add_ofNat {x : BitVec 64} {i : ℕ} (hhi : x.toInt + i < 2 ^ 63) :
    (x + BitVec.ofNat 64 i).toInt = x.toInt + i := by
  have hx := BitVec.le_toInt (x := x)
  rw [BitVec.toInt_add, BitVec.toInt_ofNat', Int.add_bmod_bmod,
    Int.bmod_eq_of_le (by omega) (by omega)]

/-- Adding one does not wrap below the largest signed word. -/
theorem toInt_add_one_of_lt {x : BitVec 64} (h : x.toInt < 2 ^ 63 - 1) :
    (x + 1).toInt = x.toInt + 1 := by
  have hx := BitVec.le_toInt (x := x)
  have h1 : (1 : BitVec 64).toInt = 1 := by decide
  rw [BitVec.toInt_add, h1, Int.bmod_eq_of_le (by omega) (by omega)]

/-- Subtracting one does not wrap above the smallest signed word. -/
theorem toInt_sub_one_of_gt {x : BitVec 64} (h : -2 ^ 63 < x.toInt) :
    (x - 1).toInt = x.toInt - 1 := by
  have hx := BitVec.toInt_lt (x := x)
  have h1 : (1 : BitVec 64).toInt = 1 := by decide
  rw [BitVec.toInt_sub, h1, Int.bmod_eq_of_le (by omega) (by omega)]

/-! ## Saturation in the signed order -/

/-- What exceeds `a` in the signed order is at least its saturating successor. -/
theorem succS_le_of_lt {a x : BitVec 64} (h : a.toInt < x.toInt) : (succS a).toInt ≤ x.toInt := by
  have hx := BitVec.toInt_lt (x := x)
  have hmax : (BitVec.intMax 64).toInt = 2 ^ 63 - 1 := by decide
  have hne : a ≠ BitVec.intMax 64 := by
    rintro rfl
    omega
  rw [succS, if_neg hne, toInt_add_one_of_lt (by omega)]
  omega

/-- What is below `a` in the signed order is at most its saturating predecessor. -/
theorem le_predS_of_lt {a x : BitVec 64} (h : x.toInt < a.toInt) : x.toInt ≤ (predS a).toInt := by
  have hx := BitVec.le_toInt (x := x)
  have hmin : (BitVec.intMin 64).toInt = -2 ^ 63 := by decide
  have hne : a ≠ BitVec.intMin 64 := by
    rintro rfl
    omega
  rw [predS, if_neg hne, toInt_sub_one_of_gt (by omega)]
  omega

/-! ## Signed ranges that may wrap -/

/-- The two readings of a word, for `omega`. -/
theorem toInt_cases (x : BitVec 64) :
    (x.toNat < 2 ^ 63 ∧ x.toInt = x.toNat) ∨
      (2 ^ 63 ≤ x.toNat ∧ x.toNat < 2 ^ 64 ∧ x.toInt = x.toNat - 2 ^ 64) := by
  rcases Nat.lt_or_ge x.toNat (2 ^ 63) with h | h
  · exact Or.inl ⟨h, toInt_eq_of_lt h⟩
  · exact Or.inr ⟨h, x.isLt, toInt_eq_of_ge h⟩

/-- A bound pair `lo`, `hi` read as a range of words: in the signed order, or, where `lo` is
non-negative and `hi` negative, in the unsigned one. -/
def Within (lo hi x : BitVec 64) : Prop :=
  (lo.toInt ≤ x.toInt ∧ x.toInt ≤ hi.toInt) ∨
    (0 ≤ lo.toInt ∧ hi.toInt < 0 ∧ lo.toNat ≤ x.toNat ∧ x.toNat ≤ hi.toNat)

variable {lo hi l h x : BitVec 64}

/-- An unsigned range is a range. -/
theorem within_of_le (h₁ : lo.toNat ≤ x.toNat) (h₂ : x.toNat ≤ hi.toNat) : Within lo hi x := by
  unfold Within
  rcases toInt_cases lo with ⟨_, _⟩ | ⟨_, _, _⟩ <;>
    rcases toInt_cases hi with ⟨_, _⟩ | ⟨_, _, _⟩ <;>
    rcases toInt_cases x with ⟨_, _⟩ | ⟨_, _, _⟩ <;> omega

/-- A range with a non-negative lower bound is an unsigned one. -/
theorem le_of_within (hx : Within lo hi x) (h₀ : 0 ≤ lo.toInt) :
    lo.toNat ≤ x.toNat ∧ x.toNat ≤ hi.toNat := by
  rcases hx with ⟨h₁, h₂⟩ | ⟨_, _, h₁, h₂⟩
  · rcases toInt_cases lo with ⟨_, _⟩ | ⟨_, _, _⟩ <;>
      rcases toInt_cases hi with ⟨_, _⟩ | ⟨_, _, _⟩ <;>
      rcases toInt_cases x with ⟨_, _⟩ | ⟨_, _, _⟩ <;> omega
  · exact ⟨h₁, h₂⟩

/-- Raising the lower bound to a signed bound of the word keeps the word. -/
theorem Within.maxS (hx : Within lo hi x) (hl : l.toInt ≤ x.toInt) :
    Within (Word.maxS lo l) hi x := by
  unfold Within Word.maxS at *
  simp only [BitVec.sle_eq_decide, decide_eq_true_eq]
  rcases toInt_cases lo with ⟨_, _⟩ | ⟨_, _, _⟩ <;> rcases toInt_cases l with ⟨_, _⟩ | ⟨_, _, _⟩ <;>
    rcases toInt_cases x with ⟨_, _⟩ | ⟨_, _, _⟩ <;> split <;> omega

/-- Lowering the upper bound to a signed bound of the word keeps the word. -/
theorem Within.minS (hx : Within lo hi x) (hh : x.toInt ≤ h.toInt) :
    Within lo (Word.minS hi h) x := by
  unfold Within Word.minS at *
  simp only [BitVec.sle_eq_decide, decide_eq_true_eq]
  rcases toInt_cases hi with ⟨_, _⟩ | ⟨_, _, _⟩ <;> rcases toInt_cases h with ⟨_, _⟩ | ⟨_, _, _⟩ <;>
    rcases toInt_cases x with ⟨_, _⟩ | ⟨_, _, _⟩ <;> split <;> omega

/-! ## Known bits -/

/-- A word outside a mask, bit by bit. -/
theorem and_not_eq_iff {w : ℕ} {x m v : BitVec w} : x &&& ~~~m = v ↔ ∀ i < w,
    v.getLsbD i = (x.getLsbD i && !m.getLsbD i) := by
  constructor
  · rintro rfl i hi
    simp [hi]
  · intro h
    apply BitVec.eq_of_getLsbD_eq
    intro i hi
    rw [h i hi]
    simp [hi]

/-! ## Arithmetic shifts -/

/-- The ones an arithmetic shift moves in: the bits from `k` on. -/
theorem getLsbD_fill {w : ℕ} (k i : ℕ) :
    (0 - (1 : BitVec w) <<< k).getLsbD i = (decide (i < w) && decide (k ≤ i)) := by
  have hone (j : ℕ) : ((1 : BitVec w) <<< k).getLsbD j = (decide (j < w) && decide (j = k)) := by
    rw [BitVec.getLsbD_shiftLeft, BitVec.ofNat_eq_ofNat, BitVec.getLsbD_one]
    grind
  rw [BitVec.ofNat_eq_ofNat, BitVec.zero_sub, BitVec.getLsbD_neg]
  by_cases hi : i < w
  · have hbelow : (∃ j < i, ((1 : BitVec w) <<< k).getLsbD j = true) ↔ k < i := by
      constructor
      · rintro ⟨j, hj, hbit⟩
        rw [hone, Bool.and_eq_true, decide_eq_true_eq, decide_eq_true_eq] at hbit
        omega
      · intro hk
        exact ⟨k, hk, by rw [hone]; simp; omega⟩
    simp only [hbelow]
    simp only [hone, hi, decide_true, Bool.true_and]
    rcases Nat.lt_trichotomy k i with hlt | rfl | hgt
    · simp [hlt, Nat.ne_of_gt hlt, Nat.le_of_lt hlt]
    · simp
    · simp [Nat.ne_of_lt hgt, Nat.not_le_of_lt hgt, Nat.not_lt_of_lt hgt]
  · simp [hi]

/-- **An arithmetic shift of a negative word** is the logical one with ones moved in. -/
theorem ushiftRight_or_fill {w k : ℕ} {x : BitVec w} (hmsb : x.msb = true) :
    x >>> k ||| (0 - (1 : BitVec w) <<< (w - k)) = x.sshiftRight k := by
  apply BitVec.eq_of_getLsbD_eq
  intro i hi
  have hfill : decide (w - k ≤ i) = !decide (k + i < w) := by
    rw [← decide_not, decide_eq_decide]
    omega
  rw [BitVec.getLsbD_or, BitVec.getLsbD_ushiftRight, getLsbD_fill, BitVec.getLsbD_sshiftRight,
    hmsb, hfill]
  by_cases hki : k + i < w
  · simp [hki, hi]
  · simp [hki, hi]

/-- **An arithmetic shift divides**, rounding down. -/
theorem toNat_sshiftRight {w : ℕ} (x : BitVec w) (k : ℕ) :
    ((x.sshiftRight k).toNat : ℤ) = x.toInt.fdiv (2 ^ k) % 2 ^ w := by
  have hread : ((x.sshiftRight k).toNat : ℤ) = (x.sshiftRight k).toInt % 2 ^ w := by
    have hlt : ((x.sshiftRight k).toNat : ℤ) < ((2 ^ w : ℕ) : ℤ) :=
      Int.ofNat_lt.mpr (x.sshiftRight k).isLt
    rw [BitVec.toInt_eq_toNat_bmod]
    exact ((Int.bmod_emod).trans (Int.emod_eq_of_lt (Int.natCast_nonneg _) hlt)).symm
  rw [hread, BitVec.toInt_sshiftRight, Int.shiftRight_eq_div_pow,
    Int.fdiv_eq_ediv_of_nonneg _ (Int.le_of_lt (Int.pow_pos (by decide)))]
  norm_cast

end Word
