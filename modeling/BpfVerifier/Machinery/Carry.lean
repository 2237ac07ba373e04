import Mathlib.Tactic.Common

/-!
# Machinery/Carry — carries are monotone in the summands

The one fact about ripple-carry addition an analysis of unknown bits needs: a carry can only grow
when bits of the summands are switched on.  So the carries of a sum whose summands lie bitwise
between two extremes lie between the carries of the extremes (`carry_eq_of_extremes`), and where the
extremes agree every sum in between agrees with them.
-/

namespace Carry

variable {n : ℕ}

/-- Bitwise inclusion of words. -/
def Sub (a b : BitVec n) : Prop := ∀ i, a.getLsbD i = true → b.getLsbD i = true

theorem Sub.refl (a : BitVec n) : Sub a a := fun _ h => h

theorem atLeastTwo_mono {a a' b b' c c' : Bool} (ha : a = true → a' = true)
    (hb : b = true → b' = true) (hc : c = true → c' = true)
    (h : Bool.atLeastTwo a b c = true) : Bool.atLeastTwo a' b' c' = true := by
  revert ha hb hc h
  cases a <;> cases b <;> cases c <;> cases a' <;> cases b' <;> cases c' <;> decide

/-- **Carries are monotone.** -/
theorem carry_mono {a a' b b' : BitVec n} (c : Bool) (ha : Sub a a') (hb : Sub b b') :
    ∀ i, BitVec.carry i a b c = true → BitVec.carry i a' b' c = true
  | 0, h => by simpa using h
  | i + 1, h => by
      rw [BitVec.carry_succ] at h ⊢
      exact atLeastTwo_mono (ha i) (hb i) (carry_mono c ha hb i) h

/-- A carry caught between two equal ones is equal to them. -/
theorem carry_eq_of_extremes {lo lo' hi hi' a b : BitVec n} (c : Bool) (i : ℕ)
    (ha : Sub lo a) (hb : Sub lo' b) (ha' : Sub a hi) (hb' : Sub b hi')
    (heq : BitVec.carry i lo lo' c = BitVec.carry i hi hi' c) :
    BitVec.carry i a b c = BitVec.carry i lo lo' c := by
  have h₁ := carry_mono c ha hb i
  have h₂ := carry_mono c ha' hb' i
  rw [← heq] at h₂
  cases hl : BitVec.carry i lo lo' c <;> cases hm : BitVec.carry i a b c <;> simp_all

/-- Addition with a carry in. -/
def addc (a b : BitVec n) (c : Bool) : BitVec n := a + b + BitVec.setWidth n (BitVec.ofBool c)

/-- A word squeezed between two words that agree at a bit agrees with them there. -/
theorem getLsbD_eq_of_between {lo a hi : BitVec n} {i : ℕ} (h : Sub lo a) (h' : Sub a hi)
    (heq : lo.getLsbD i = hi.getLsbD i) : a.getLsbD i = lo.getLsbD i := by
  have h₁ := h i
  have h₂ := h' i
  rw [← heq] at h₂
  cases hl : lo.getLsbD i <;> cases hx : a.getLsbD i <;> simp_all

/-- **The bit of a sum at which the summands are fixed and the extreme sums agree is fixed.** -/
theorem getLsbD_addc_eq {lo lo' hi hi' a b : BitVec n} {i : ℕ} {c : Bool} (hn : i < n)
    (ha : Sub lo a) (hb : Sub lo' b) (ha' : Sub a hi) (hb' : Sub b hi')
    (hfix : lo.getLsbD i = hi.getLsbD i) (hfix' : lo'.getLsbD i = hi'.getLsbD i)
    (hsum : (addc lo lo' c).getLsbD i = (addc hi hi' c).getLsbD i) :
    (addc a b c).getLsbD i = (addc lo lo' c).getLsbD i := by
  have hc : BitVec.carry i lo lo' c = BitVec.carry i hi hi' c := by
    rw [addc, addc, BitVec.getLsbD_add_add_bool hn, BitVec.getLsbD_add_add_bool hn, hfix,
      hfix'] at hsum
    exact Bool.xor_right_inj.mp (Bool.xor_right_inj.mp hsum)
  rw [addc, addc, BitVec.getLsbD_add_add_bool hn, BitVec.getLsbD_add_add_bool hn,
    getLsbD_eq_of_between ha ha' hfix, getLsbD_eq_of_between hb hb' hfix',
    carry_eq_of_extremes c i ha hb ha' hb' hc]

theorem addc_false (a b : BitVec n) : addc a b false = a + b := by
  simp [addc]

/-- Subtraction is addition of the complement with a carry in. -/
theorem addc_not_true (a b : BitVec n) : addc a (~~~b) true = a - b := by
  rw [addc, BitVec.sub_eq_add_neg, BitVec.neg_eq_not_add, BitVec.add_assoc]
  congr 2
  rcases n with - | n
  · exact Subsingleton.elim _ _
  · apply BitVec.eq_of_toNat_eq
    simp

/-- The bit of a sum of two squeezed summands. -/
theorem getLsbD_add_eq {lo lo' hi hi' a b : BitVec n} {i : ℕ} (hn : i < n)
    (ha : Sub lo a) (hb : Sub lo' b) (ha' : Sub a hi) (hb' : Sub b hi')
    (hfix : lo.getLsbD i = hi.getLsbD i) (hfix' : lo'.getLsbD i = hi'.getLsbD i)
    (hsum : (lo + lo').getLsbD i = (hi + hi').getLsbD i) :
    (a + b).getLsbD i = (lo + lo').getLsbD i := by
  simp only [← addc_false] at *
  exact getLsbD_addc_eq hn ha hb ha' hb' hfix hfix' hsum

theorem Sub.not {a b : BitVec n} (h : Sub a b) : Sub (~~~b) (~~~a) := by
  intro i hb
  simp only [BitVec.getLsbD_not, Bool.and_eq_true, decide_eq_true_eq, Bool.not_eq_true'] at hb ⊢
  refine ⟨hb.1, ?_⟩
  by_contra ha
  have := h i (by simpa using ha)
  simp_all

/-- …and of a difference: the extremes are the least minus the greatest and the converse. -/
theorem getLsbD_sub_eq {lo lo' hi hi' a b : BitVec n} {i : ℕ} (hn : i < n)
    (ha : Sub lo a) (hb : Sub lo' b) (ha' : Sub a hi) (hb' : Sub b hi')
    (hfix : lo.getLsbD i = hi.getLsbD i) (hfix' : lo'.getLsbD i = hi'.getLsbD i)
    (hdiff : (lo - hi').getLsbD i = (hi - lo').getLsbD i) :
    (a - b).getLsbD i = (lo - hi').getLsbD i := by
  rw [← addc_not_true, ← addc_not_true] at hdiff ⊢
  refine getLsbD_addc_eq hn ha hb'.not ha' hb.not hfix ?_ hdiff
  simp [hfix']

end Carry
