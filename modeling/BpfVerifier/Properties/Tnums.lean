import BpfVerifier.Soundness.Results

/-!
# Properties/Tnums — which words tracked arithmetic covers

Addition, the bit operations, the shifts and truncation cover every result of described operands
(`tnum_tracks`).  Subtraction adds the mask of its second operand as it stands and so covers every
difference exactly when no borrow reaches further than the carries of that sum
(`sub_tracks_iff`).
-/

namespace BpfVerifier

namespace Tnum

/-- **A tnum operation tracks a word operation**: it keeps tnums well formed and covers the results
of all described operands. -/
structure Tracks (f : Tnum → Tnum → Tnum) (g : BitVec 64 → BitVec 64 → BitVec 64) : Prop where
  wf : ∀ a b, a.Wf → b.Wf → (f a b).Wf
  has : ∀ a b x y, a.Has x → b.Has y → (f a b).Has (g x y)

/-- …of one operand. -/
structure TracksUnary (f : Tnum → Tnum) (g : BitVec 64 → BitVec 64) : Prop where
  wf : ∀ a, a.Wf → (f a).Wf
  has : ∀ a x, a.Has x → (f a).Has (g x)

theorem umod_eq_and (x : BitVec 64) : x % 0x100000000 = x &&& 0xFFFFFFFF := by
  apply BitVec.eq_of_toNat_eq
  rw [BitVec.toNat_umod, BitVec.toNat_and]
  exact (Nat.and_two_pow_sub_one_eq_mod x.toNat 32).symm

/-- **Addition, the bit operations, shifts and truncation are tracked.** -/
theorem tnum_tracks :
    Tracks Tnum.add (· + ·) ∧ Tracks Tnum.and (· &&& ·) ∧ Tracks Tnum.or (· ||| ·) ∧
      Tracks Tnum.xor (· ^^^ ·) ∧
      (∀ k : BitVec 32, k.toNat < 64 → TracksUnary (Tnum.lsh · k) (· <<< k.toNat)) ∧
      (∀ k : BitVec 32, k.toNat < 64 → TracksUnary (Tnum.rsh · k) (· >>> k.toNat)) ∧
      TracksUnary Tnum.trunc32 (· % 0x100000000) := by
  refine ⟨⟨fun a b _ _ => wf_add a b, fun _ _ _ _ hx hy => hx.add hy⟩,
    ⟨fun a b _ _ => wf_and a b, fun _ _ _ _ hx hy => hx.and hy⟩,
    ⟨fun a b _ _ => wf_or a b, fun _ _ _ _ hx hy => hx.or hy⟩,
    ⟨fun a b _ _ => wf_xor a b, fun _ _ _ _ hx hy => hx.xor hy⟩,
    fun k hk => ⟨fun _ h => h.lsh k, fun _ _ hx => hx.lsh hk⟩,
    fun k hk => ⟨fun _ h => h.rsh k, fun _ _ hx => hx.rsh hk⟩, ⟨fun _ h => h.trunc32, ?_⟩⟩
  intro a x hx
  rw [umod_eq_and]
  exact hx.trunc32

/-! ## Subtraction -/

/-- **The bits a borrow can change are left open**: where the least and the greatest difference
disagree, an operand is unknown or the sum of both masks changes the difference of the known
parts. -/
def BorrowsOpen (a b : Tnum) : Prop := a.borrows b &&& ~~~a.openBits b = 0

instance (a b : Tnum) : Decidable (a.BorrowsOpen b) := inferInstanceAs (Decidable (_ = _))

/-- The open bits are the ones `sub` marks. -/
theorem subExact_iff {a b : Tnum} : a.SubExact b (BitVec.allOnes 64) ↔ a.BorrowsOpen b := by
  rw [SubExact, BorrowsOpen, BitVec.and_allOnes, sub_eq]

/-- Words that agree under a mask differ nowhere in it. -/
theorem xor_and_eq_zero {x y m : BitVec 64} (h : x &&& m = y &&& m) : (x ^^^ y) &&& m = 0 := by
  apply BitVec.eq_of_getLsbD_eq
  intro i _
  have hbit := congrArg (fun z : BitVec 64 => z.getLsbD i) h
  simp only [BitVec.getLsbD_and] at hbit
  simp only [BitVec.getLsbD_and, BitVec.getLsbD_xor, BitVec.ofNat_eq_ofNat, BitVec.getLsbD_zero]
  cases hm : m.getLsbD i <;> simp_all

/-- **Subtraction is tracked** exactly when the borrows are open. -/
theorem sub_tracks_iff {a b : Tnum} (ha : a.Wf) (hb : b.Wf) :
    ((∀ x y, a.Has x → b.Has y → (a.sub b).Has (x - y)) ∧ (a.sub b).Wf) ↔ a.BorrowsOpen b := by
  constructor
  · rintro ⟨h, -⟩
    -- the two extreme differences both agree with what `sub` records
    have hlo := has_sub_iff.mp (h _ _ ha.has_value hb.has_maxValue)
    have hhi := has_sub_iff.mp (h _ _ ha.has_maxValue hb.has_value)
    simp only [SubAgrees, BitVec.and_allOnes] at hlo hhi
    exact xor_and_eq_zero (hlo.trans hhi.symm)
  · intro h
    exact ⟨fun x y hx hy => hx.sub hy (subExact_iff.mpr h), wf_sub a b⟩

/-- A byte minus one. -/
theorem sub_tracks_byte : ((⟨0, 0xFF⟩ : Tnum).sub (constant 1)).Has (41 - 1) :=
  ((sub_tracks_iff (a := ⟨0, 0xFF⟩) (b := constant 1) (by decide) (by decide)).mpr
    (by decide)).1 41 1 (by decide) (by decide)

/-- **Zero minus an unknown bit** is recorded as zero or one. -/
theorem not_sub_tracks : ¬∀ a b : Tnum, a.Wf → b.Wf →
    (∀ x y, a.Has x → b.Has y → (a.sub b).Has (x - y)) ∧ (a.sub b).Wf := by
  intro h
  have hminus := (h (constant 0) ⟨0, 1⟩ (by decide) (by decide)).1 0 1 (by decide) (by decide)
  exact absurd hminus (by decide)

end Tnum

end BpfVerifier
