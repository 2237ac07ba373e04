import BpfVerifier.FstarAst.ValClass
import BpfVerifier.Machinery.Word

/-!
# FstarAst/Refine — intersection of tristate numbers and refinement of ranges

`tnum_intersect` of `BPF.Tnum` and the refinements of `BPF.Range` at a branch.  `none` stands for no
value at all.  `Tnum.Has` and `Range.Has` are the 64-bit values a tristate number and a range stand
for.
-/

namespace BpfVerifier.FstarAst

/-! ## Tristate numbers -/

/-- The words a tristate number matches. -/
def Tnum.Has (t : Tnum) (x : BitVec 64) : Prop := x &&& ~~~t.mask = t.value

instance (t : Tnum) (x : BitVec 64) : Decidable (t.Has x) := inferInstanceAs (Decidable (_ = _))

/-- Membership bit by bit. -/
theorem Tnum.has_iff {t : Tnum} {x : BitVec 64} : t.Has x ↔ ∀ i < 64,
    t.value.getLsbD i = (x.getLsbD i && !t.mask.getLsbD i) := Word.and_not_eq_iff

/-- No bit is both unknown and one. -/
theorem Tnum.value_of_mask (t : Tnum) {i : ℕ} (h : t.mask.getLsbD i = true) :
    t.value.getLsbD i = false := by
  have hbit := congrArg (fun z => z.getLsbD i) t.wf
  simpa [h] using hbit

/-- `intersect_wf`. -/
theorem intersect_wf (a b : Tnum) : (a.mask &&& b.mask) &&& (a.value ||| b.value) = 0 := by
  apply BitVec.eq_of_getLsbD_eq
  intro i _
  simp only [BitVec.getLsbD_and, BitVec.getLsbD_or, BitVec.ofNat_eq_ofNat, BitVec.getLsbD_zero]
  cases ha : a.mask.getLsbD i
  · rfl
  · cases hb : b.mask.getLsbD i
    · rfl
    · rw [a.value_of_mask ha, b.value_of_mask hb]
      rfl

/-- `tnum_intersect`: what is known in either; `none` where bits known in both disagree. -/
def tnumIntersect (a b : Tnum) : Option Tnum :=
  let bothKnown := ~~~(a.mask ||| b.mask)
  let disagree := bothKnown &&& (a.value ^^^ b.value)
  if disagree ≠ 0 then none else some ⟨a.mask &&& b.mask, a.value ||| b.value, intersect_wf a b⟩

/-! ## Ranges -/

/-- The words within a range, read both ways. -/
structure Range.Has (r : Range) (v : BitVec 64) : Prop where
  umin : r.umin ≤ v.toNat
  umax : v.toNat ≤ r.umax
  smin : r.smin ≤ v.toInt
  smax : v.toInt ≤ r.smax

/-- `refine_ult_true`, after `x < bound`. -/
def refineUltTrue (r : Range) (bound : ℕ) (hbound : 0 < bound ∧ bound ≤ u64MaxVal) :
    Option Range :=
  let umin' := r.umin
  let umax' := if r.umax ≥ bound then bound - 1 else r.umax
  if hu : umin' > umax' then none
  else
    let smin' := r.smin
    let smax' := r.smax
    -- below the sign boundary the value is not negative
    let smin'' := if umax' < 2 ^ 63 ∧ smin' < 0 then 0 else smin'
    let smax'' := if umax' < 2 ^ 63 ∧ smax' > umax' then (umax' : ℤ) else smax'
    if hs : smin'' > smax'' then none
    else some ⟨umin', umax', smin'', smax'', ⟨Nat.le_of_not_lt hu, by
        have := r.unsigned
        simp only [umax']
        split <;> omega⟩, ⟨Int.not_lt.mp hs, by
        have := r.signed
        simp only [smin'', smin', s64Min] at *
        split <;> omega, by
        have := r.signed
        simp only [smax'', smax', s64Max] at *
        split <;> omega⟩⟩

/-- `refine_ult_false`. -/
def refineUltFalse (r : Range) (bound : ℕ) (_ : bound ≤ u64MaxVal) : Option Range :=
  let umin' := if r.umin < bound then bound else r.umin
  let umax' := r.umax
  if hu : umin' > umax' then none
  else some ⟨umin', umax', r.smin, r.smax, ⟨Nat.le_of_not_lt hu, r.unsigned.2⟩, r.signed⟩

/-- `refine_sgt_true`, after a signed `x > sbound`. -/
def refineSgtTrue (r : Range) (sbound : ℤ) (hbound : s64Min ≤ sbound ∧ sbound < s64Max) :
    Option Range :=
  let smin' := if r.smin ≤ sbound then sbound + 1 else r.smin
  let smax' := r.smax
  if hs : smin' > smax' then none
  else
    -- a value that is not negative is the same number unsigned
    let umin' := if smin' ≥ 0 ∧ r.umin < smin' then smin'.toNat else r.umin
    let umax' := r.umax
    if hu : umin' > umax' then none
    else some ⟨umin', umax', smin', smax', ⟨Nat.le_of_not_lt hu, r.unsigned.2⟩,
      ⟨Int.not_lt.mp hs, by
        have := r.signed
        simp only [smin']
        split <;> omega, r.signed.2.2⟩⟩

/-- `refine_sgt_false`. -/
def refineSgtFalse (r : Range) (sbound : ℤ) (hbound : s64Min ≤ sbound ∧ sbound ≤ s64Max) :
    Option Range :=
  let smin' := r.smin
  let smax' := if r.smax > sbound then sbound else r.smax
  if hs : smin' > smax' then none
  else some ⟨r.umin, r.umax, smin', smax', r.unsigned, ⟨Int.not_lt.mp hs, r.signed.2.1, by
      have := r.signed
      simp only [smax']
      split <;> omega⟩⟩

/-- `refine_eq_true`. -/
def refineEqTrue (r : Range) (v : ℕ) (hv : v ≤ u64MaxVal) : Option Range :=
  let umin' := r.umin
  let umax' := r.umax
  if v < umin' ∨ v > umax' then none else some (rangeConst v hv)

end BpfVerifier.FstarAst
