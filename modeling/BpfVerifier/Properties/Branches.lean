import BpfVerifier.Soundness.Depicts

/-!
# Properties/Branches — which states the edges of a conditional jump keep

A 64-bit conditional jump refines both edges to states that describe whatever takes them
(`refineBranch64_depicts`).  A 32-bit one does but for two kinds of state: a null test of a pointer
whose low half is zero, and a signed comparison that lowers the upper bound of a value with bit 31
set (`refineBranch32_depicts_iff`).
-/

namespace BpfVerifier

open Word

variable {L : Layout} {sized : ℕ → BitVec 32 → BitVec 64 → Prop} {ρ : ℕ → Val}
  {state : VerifierState} {stack : StackState} {s : MState} {insn : BpfInsn} {op : JmpOp}
  {src : Source} {r : RegState} {x hi val : BitVec 64}

/-- Both edges of a conditional jump describe the states that take them. -/
def EdgesDepict (L : Layout) (sized : ℕ → BitVec 32 → BitVec 64 → Prop) (state : VerifierState)
    (stack : StackState) (insn : BpfInsn) (op : JmpOp) (src : Source) (is32 : Bool)
    (s : MState) : Prop :=
  (refineBranch ⟨state, stack, state, stack⟩ insn op src is32).Holds
    (fun state stack => Depicts L sized state stack s)
    (jumpTaken is32 op (s.regs insn.dst).bits (s.operand insn src (!is32)).bits)

theorem Branches.Holds.imp {D D' : VerifierState → StackState → Prop} {b : Branches} {taken : Bool}
    (hD : ∀ state stack, D state stack → D' state stack) (h : b.Holds D taken) :
    b.Holds D' taken := ⟨fun ht => hD _ _ (h.1 ht), fun hf => hD _ _ (h.2 hf)⟩

/-! ## 64-bit jumps -/

/-- **Refining a 64-bit conditional jump is sound.** -/
theorem refineBranch64_depicts (h : Depicts L sized state stack s) (insn : BpfInsn) (op : JmpOp)
    (src : Source) : EdgesDepict L sized state stack insn op src false s := by
  obtain ⟨ρ, hρ⟩ := h
  exact (hρ.edges64 insn op src).imp fun _ _ h => ⟨ρ, h⟩

/-- A fresh machine with a number in r0, and what the verifier may hold of it. -/
theorem depicts_number (L : Layout) (sized : ℕ → BitVec 32 → BitVec 64 → Prop)
    (hs : r.regType = .scalar) (h : r.Admits x) :
    Depicts L sized (VerifierState.entry.set .r0 r) .new
      ((MState.fresh L).advance .r0 (.number x)) :=
  ⟨fun _ => .number 0,
    ((MState.entry_fresh L).depicts _).set .r0 (.of_admits (v := .number x) hs h)⟩

/-- 41 on the taken edge of `if r0 > 10`. -/
theorem refineBranch64_depicts_number :
    Depicts .flat (fun _ _ _ => True)
      (refineBranch ⟨VerifierState.entry.set .r0 .scalarUnknown, .new,
        VerifierState.entry.set .r0 .scalarUnknown, .new⟩ (.jmpImm .jgt .r0 10 0) .jgt .imm
        false).taken .new ((MState.fresh .flat).advance .r0 (.number 41)) :=
  (refineBranch64_depicts (depicts_number .flat _ rfl (RegState.admits_unbounded .scalar 41))
    (.jmpImm .jgt .r0 10 0) .jgt .imm).1 rfl

/-! ## The upper bound of a signed 32-bit comparison -/

/-- The bounds of a register leave one word. -/
def RegState.Pinned (r : RegState) : Prop :=
  maxS (maxU r.umin r.tnum.minValue) r.smin = minU r.umax r.tnum.maxValue

instance (r : RegState) : Decidable r.Pinned := inferInstanceAs (Decidable (_ = _))

/-- The low half is bounded by a negative number: the one compared with, or the one below it where
the comparison excludes it. -/
def NegativeBound (op : JmpOp) (val : BitVec 64) : Prop :=
  (val.setWidth 32).toInt < 0 ∨ (op = .jsge ∨ op = .jslt) ∧ val.setWidth 32 = 0

instance (op : JmpOp) (val : BitVec 64) : Decidable (NegativeBound op val) :=
  inferInstanceAs (Decidable (_ ∨ _))

/-- What the last step of `refineBounds` leaves. -/
theorem admits_refineCollapse_iff : r.refineCollapse.Admits x ↔
    r.umin = r.umax ∧ x = r.umin ∨ r.umin ≠ r.umax ∧ r.Admits x := by
  unfold RegState.refineCollapse
  split
  · next heq =>
    simp only [heq, true_and, ne_eq, not_true_eq_false, false_and, or_false]
    constructor
    · intro h
      exact Tnum.has_constant.mp h.tnum
    · rintro rfl
      exact
        { tnum := Tnum.has_constant.mpr rfl
          umin := Nat.le_refl _
          umax := Nat.le_refl _
          smin := Int.le_refl _
          smax := Int.le_refl _ }
  · next hne => simp only [hne, false_and, false_or, ne_eq, not_false_eq_true, true_and]

/-- The bounds after the four steps of `refineBounds` before the last, with an upper bound lowered
to `hi`. -/
def RegState.lowered (r : RegState) (hi : BitVec 64) (t : Tnum) : RegState :=
  let lo := maxU r.umin r.tnum.minValue
  let up := minU r.umax r.tnum.maxValue
  { r with
    tnum := t
    umin := maxU lo (maxS r.smin lo)
    umax := minU up hi
    smin := maxS r.smin lo
    smax := hi }

/-- Lowering the signed upper bound of a 32-bit word below the word. -/
theorem refineBounds_lowered (h : r.Admits x) (hu : r.umax.toNat < 2 ^ 32)
    (hx : hi.toInt < x.toInt) :
    ∃ t, ({ r with smax := minS r.smax hi } : RegState).refineBounds
      = (r.lowered hi t).refineCollapse := by
  have hxmax := h.umax
  have hlox := h.refineFromTnum.umin
  have hxup := h.refineFromTnum.umax
  simp only [RegState.refineFromTnum] at hlox hxup
  unfold RegState.lowered
  generalize hlo : maxU r.umin r.tnum.minValue = lo at hlox ⊢
  generalize hup : minU r.umax r.tnum.maxValue = up at hxup ⊢
  have hupmax : up.toNat ≤ r.umax.toNat := by
    rw [← hup, toNat_minU]
    exact Nat.min_le_left _ _
  have hxi := toInt_eq_of_lt (x := x) (by omega)
  have hloi := toInt_eq_of_lt (x := lo) (by omega)
  have hupi := toInt_eq_of_lt (x := up) (by omega)
  have hI : I64_MAX.toNat = 2 ^ 63 - 1 := by decide
  have hsmax : minS r.smax hi = hi := by
    refine if_neg ?_
    have := h.smax
    rw [BitVec.sle_eq_decide, decide_eq_true_eq]
    omega
  have hhi : minS hi up = hi := by
    refine if_pos ?_
    rw [BitVec.sle_eq_decide, decide_eq_true_eq]
    omega
  refine ⟨if lo = up then .constant lo else r.tnum, ?_⟩
  have h₁ : ({ r with smax := minS r.smax hi } : RegState).refineFromTnum
      = { r with smax := hi, umin := lo, umax := up } := by
    simp only [RegState.refineFromTnum, hsmax, hlo, hup]
  have h₂ : ({ r with smax := hi, umin := lo, umax := up } : RegState).refineTnum
      = { r with
          tnum := if lo = up then .constant lo else r.tnum
          smax := hi
          umin := lo
          umax := up } := by
    unfold RegState.refineTnum
    split <;> rfl
  rw [RegState.refineBounds, h₁, h₂, RegState.refineSigned, if_pos, RegState.refineUnsigned, if_pos]
  · simp only [hhi]
  · have := toInt_maxS r.smin lo
    simp only [BitVec.sle_eq_decide, decide_eq_true_eq, BitVec.toInt_zero]
    omega
  · simp only [Bool.and_eq_true, BitVec.ule_eq_decide, decide_eq_true_eq]
    omega

/-- **A signed upper bound below a 32-bit word keeps the word only by collapsing to it.** -/
theorem admits_lowerSmax_iff (h : r.Admits x) (hu : r.umax.toNat < 2 ^ 32)
    (hx : 2 ^ 31 ≤ x.toNat) (hhi : hi.toInt < 2 ^ 31) :
    ({ r with smax := minS r.smax hi } : RegState).refineBounds.Admits x ↔
      hi.toInt < 0 ∧ r.Pinned := by
  have hxmax := h.umax
  have hxi := toInt_eq_of_lt (x := x) (by omega)
  have hlt : hi.toInt < x.toInt := by omega
  obtain ⟨t, ht⟩ := refineBounds_lowered h hu hlt
  have hout : ¬(r.lowered hi t).Admits x := fun hx' => by
    have hle : x.toInt ≤ hi.toInt := hx'.smax
    omega
  rw [ht, admits_refineCollapse_iff, or_iff_left fun hx' => hout hx'.2]
  have hlox := h.refineFromTnum.umin
  have hxup := h.refineFromTnum.umax
  have hsmin := h.smin
  simp only [RegState.refineFromTnum] at hlox hxup
  have hupmax : (minU r.umax r.tnum.maxValue).toNat ≤ r.umax.toNat := by
    rw [toNat_minU]
    exact Nat.min_le_left _ _
  unfold RegState.Pinned RegState.lowered
  generalize maxU r.umin r.tnum.minValue = lo at hlox ⊢
  generalize minU r.umax r.tnum.maxValue = up at hxup hupmax ⊢
  have hloi := toInt_eq_of_lt (x := lo) (by omega)
  have hupi := toInt_eq_of_lt (x := up) (by omega)
  -- the raised lower bound reads the same in both orders
  have hm := toInt_maxS r.smin lo
  have hmN : (maxS r.smin lo).toInt = (maxS r.smin lo).toNat := by
    rcases toInt_cases (maxS r.smin lo) with ⟨_, hpos⟩ | ⟨_, _, _⟩
    · exact hpos
    · omega
  rw [← BitVec.toNat_inj, ← BitVec.toNat_inj, ← BitVec.toInt_inj, toInt_maxS, toNat_maxU,
    toNat_minU]
  rcases toInt_cases hi with ⟨_, _⟩ | ⟨_, _, _⟩ <;> constructor <;> omega

/-- On an edge that lowers the signed upper bound, a 32-bit word with bit 31 set is kept only where
the bounds collapse to it. -/
theorem admits_clampS32Max_iff (h : r.Admits x) (hu : r.umax.ule U32_MAX = true)
    (hx : 2 ^ 31 ≤ x.toNat) (hhi : hi.toInt < 2 ^ 31) :
    (clampS32Max r hi).Admits x ↔ hi.toInt < 0 ∧ r.Pinned := by
  have hU := toNat_U32_MAX
  rw [clampS32Max, if_pos hu]
  rw [BitVec.ule_eq_decide, decide_eq_true_eq] at hu
  exact admits_lowerSmax_iff h (by omega) hx hhi

/-! ## Scalars under a 32-bit jump -/

/-- **A 32-bit comparison of a scalar keeps the word on its edge**: it lowers no signed upper bound
there, or bit 31 of the word is clear, or the bounds collapse to the word. -/
def KeepsWord (r : RegState) (op : JmpOp) (val x : BitVec 64) : Prop :=
  boundedAbove op (compare op (x.setWidth 32) (val.setWidth 32)) = true →
    r.umax.ule U32_MAX = true → x.toNat < 2 ^ 31 ∨ NegativeBound op val ∧ r.Pinned

instance (r : RegState) (op : JmpOp) (val x : BitVec 64) : Decidable (KeepsWord r op val x) :=
  inferInstanceAs (Decidable (_ → _))

theorem toInt_predS {a : BitVec 64} (h : -2 ^ 63 < a.toInt) : (predS a).toInt = a.toInt - 1 := by
  have hmin : (BitVec.intMin 64).toInt = -2 ^ 63 := by decide
  have hne : a ≠ BitVec.intMin 64 := by
    rintro rfl
    omega
  rw [predS, if_neg hne, toInt_sub_one_of_gt h]

/-- **The edges of a 32-bit comparison of a scalar** describe the word when they keep it. -/
theorem edges32_iff (h : r.Admits x) (op : JmpOp) :
    EdgeHolds RegState.Admits (refineScalar32 r r op val)
        (compare op (x.setWidth 32) (val.setWidth 32)) x ↔ KeepsWord r op val x := by
  by_cases hex : boundedAbove op (compare op (x.setWidth 32) (val.setWidth 32)) = true →
      r.umax.ule U32_MAX = true → x.toNat < 2 ^ 31
  · exact iff_of_true (reading_admits.edges32 h op hex) fun hb hu => Or.inl (hex hb hu)
  · simp only [Classical.not_imp] at hex
    obtain ⟨hb, hu, hx⟩ := hex
    have hx' : 2 ^ 31 ≤ x.toNat := Nat.not_lt.mp hx
    have hs := toInt_sval val
    have hlo := BitVec.le_toInt (x := val.setWidth 32)
    have hhi := BitVec.toInt_lt (x := val.setWidth 32)
    have hpred := toInt_predS (a := ((val &&& U32_MAX).setWidth 32).signExtend 64) (by omega)
    have hzero : val.setWidth 32 = 0 ↔ (val.setWidth 32).toInt = 0 :=
      BitVec.toInt_inj.symm
    -- a bound that the comparison excludes is moved below itself
    have hstrict : (predS (((val &&& U32_MAX).setWidth 32).signExtend 64)).toInt < 0 ∧ r.Pinned ↔
        ((val.setWidth 32).toInt < 0 ∨ val.setWidth 32 = 0) ∧ r.Pinned := by
      rw [hpred, hs, hzero]
      exact and_congr_left fun _ => by omega
    simp only [KeepsWord, hb, hu, hx, forall_const, false_or, NegativeBound]
    generalize compare op (x.setWidth 32) (val.setWidth 32) = taken at hb ⊢
    cases op <;> cases taken <;> cases hb
    all_goals
      simp only [EdgeHolds, refineScalar32, reduceCtorEq, false_implies, true_implies, true_and,
        and_true, or_false, or_self, false_and, or_true]
      rw [admits_clampS32Max_iff h hu hx' (by omega)]
    · rw [hs]
    · exact hstrict
    · exact hstrict
    · rw [hs]

/-! ## 32-bit jumps -/

/-- **Refining a 32-bit conditional jump keeps the state on its edge**: a null test finds a low half
that is zero in zero only, and a comparison of a scalar keeps the word. -/
def KeepsState (state : VerifierState) (insn : BpfInsn) (op : JmpOp) (src : Source)
    (x : BitVec 64) : Prop :=
  match cmpVal state insn src true, (state.get insn.dst).regType with
  | some val, .ptrOrNull .. => val = 0 → op = .jeq ∨ op = .jne → x.setWidth 32 = 0 → x = 0
  | some val, .scalar => KeepsWord (state.get insn.dst) op val x
  | _, _ => True

instance (state : VerifierState) (insn : BpfInsn) (op : JmpOp) (src : Source) (x : BitVec 64) :
    Decidable (KeepsState state insn op src x) := by
  unfold KeepsState
  split <;> infer_instance

/-- A null test on 32 bits resolves the tested pointer rightly when its low half is zero in null
only. -/
theorem refineNull32_iff (h : DepictsWith L sized ρ state stack s) {dst : Reg} {inner : RegType}
    {pc : Option ℕ} {id : ℕ} (ht : (state.get dst).regType = .ptrOrNull inner pc id) :
    (refineNull ⟨state, stack, state, stack⟩ op inner id).Holds
        (fun state stack => Depicts L sized state stack s)
        (compare op ((s.regs dst).bits.setWidth 32) (0 : BitVec 32)) ↔
      (op = .jeq ∨ op = .jne → (s.regs dst).bits.setWidth 32 = 0 → (s.regs dst).bits = 0) := by
  have hnull (stack' : StackState)
      (hd : Depicts L sized (refineAllWithId state id .null) stack' s) : (s.regs dst).bits = 0 := by
    obtain ⟨ρ', hρ⟩ := hd
    have htype := (hρ.regs dst).type
    rw [get_refineAllWithId, refineWithId, ht] at htype
    simp only [if_true] at htype
    exact Val.IsNull.bits_eq htype
  have h64 := h.refineNull ht op
  have hD (state : VerifierState) (stack : StackState) (h : DepictsWith L sized ρ state stack s) :
      Depicts L sized state stack s := ⟨ρ, h⟩
  by_cases hop : op = .jeq ∨ op = .jne
  · simp only [hop, forall_const]
    constructor
    · intro hb hlow
      rcases hop with rfl | rfl
      · exact hnull _ (hb.1 (by simp [compare, hlow]))
      · exact hnull _ (hb.2 (by simp [compare, hlow]))
    · intro hzero
      have hcmp : compare op ((s.regs dst).bits.setWidth 32) (0 : BitVec 32)
          = compare op (s.regs dst).bits 0 := by
        have hiff : (s.regs dst).bits.setWidth 32 = 0 ↔ (s.regs dst).bits = 0 :=
          ⟨hzero, fun hz => by rw [hz]; rfl⟩
        rcases hop with rfl | rfl <;> simp only [compare, hiff, ne_eq]
      rw [hcmp]
      exact h64.imp hD
  · have hsame : refineNull ⟨state, stack, state, stack⟩ op inner id
        = ⟨state, stack, state, stack⟩ := by
      cases op <;> simp_all [refineNull]
    rw [hsame]
    exact iff_of_true ⟨fun _ => hD _ _ h, fun _ => hD _ _ h⟩ fun hop' => absurd hop' hop

/-- A comparison on 32 bits narrows a scalar rightly when it keeps its word. -/
theorem refineScalar32_iff (h : DepictsWith L sized ρ state stack s) {dst : Reg}
    (ht : (state.get dst).regType = .scalar) :
    (refineScalar ⟨state, stack, state, stack⟩ dst op val true).Holds
        (fun state stack => Depicts L sized state stack s)
        (compare op ((s.regs dst).bits.setWidth 32) (val.setWidth 32)) ↔
      KeepsWord (state.get dst) op val (s.regs dst).bits := by
  have hb := (h.regs dst).bounds ht
  obtain ⟨hs₁, hs₂⟩ := isScalar_refineScalar32 ⟨ht, hb.tnum.wf⟩ op val
  -- only the tested register is narrowed
  have hset {q : RegState} (hq : q.IsScalar) :
      Depicts L sized (state.set dst q) stack s ↔ q.Admits (s.regs dst).bits := by
    constructor
    · rintro ⟨ρ', hρ⟩
      have hdst := hρ.regs dst
      rw [VerifierState.get_set_self] at hdst
      exact hdst.bounds hq.type
    · exact fun hq' => ⟨ρ, h.narrow dst hq.type hq'⟩
  rw [← edges32_iff hb op]
  exact and_congr (imp_congr_right fun _ => hset hs₁) (imp_congr_right fun _ => hset hs₂)

/-- **Refining a 32-bit conditional jump is sound** exactly where it keeps the state on its edge. -/
theorem refineBranch32_depicts_iff (h : Depicts L sized state stack s) (insn : BpfInsn)
    (op : JmpOp) (src : Source) :
    EdgesDepict L sized state stack insn op src true s ↔
      KeepsState state insn op src (s.regs insn.dst).bits := by
  obtain ⟨ρ, hρ⟩ := h
  have hself {taken : Bool} : (⟨state, stack, state, stack⟩ : Branches).Holds
      (fun state stack => Depicts L sized state stack s) taken :=
    ⟨fun _ => ⟨ρ, hρ⟩, fun _ => ⟨ρ, hρ⟩⟩
  unfold EdgesDepict refineBranch
  split
  · next val inner pc id hval ht =>
    have hval' : cmpVal state insn src true = some val := hval
    have ht' : (state.get insn.dst).regType = .ptrOrNull inner pc id := ht
    have hbits : (s.operand insn src false).bits = val := hρ.cmpVal hval'
    simp only [KeepsState, hval', ht']
    split
    · next hzero =>
      subst hzero
      simp only [forall_const]
      rw [← refineNull32_iff hρ ht', show (s.operand insn src (!true)).bits = 0 from hbits]
      rfl
    · next hne => exact iff_of_true hself fun hzero => absurd hzero hne
  · next val hval ht =>
    have hval' : cmpVal state insn src true = some val := hval
    have ht' : (state.get insn.dst).regType = .scalar := ht
    have hbits : (s.operand insn src false).bits = val := hρ.cmpVal hval'
    simp only [KeepsState, hval', ht']
    rw [← refineScalar32_iff hρ ht', show (s.operand insn src (!true)).bits = val from hbits]
    rfl
  · next hnull hscalar =>
    refine iff_of_true hself ?_
    unfold KeepsState
    split
    · next hval ht => exact absurd ht (hnull _ _ _ _ hval)
    · next hval ht => exact absurd ht (hscalar _ hval)
    · trivial

/-- `if w0 s< 0` -/
def ifLowNegative : BpfInsn := .plain (.jmp32 .jslt .imm) .r0 .r0 0 0

/-- A number with a known sign on the edge of `if w0 s< 0` not taken. -/
theorem refineBranch32_depicts_number :
    Depicts .flat (fun _ _ _ => True)
      (refineBranch ⟨VerifierState.entry.set .r0 (mov32 .scalarUnknown), .new,
        VerifierState.entry.set .r0 (mov32 .scalarUnknown), .new⟩ ifLowNegative .jslt .imm
        true).fall .new ((MState.fresh .flat).advance .r0 (.number 41)) :=
  ((refineBranch32_depicts_iff (depicts_number .flat _ rfl (by decide)) ifLowNegative .jslt
    .imm).mpr (by decide)).2 rfl

/-- **A low half with bit 31 set, compared with zero**: the taken edge of `if w0 s< 0` bounds it
above by minus one, as a 64-bit number. -/
theorem not_refineBranch32_depicts : ¬∀ (L : Layout)
    (sized : ℕ → BitVec 32 → BitVec 64 → Prop) (state : VerifierState) (stack : StackState)
    (s : MState) (insn : BpfInsn) (op : JmpOp) (src : Source), Depicts L sized state stack s →
    EdgesDepict L sized state stack insn op src true s := by
  intro h
  have hlow : (mov32 .scalarUnknown).Admits 0xFFFFFFFF := by decide
  have hedges := h .flat (fun _ _ _ => True) _ .new _ ifLowNegative .jslt .imm
    (depicts_number .flat _ rfl hlow)
  obtain ⟨ρ, hρ⟩ := hedges.1 rfl
  exact absurd ((hρ.regs .r0).bounds rfl) (by decide)

end BpfVerifier
