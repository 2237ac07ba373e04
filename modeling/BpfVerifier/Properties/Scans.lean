import BpfVerifier.Checks.Forward
import BpfVerifier.Properties.Checks

/-!
# Properties/Scans — what the stack-bounds and null-safety passes hold is true

In a programme whose jumps are all conditional and go forward, the offsets of the stack-bounds pass
are the offsets of the run (`offsets_exact`), and the verdicts of the null-safety pass on a register
are true of it (`verdicts_true`), at every step of every run under every schedule.
-/

namespace BpfVerifier.Fstar

/-! ## Offsets -/

/-- What the stack-bounds pass says of a value. -/
def AbsReg.Describes : AbsReg → RegVal → Prop
  | .AbsFramePtr off, v => v = .framePtr off
  | .AbsCtxPtr off, v => v = .ctxPtr off
  | .AbsRingBufPtr _, _ | .AbsOther, _ => True

theorem describes_joinReg {a b : AbsReg} {v : RegVal} (h : a.Describes v ∨ b.Describes v) :
    (joinReg a b).Describes v := by
  unfold joinReg
  split
  · split
    · next heq =>
      subst heq
      exact h.elim id id
    · trivial
  · split
    · next heq =>
      subst heq
      exact h.elim id id
    · trivial
  · split <;> trivial
  · trivial

theorem describes_shiftReg {a : AbsReg} {v v' : RegVal} {delta : Int} (h : a.Describes v)
    (hshift : shiftPtr v delta = some v') : (shiftReg a delta).Describes v' := by
  cases a with
  | AbsFramePtr off =>
    obtain rfl : v = .framePtr off := h
    exact (Option.some.inj hshift).symm
  | AbsCtxPtr off =>
    obtain rfl : v = .ctxPtr off := h
    exact (Option.some.inj hshift).symm
  | _ => trivial

/-- A number is no pointer with an offset. -/
theorem describes_shiftReg_scalar {a : AbsReg} {n m : BitVec 64} {delta : Int}
    (h : a.Describes (.scalar n)) : (shiftReg a delta).Describes (.scalar m) := by
  cases a with
  | AbsFramePtr off => cases h
  | AbsCtxPtr off => cases h
  | _ => trivial

/-- What the pass makes of an operation that gives a number. -/
theorem transferSb_numberDst {abs fall : AbsState} {insn : Insn} {pc : Int} {dst : Reg}
    {edge : Option (Int × AbsState)} (hdst : insn.numberDst = some dst)
    (h : transferSb abs insn pc = some (fall, edge)) :
    fall = absSet abs dst .AbsOther ∨ ∃ op imm delta, insn = .alu64Imm op dst imm ∧
      shiftDelta op imm = some delta ∧ fall = absSet abs dst (shiftReg (abs dst) delta) := by
  cases insn with
  | alu64Reg op d s => cases op <;> simp_all [Insn.numberDst, transferSb]
  | alu64Imm op d imm => cases op <;> simp_all [Insn.numberDst, transferSb, shiftDelta]
  | _ => simp_all [Insn.numberDst, transferSb]

/-- ADD and SUB of an immediate make a number of a number only. -/
theorem scalar_of_shift {st : BpfState} {op : AluOp} {dst : Reg} {imm : BitVec 32} {delta : Int}
    {n : BitVec 64} (hdelta : shiftDelta op imm = some delta)
    (h : execInsn st (.alu64Imm op dst imm) = some (st.setReg dst (.scalar n))) :
    ∃ m, st.regs dst = .scalar m := by
  -- a pointer is moved to a pointer
  have hne (v : RegVal) (hv : shiftPtr (st.regs dst) delta = some v) : v = .scalar n := by
    rw [execInsn_shift hdelta hv] at h
    exact setReg_inj.mp (congrArg BpfState.regs (Option.some.inj h))
  cases hreg : st.regs dst with
  | scalar m => exact ⟨m, rfl⟩
  | framePtr off => cases hne (.framePtr (off + delta)) (by rw [hreg]; rfl)
  | ctxPtr off => cases hne (.ctxPtr (off + delta)) (by rw [hreg]; rfl)
  | _ =>
    cases op <;> simp only [shiftDelta, reduceCtorEq] at hdelta
    all_goals simp [execInsn, execAlu64Imm, hreg] at h

/-- A call keeps the offsets of r6–r10 and forgets the others. -/
theorem described_call_sb {abs : AbsState} {st st' : BpfState} {sched sched' : PathSchedule}
    {hid : HelperId} (h : Described AbsReg.Describes abs st.regs)
    (heffect : PathEffect st sched (.call hid) st' sched') :
    Described AbsReg.Describes (forgetCallerSaved abs) st'.regs := by
  obtain ⟨v, hregs, -⟩ := call_regs heffect
  have hset : Described AbsReg.Describes (absSet abs .r0 .AbsOther) st'.regs := by
    rw [hregs]
    exact h.set .r0 trivial
  have hother (v : RegVal) : AbsReg.AbsOther.Describes v := trivial
  exact ((((hset.forget .r1 (hother _)).forget .r2 (hother _)).forget .r3 (hother _)).forget .r4
    (hother _)).forget .r5 (hother _)

/-- **The stack-bounds pass goes on describing the registers.** -/
theorem sbDescribing : Describing sbScanner AbsReg.Describes where
  join_left h r := describes_joinReg (Or.inl (h r))
  join_right h r := describes_joinReg (Or.inr (h r))
  falls {abs fall insn pc edge st st' sched sched'} hexit hja htr heffect h htaken := by
    have htr' : transferSb abs insn pc = some (fall, edge) := htr
    have hcalls (hid : HelperId) (heq : insn = .call hid) :
        Described AbsReg.Describes fall st'.regs := by
      subst heq
      obtain ⟨rfl, -⟩ := Prod.ext_iff.mp (Option.some.inj htr')
      exact described_call_sb h heffect
    cases heffect with
    | plain hcall hexec heff =>
      cases heff with
      | move dst src =>
        obtain ⟨rfl, -⟩ := Prod.ext_iff.mp (Option.some.inj htr')
        exact h.set dst (h src)
      | @shift op dst imm delta v hdelta hv =>
        rw [transferSb_shift hdelta htr']
        exact h.set dst (describes_shiftReg (h dst) hv)
      | @number _ dst n hdst =>
        rcases transferSb_numberDst hdst htr' with rfl | ⟨op, imm, delta, rfl, hdelta, rfl⟩
        · exact h.set dst trivial
        · obtain ⟨m, hm⟩ := scalar_of_shift hdelta hexec
          exact h.set dst (describes_shiftReg_scalar (hm ▸ h dst))
      | store stack ringbuf hstore =>
        rw [transferSb_store hstore htr']
        exact h
      | branch hcond =>
        rw [(transferSb_branch (condition_offset hcond).1 hja htr').1]
        exact h
      | goto offset => cases hja
      | exit => exact absurd rfl hexit
    | nullable hspec hnull => exact hcalls _ rfl
    | number hspec hnull => exact hcalls _ rfl
  jumps {abs fall insn pc edge st st' sched sched' off} hja htr heffect h htaken := by
    have hoff := branchOffset_of_taken htaken
    obtain ⟨-, rfl⟩ := transferSb_branch hoff hja htr
    refine ⟨abs, rfl, ?_⟩
    rw [regs_of_branch hoff heffect]
    exact h

/-- **The stack-bounds pass tracks exact offsets**: at each step of each run of a programme it
accepts, a frame or context pointer that it knows is in the register, at the offset it knows. -/
theorem offsets_exact {prog : BpfProgram} (hfwd : OnlyForwardBranches prog = true)
    (hcheck : stackBoundsCheck prog = true) {init : BpfState} (hpc : init.pc = 0)
    (h10 : init.regs .r10 = .framePtr 0) (h1 : init.regs .r1 = .ctxPtr 0) {sched : PathSchedule}
    {n : ℕ} {c : BpfState × PathSchedule} {insn : Insn}
    (hc : (pathInterp prog).after n (init, sched) = some c)
    (hinsn : fetchAt prog c.1.pc = some insn) :
    ∃ (k : ℕ) (abs : AbsState), c.1.pc = k ∧ sbAt prog k = some abs ∧
      ∀ r m, (abs r = .AbsFramePtr m → c.1.regs r = .framePtr m) ∧
        (abs r = .AbsCtxPtr m → c.1.regs r = .ctxPtr m) := by
  have hinit : Described AbsReg.Describes absInit init.regs := by
    intro r
    unfold absInit
    split
    · next heq => exact heq ▸ h10
    · split
      · next heq => exact heq ▸ h1
      · trivial
  obtain ⟨hnonneg, hdescribed⟩ := sbDescribing.after hfwd hcheck hpc hinit hc
  obtain ⟨abs, fall, edge, habs, -⟩ :=
    Scanner.transfer_mergedAt hcheck ((fetchAt_eq prog c.1.pc).symm.trans hinsn)
  refine ⟨c.1.pc.toNat, abs, (Int.toNat_of_nonneg hnonneg).symm, habs, fun r m => ?_⟩
  have hr := hdescribed abs habs r
  exact ⟨fun h => by rwa [h] at hr, fun h => by rwa [h] at hr⟩

theorem offsets_exact_joinsOffsets :
    ∃ c, (pathInterp joinsOffsets).after 4 (blankEntry, []) = some c ∧
      ∃ (k : ℕ) (abs : AbsState), c.1.pc = k ∧ sbAt joinsOffsets k = some abs ∧
        ∀ r m, (abs r = .AbsFramePtr m → c.1.regs r = .framePtr m) ∧
          (abs r = .AbsCtxPtr m → c.1.regs r = .ctxPtr m) := by
  obtain ⟨c, hc⟩ : ∃ c, (pathInterp joinsOffsets).after 4 (blankEntry, []) = some c := ⟨_, rfl⟩
  have hinsn : fetchAt joinsOffsets c.1.pc = some (.st .dw .r2 0 42) := by
    cases hc
    rfl
  exact ⟨c, hc, offsets_exact (by decide) (by decide) rfl rfl rfl hc hinsn⟩

/-! ## Null verdicts -/

/-- What the null-safety pass says of a value. -/
def NullStatus.Describes : NullStatus → RegVal → Prop
  | .Checked, v => v ≠ .null
  | .IsNull, v => v = .null ∨ v = .scalar 0
  | .Unchecked, _ | .NotMap, _ => True

theorem describes_joinStatus {a b : NullStatus} {v : RegVal} (h : a.Describes v ∨ b.Describes v) :
    (joinStatus a b).Describes v := by
  cases a <;> cases b <;> first | trivial | exact h.elim id id

theorem isZero_of_ne {v : RegVal} {b : Bool} (h : regValIsZero v = some b) :
    (b = true → v = .null ∨ v = .scalar 0) ∧ (b = false → v ≠ .null) := by
  cases v with
  | scalar m =>
    obtain rfl : decide (m = 0) = b := Option.some.inj h
    simp
  | _ => simp_all [regValIsZero]

/-- **A conditional jump keeps the verdicts true on the edge it takes.** -/
theorem described_branch_ns {abs fall : AbsStateNs} {st : BpfState} {insn : Insn} {pc : Int}
    {edge : Option (Int × AbsStateNs)} {cond : Bool} {offset : Int}
    (h : Described NullStatus.Describes abs st.regs)
    (htr : transferNs abs insn pc = some (fall, edge))
    (hcond : insn.condition st = some (cond, offset)) :
    ∃ jump, edge = some (pc + 1 + offset, jump) ∧
      Described NullStatus.Describes (if cond then jump else fall) st.regs := by
  obtain ⟨jump, hedge, hkept | ⟨dst, zero, hzero, hset⟩⟩ := transferNs_branch htr hcond
  · exact ⟨jump, hedge, hkept ▸ h⟩
  · refine ⟨jump, hedge, ?_⟩
    rw [hset]
    obtain ⟨hnull, hnonnull⟩ := isZero_of_ne hzero
    cases zero with
    | true => exact h.forget dst (hnull rfl)
    | false => exact h.forget dst (hnonnull rfl)

/-- A call gives r0 an unchecked result, and the pass forgets r1–r5. -/
theorem described_call_ns {abs : AbsStateNs} {st st' : BpfState} {sched sched' : PathSchedule}
    {hid : HelperId} (h : Described NullStatus.Describes abs st.regs)
    (heffect : PathEffect st sched (.call hid) st' sched') :
    Described NullStatus.Describes (afterCallNs abs (callStatus hid)) st'.regs := by
  obtain ⟨v, hregs, -⟩ := call_regs heffect
  have hresult : (callStatus hid).Describes v := by
    unfold callStatus
    split
    · split <;> trivial
    · trivial
  have hset : Described NullStatus.Describes (nsSet abs .r0 (callStatus hid)) st'.regs := by
    rw [hregs]
    exact h.set .r0 hresult
  have hother (v : RegVal) : NullStatus.NotMap.Describes v := trivial
  exact ((((hset.forget .r1 (hother _)).forget .r2 (hother _)).forget .r3 (hother _)).forget .r4
    (hother _)).forget .r5 (hother _)

/-- **The null-safety pass goes on describing the registers.** -/
theorem nsDescribing : Describing nsScanner NullStatus.Describes where
  join_left h r := describes_joinStatus (Or.inl (h r))
  join_right h r := describes_joinStatus (Or.inr (h r))
  falls {abs fall insn pc edge st st' sched sched'} hexit hja htr heffect h htaken := by
    have htr' : transferNs abs insn pc = some (fall, edge) := htr
    have hcalls (hid : HelperId) (heq : insn = .call hid) :
        Described NullStatus.Describes fall st'.regs := by
      subst heq
      obtain ⟨rfl, -⟩ := Prod.ext_iff.mp (Option.some.inj htr')
      exact described_call_ns h heffect
    cases heffect with
    | plain hcall hexec heff =>
      cases heff with
      | move dst src =>
        obtain ⟨rfl, -⟩ := Prod.ext_iff.mp (Option.some.inj htr')
        exact h.set dst (h src)
      | @shift op dst imm delta v hdelta hv =>
        obtain ⟨rfl, -⟩ := Prod.ext_iff.mp (Option.some.inj htr')
        exact h.set dst trivial
      | @number _ dst n hdst =>
        rw [transferNs_number hdst htr']
        exact h.set dst trivial
      | store stack ringbuf hstore =>
        rw [transferNs_store hstore htr']
        exact h
      | @branch _ cond offset hcond =>
        obtain ⟨jump, -, hdescribed⟩ := described_branch_ns h htr' hcond
        rw [taken_of_condition hcond] at htaken
        cases cond with
        | true => cases htaken
        | false => exact hdescribed
      | goto offset => cases hja
      | exit => exact absurd rfl hexit
    | nullable hspec hnull => exact hcalls _ rfl
    | number hspec hnull => exact hcalls _ rfl
  jumps {abs fall insn pc edge st st' sched sched' off} hja htr heffect h htaken := by
    obtain ⟨jump, rfl, hdescribed⟩ :=
      described_branch_ns h htr (condition_of_taken hja htaken)
    refine ⟨jump, rfl, ?_⟩
    rw [regs_of_branch (branchOffset_of_taken htaken) heffect]
    exact hdescribed

/-- **The verdicts of the null-safety pass are true**: at each step of each run of a programme it
accepts, a checked register holds no null, and one known to be null holds null or the number 0. -/
theorem verdicts_true {prog : BpfProgram} (hfwd : OnlyForwardBranches prog = true)
    (hcheck : nullCheck prog = true) {init : BpfState} (hpc : init.pc = 0) {sched : PathSchedule}
    {n : ℕ} {c : BpfState × PathSchedule} {insn : Insn}
    (hc : (pathInterp prog).after n (init, sched) = some c)
    (hinsn : fetchAt prog c.1.pc = some insn) :
    ∃ (k : ℕ) (abs : AbsStateNs), c.1.pc = k ∧ nsAt prog k = some abs ∧
      ∀ r, (abs r = .Checked → c.1.regs r ≠ .null) ∧
        (abs r = .IsNull → c.1.regs r = .null ∨ c.1.regs r = .scalar 0) := by
  obtain ⟨hnonneg, hdescribed⟩ :=
    nsDescribing.after hfwd hcheck hpc (fun _ => trivial) hc
  obtain ⟨abs, fall, edge, habs, -⟩ :=
    Scanner.transfer_mergedAt hcheck ((fetchAt_eq prog c.1.pc).symm.trans hinsn)
  refine ⟨c.1.pc.toNat, abs, (Int.toNat_of_nonneg hnonneg).symm, habs, fun r => ?_⟩
  have hr := hdescribed abs habs r
  exact ⟨fun h => by rwa [h] at hr, fun h => by rwa [h] at hr⟩

theorem verdicts_true_guardedLoad :
    ∃ c, (pathInterp guardedLoad).after 2 (blankEntry, [.NonNull]) = some c ∧
      ∃ (k : ℕ) (abs : AbsStateNs), c.1.pc = k ∧ nsAt guardedLoad k = some abs ∧
        ∀ r, (abs r = .Checked → c.1.regs r ≠ .null) ∧
          (abs r = .IsNull → c.1.regs r = .null ∨ c.1.regs r = .scalar 0) := by
  obtain ⟨c, hc⟩ : ∃ c, (pathInterp guardedLoad).after 2 (blankEntry, [.NonNull]) = some c :=
    ⟨_, rfl⟩
  have hinsn : fetchAt guardedLoad c.1.pc = some (.ldx .dw .r0 .r0 0) := by
    cases hc
    rfl
  exact ⟨c, hc, verdicts_true (by decide) (by decide) rfl hc hinsn⟩

end BpfVerifier.Fstar
