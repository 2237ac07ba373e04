import BpfVerifier.Fstar.Verify

/-!
# Fstar/Safe — `BPF.Exec.Safe`, the guarded executor

A copy of the executor that skips the frame's bounds check when stack evidence is given, and that
knows the value of a looked-up map element only with null evidence.
-/

namespace BpfVerifier.Fstar

/-- Which safety properties have been established for a programme. -/
structure SafetyEvidence where
  stackSafe : Bool
  typeSafe : Bool
  nullSafe : Bool
  deriving DecidableEq, Repr

def evidenceNone : SafetyEvidence := ⟨false, false, false⟩

def evidenceStack : SafetyEvidence := ⟨true, false, false⟩

/-- The guarded copy of `BPF_ALU32_IMM`: its MOV sign-extends the immediate. -/
def execAlu32ImmSafe (st : BpfState) (op : AluOp) (dst : Reg) (imm : BitVec 32) : Option BpfState :=
  match op with
  | .mov => some (st.setReg dst (.scalar (signExtendImm imm)))
  | _ => execAlu32ImmOp st op dst imm

/-- How the frame is read: without a bounds check when stack evidence is given. -/
def stackLoadSafe (st : BpfState) (ev : SafetyEvidence) (offset : Int) (width : MemWidth) :
    Option (BitVec 64) :=
  if ev.stackSafe then stackRead st.stack offset width else st.stackLoad offset width

/-- How the frame is written: without a bounds check when stack evidence is given. -/
def stackStoreSafe (st : BpfState) (ev : SafetyEvidence) (offset : Int) (width : MemWidth)
    (v : BitVec 64) : Option BpfState :=
  if ev.stackSafe then
    some { st with stack := stackWrite st.stack offset width v, pc := st.pc + 1 }
  else st.stackStore offset width v

/-- **`exec_insn_safe`.** -/
def execInsnSafe (st : BpfState) (insn : Insn) (ev : SafetyEvidence) : Option BpfState :=
  match insn with
  | .alu64Reg op dst src => execAlu64Reg st op dst src
  | .alu64Imm op dst imm => execAlu64Imm st op dst imm
  | .alu32Reg op dst src => execAlu32Reg st op dst src
  | .alu32Imm op dst imm => execAlu32ImmSafe st op dst imm
  | .ldImm64 dst imm => some (st.setReg dst (.scalar imm))
  | .ldx width dst src off => execLdxWith st (stackLoadSafe st ev) width dst src off
  | .stx width dst src off =>
    execStoreWith st (stackStoreSafe st ev) width dst off (scalarVal (st.regs src))
  | .st width dst off imm =>
    execStoreWith st (stackStoreSafe st ev) width dst off (some (signExtendImm imm))
  | .jmp64Reg op dst src offset => execJmp64Reg st op dst src offset
  | .jmp64Imm op dst imm offset => execJmp64Imm st op dst imm offset
  | .jmp32Reg op dst src offset => execJmp32Reg st op dst src offset
  | .jmp32Imm op dst imm offset => execJmp32Imm st op dst imm offset
  | .jmpJa offset => some (st.jump (st.takenPc offset))
  | .call hid =>
    match getHelperSpec hid with
    | some spec => execHelperSafe st spec ev.nullSafe
    | none => none
  | .exit => some st

/-- The guarded executor. -/
abbrev safeInterp (prog : BpfProgram) (ev : SafetyEvidence) : Interp BpfState Insn :=
  interpWith (fun st insn => execInsnSafe st insn ev) prog

/-- **`exec_program_safe`.** -/
def execProgramSafe (st : BpfState) (prog : BpfProgram) (fuel : ℕ) (ev : SafetyEvidence) :
    Option BpfState :=
  (safeInterp prog ev).run fuel st

/-- `program_satisfies_safe`. -/
def programSatisfiesSafe (prog : BpfProgram) (spec : BpfSpec) (ev : SafetyEvidence) : Prop :=
  ∀ init, spec.pre init → Meets spec.post (execProgramSafe init.entry prog prog.length ev)

/-! ## Where the copy differs

Two cases were copied wrongly: the 32-bit MOV of an immediate, and, without null evidence, a lookup
in a map. -/

/-- **The instructions on which the guarded copy differs from the executor.** -/
def Insn.drifts (ev : SafetyEvidence) : Insn → Bool
  | .alu32Imm .mov _ imm => imm.msb
  | .call hid => (getHelperSpec hid).any fun spec => spec.retType = .RetMapPtr && !ev.nullSafe
  | _ => false

/-- A negative immediate is not its zero extension. -/
theorem signExtendImm_eq_setWidth_iff (imm : BitVec 32) :
    signExtendImm imm = imm.setWidth 64 ↔ imm.msb = false := by
  have htoInt := BitVec.toInt_signExtend_of_le (x := imm) (v := 64) (by decide)
  constructor
  · intro h
    by_contra hmsb
    have hneg : imm.toInt < 0 := by
      rw [BitVec.toInt_neg_iff]
      simpa [BitVec.msb_eq_true_iff_two_mul_ge] using hmsb
    have hnat : (imm.setWidth 64).toInt = imm.toNat := by
      have hlt := imm.isLt
      rw [BitVec.toInt_eq_toNat_of_lt] <;> simp <;> omega
    have hsign : (signExtendImm imm).toInt = imm.toInt := htoInt
    rw [h, hnat] at hsign
    omega
  · intro hmsb
    exact BitVec.signExtend_eq_setWidth_of_msb_false hmsb

/-- The load of the guarded copy, without stack evidence. -/
theorem stackLoadSafe_of_unsafe {st : BpfState} {ev : SafetyEvidence} (h : ev.stackSafe = false) :
    stackLoadSafe st ev = st.stackLoad := by
  funext offset width
  simp [stackLoadSafe, h]

theorem stackStoreSafe_of_unsafe {st : BpfState} {ev : SafetyEvidence}
    (h : ev.stackSafe = false) : stackStoreSafe st ev = st.stackStore := by
  funext offset width v
  simp [stackStoreSafe, h]

/-- What the executor loads, the guarded copy loads. -/
theorem stackLoadSafe_of_some {st : BpfState} {ev : SafetyEvidence} {offset : Int}
    {width : MemWidth} {v : BitVec 64} (h : st.stackLoad offset width = some v) :
    stackLoadSafe st ev offset width = some v := by
  unfold stackLoadSafe
  split
  · exact (BpfState.stackLoad_eq_some.mp h).2
  · exact h

/-- What the executor stores, the guarded copy stores. -/
theorem stackStoreSafe_of_some {st st' : BpfState} {ev : SafetyEvidence} {offset : Int}
    {width : MemWidth} {v : BitVec 64} (h : st.stackStore offset width v = some st') :
    stackStoreSafe st ev offset width v = some st' := by
  unfold stackStoreSafe
  split
  · rw [(BpfState.stackStore_eq_some.mp h).2]
  · exact h

/-! ## One instruction -/

section

variable {st st' : BpfState} {ev : SafetyEvidence}

theorem execAlu32ImmSafe_eq_iff {op : AluOp} {dst : Reg} {imm : BitVec 32} :
    execAlu32ImmSafe st op dst imm = execAlu32Imm st op dst imm ↔
      (Insn.alu32Imm op dst imm).drifts ev = false := by
  cases op with
  | mov =>
    have hregs (v w : RegVal) : st.setReg dst v = st.setReg dst w ↔ v = w := by
      constructor
      · intro h
        exact setReg_inj.mp (congrArg BpfState.regs h)
      · rintro rfl
        rfl
    simp only [execAlu32ImmSafe, execAlu32Imm, Option.some.injEq, hregs, RegVal.scalar.injEq]
    exact signExtendImm_eq_setWidth_iff imm
  | _ => exact iff_of_true rfl rfl

/-- **A lookup knows the value it found exactly with null evidence.** -/
theorem execHelperSafe_eq_iff {spec : HelperSpec} :
    execHelperSafe st spec ev.nullSafe = execHelper st spec ↔
      (spec.retType = .RetMapPtr && !ev.nullSafe) = false := by
  obtain ⟨args, ret, eff⟩ := spec
  cases ret with
  | RetMapPtr =>
    cases hnull : ev.nullSafe with
    | true => exact iff_of_true rfl rfl
    | false =>
      refine iff_of_false (fun h => ?_) (by simp)
      have hmaps := congrArg BpfState.mapValues (Option.some.inj h)
      simp only [BpfState.returnsMapPtr, BpfState.returnsMapPtrUnread] at hmaps
      exact absurd (congrArg List.length hmaps) (by simp)
  | _ => exact iff_of_true rfl rfl

/-- **Without stack evidence the copy differs on the drifting instructions only, and there in every
state.** -/
theorem execInsnSafe_eq_iff (hguards : ev.stackSafe = false) (insn : Insn) :
    execInsnSafe st insn ev = execInsn st insn ↔ insn.drifts ev = false := by
  cases insn with
  | alu32Imm op dst imm => exact execAlu32ImmSafe_eq_iff
  | ldx width dst src off =>
    simp only [execInsnSafe, execInsn, stackLoadSafe_of_unsafe hguards, Insn.drifts]
  | stx width dst src off =>
    simp only [execInsnSafe, execInsn, stackStoreSafe_of_unsafe hguards, Insn.drifts]
  | st width dst off imm =>
    simp only [execInsnSafe, execInsn, stackStoreSafe_of_unsafe hguards, Insn.drifts]
  | call hid =>
    simp only [execInsnSafe, execInsn, Insn.drifts]
    cases getHelperSpec hid with
    | none => exact iff_of_true rfl rfl
    | some spec => exact execHelperSafe_eq_iff
  | _ => exact iff_of_true rfl rfl

/-- **What the executor does, the copy does**, whatever the evidence, where it does not drift. -/
theorem execInsnSafe_of_execInsn {insn : Insn} (hdrift : insn.drifts ev = false)
    (h : execInsn st insn = some st') : execInsnSafe st insn ev = some st' := by
  cases insn with
  | alu32Imm op dst imm => exact (execAlu32ImmSafe_eq_iff.mpr hdrift).trans h
  | ldx width dst src off =>
    simp only [execInsn, execLdxWith] at h
    simp only [execInsnSafe, execLdxWith]
    split <;> simp_all only
    -- the frame is read without the bounds check that the executor passes
    obtain ⟨v, hv, rfl⟩ := Option.map_eq_some_iff.mp h
    rw [stackLoadSafe_of_some hv]
    rfl
  | stx width dst src off =>
    simp only [execInsn, execStoreWith] at h
    simp only [execInsnSafe, execStoreWith]
    split <;> simp_all only
    split <;> simp_all only
    exact stackStoreSafe_of_some h
  | st width dst off imm =>
    simp only [execInsn, execStoreWith] at h
    simp only [execInsnSafe, execStoreWith]
    split <;> simp_all only
    exact stackStoreSafe_of_some h
  | call hid =>
    simp only [execInsn] at h
    simp only [execInsnSafe]
    cases hspec : getHelperSpec hid with
    | none => simp [hspec] at h
    | some spec =>
      simp only [hspec] at h
      have heq : execHelperSafe st spec ev.nullSafe = execHelper st spec :=
        execHelperSafe_eq_iff.mpr (by simpa [Insn.drifts, hspec] using hdrift)
      exact heq.trans h
  | _ => exact h

end

end BpfVerifier.Fstar
