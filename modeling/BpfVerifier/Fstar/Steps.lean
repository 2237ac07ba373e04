import BpfVerifier.Fstar.Path

/-!
# Fstar/Steps — what one step of the F* executor can do

`Effect` lists the ways an instruction other than a call changes the state, `PathEffect` adds the
calls under a schedule; `pathEffect_of_next` is the inversion every invariant of a run rests on.
-/

namespace BpfVerifier.Fstar

/-! ## Instructions by what they touch -/

namespace Insn

/-- The base register of a memory access. -/
def base : Insn → Option Reg
  | .ldx _ _ src _ => some src
  | .stx _ dst _ _ | .st _ dst _ _ => some dst
  | _ => none

/-- The offset and width of a memory access. -/
def access : Insn → Option (BitVec 32 × MemWidth)
  | .ldx width _ _ off | .stx width _ _ off | .st width _ off _ => some (off, width)
  | _ => none

/-- The register an instruction sets to a number. -/
def numberDst : Insn → Option Reg
  | .alu64Reg op dst _ => if op = .mov then none else some dst
  | .alu64Imm _ dst _ | .alu32Reg _ dst _ | .alu32Imm _ dst _ | .ldImm64 dst _
  | .ldx _ dst _ _ => some dst
  | _ => none

/-- The register an instruction writes, calls apart. -/
def writes : Insn → Option Reg
  | .alu64Reg _ dst _ | .alu64Imm _ dst _ | .alu32Reg _ dst _ | .alu32Imm _ dst _
  | .ldImm64 dst _ | .ldx _ dst _ _ => some dst
  | _ => none

/-- The instruction stores to memory. -/
def isStore : Insn → Bool
  | .stx _ _ _ _ | .st _ _ _ _ => true
  | _ => false

/-- The instruction calls a helper. -/
def isCall : Insn → Bool
  | .call _ => true
  | _ => false

/-- The instruction is a JA. -/
def isJa : Insn → Bool
  | .jmpJa _ => true
  | _ => false

/-- What a conditional jump decides, and its offset. -/
def condition (st : BpfState) : Insn → Option (Bool × Int)
  | .jmp64Reg op dst src offset =>
    match regValForJmp (st.regs dst), regValForJmp (st.regs src) with
    | some d, some s => some (evalJmp64 op d s, offset)
    | _, _ => none
  | .jmp64Imm op dst imm offset =>
    if op = .jeq then
      (regValIsZero (st.regs dst)).map fun isZero =>
        (if (signExtendImm imm).toNat = 0 then isZero else !isZero, offset)
    else if op = .jne then
      (regValIsZero (st.regs dst)).map fun isZero =>
        (if (signExtendImm imm).toNat = 0 then !isZero else isZero, offset)
    else (scalarVal (st.regs dst)).map fun d => (evalJmp64 op d (signExtendImm imm), offset)
  | .jmp32Reg op dst src offset =>
    match scalarVal (st.regs dst), scalarVal (st.regs src) with
    | some d, some s => some (evalJmp32 op d s, offset)
    | _, _ => none
  | .jmp32Imm op dst imm offset =>
    (scalarVal (st.regs dst)).map fun d => (evalJmp32 op d (signExtendImm imm), offset)
  | _ => none

end Insn

theorem writes_of_numberDst {insn : Insn} {dst : Reg} (h : insn.numberDst = some dst) :
    insn.writes = some dst := by
  cases insn <;> simp_all [Insn.numberDst, Insn.writes]

/-- How far ADD and SUB of an immediate move a pointer. -/
def shiftDelta (op : AluOp) (imm : BitVec 32) : Option Int :=
  match op with
  | .add => some (signExtendToInt imm)
  | .sub => some (-signExtendToInt imm)
  | _ => none

/-- A frame or context pointer, moved. -/
def shiftPtr (v : RegVal) (delta : Int) : Option RegVal :=
  match v with
  | .framePtr off => some (.framePtr (off + delta))
  | .ctxPtr off => some (.ctxPtr (off + delta))
  | _ => none

/-! ## Operations that give a number -/

theorem alu64_isSome (op : AluOp) (d s : BitVec 64) : (alu64 op d s).isSome = true := by
  cases op <;> simp [alu64] <;> split <;> rfl

theorem alu32_isSome (op : AluOp) (d s : BitVec 64) : (alu32 op d s).isSome = true := by
  cases op <;> simp [alu32] <;> split <;> rfl

theorem setNumber_isSome {st : BpfState} {dst : Reg} {result : Option (BitVec 64)}
    (h : result.isSome = true) : (st.setNumber dst result).isSome = true := by
  simpa [BpfState.setNumber] using h

section

variable {st st' : BpfState} {op : AluOp} {dst src : Reg} {imm : BitVec 32} {d n : BitVec 64}

theorem execAlu64Reg_eq (hop : op ≠ .mov) (hd : st.regs dst = .scalar d)
    (hn : st.regs src = .scalar n) :
    execAlu64Reg st op dst src = st.setNumber dst (alu64 op d n) := by
  cases op <;> first | exact absurd rfl hop | simp [execAlu64Reg, hd, hn, scalarVal]

/-- Both operands of an operation other than MOV are numbers. -/
theorem operands_of_execAlu64Reg (hop : op ≠ .mov) (h : execAlu64Reg st op dst src = some st') :
    ∃ d n, st.regs dst = .scalar d ∧ st.regs src = .scalar n := by
  unfold execAlu64Reg at h
  split at h
  · exact absurd rfl hop
  · split at h
    · next d n hd hn => exact ⟨d, n, scalarVal_eq_some.mp hd, scalarVal_eq_some.mp hn⟩
    · cases h

theorem execAlu64Imm_eq (hop : op ≠ .mov) (hd : st.regs dst = .scalar d) :
    execAlu64Imm st op dst imm = st.setNumber dst (alu64 op d (signExtendImm imm)) := by
  cases op <;> first | exact absurd rfl hop | simp [execAlu64Imm, hd, scalarVal]

theorem execAlu32Reg_eq (hop : op ≠ .mov) (hd : st.regs dst = .scalar d)
    (hn : st.regs src = .scalar n) :
    execAlu32Reg st op dst src = st.setNumber dst (alu32 op d n) := by
  cases op <;> first | exact absurd rfl hop | simp [execAlu32Reg, hd, hn, scalarVal]

theorem execAlu32Reg_mov (hn : st.regs src = .scalar n) :
    execAlu32Reg st .mov dst src = st.setNumber dst (alu32 .mov n n) := by
  simp [execAlu32Reg, hn, scalarVal]

/-- The source of a 32-bit operation is a number, and so is the destination unless it is a MOV. -/
theorem operands_of_execAlu32Reg (h : execAlu32Reg st op dst src = some st') :
    (∃ n, st.regs src = .scalar n) ∧ (op = .mov ∨ ∃ d, st.regs dst = .scalar d) := by
  unfold execAlu32Reg at h
  split at h
  · split at h
    · next n hn => exact ⟨⟨n, scalarVal_eq_some.mp hn⟩, Or.inl rfl⟩
    · cases h
  · split at h
    · next d n hd hn =>
      exact ⟨⟨n, scalarVal_eq_some.mp hn⟩, Or.inr ⟨d, scalarVal_eq_some.mp hd⟩⟩
    · cases h

theorem execAlu32Imm_eq (hop : op ≠ .mov) (hd : st.regs dst = .scalar d) :
    execAlu32Imm st op dst imm = st.setNumber dst (alu32 op d (signExtendImm imm)) := by
  cases op <;> first | exact absurd rfl hop | simp [execAlu32Imm, execAlu32ImmOp, hd, scalarVal]

theorem operand_of_execAlu32Imm (hop : op ≠ .mov) (h : execAlu32Imm st op dst imm = some st') :
    ∃ d, st.regs dst = .scalar d := by
  unfold execAlu32Imm at h
  split at h
  · exact absurd rfl hop
  · unfold execAlu32ImmOp at h
    split at h
    · next d hd => exact ⟨d, scalarVal_eq_some.mp hd⟩
    · cases h

/-- A pointer that an immediate is added to or subtracted from. -/
theorem execAlu64Imm_pointer (hop : op ≠ .mov) (hptr : ∀ n, st.regs dst ≠ .scalar n)
    (h : execAlu64Imm st op dst imm = some st') :
    ∃ v, st' = st.setReg dst v ∧ ∀ t : BpfState, t.regs dst = st.regs dst →
      execAlu64Imm t op dst imm = some (t.setReg dst v) := by
  cases hreg : st.regs dst with
  | scalar n => exact absurd hreg (hptr n)
  | framePtr off =>
    cases op <;> simp [execAlu64Imm, hreg, scalarVal] at h hop
    all_goals exact ⟨_, h.symm, fun t ht => by simp [execAlu64Imm, ht]⟩
  | ctxPtr off =>
    cases op <;> simp [execAlu64Imm, hreg, scalarVal] at h hop
    all_goals exact ⟨_, h.symm, fun t ht => by simp [execAlu64Imm, ht]⟩
  | _ => cases op <;> simp [execAlu64Imm, hreg, scalarVal] at h hop

end

/-- ADD and SUB of an immediate move a frame or context pointer. -/
theorem execInsn_shift {st : BpfState} {op : AluOp} {dst : Reg} {imm : BitVec 32} {delta : Int}
    {v : RegVal} (hdelta : shiftDelta op imm = some delta)
    (hv : shiftPtr (st.regs dst) delta = some v) :
    execInsn st (.alu64Imm op dst imm) = some (st.setReg dst v) := by
  cases op <;> simp only [shiftDelta, reduceCtorEq, Option.some.injEq] at hdelta
  all_goals
    subst hdelta
    cases hreg : st.regs dst <;>
      simp only [hreg, shiftPtr, reduceCtorEq, Option.some.injEq] at hv
    all_goals
      subst hv
      simp only [execInsn, execAlu64Imm, hreg, Int.sub_eq_add_neg]

/-! ## One step -/

/-- **What an instruction other than a call makes of a state.** -/
inductive Effect (st : BpfState) : Insn → BpfState → Prop
  | move (dst src : Reg) : Effect st (.alu64Reg .mov dst src) (st.setReg dst (st.regs src))
  | shift {op : AluOp} {dst : Reg} {imm : BitVec 32} {delta : Int} {v : RegVal} :
      shiftDelta op imm = some delta → shiftPtr (st.regs dst) delta = some v →
      Effect st (.alu64Imm op dst imm) (st.setReg dst v)
  | number {insn : Insn} {dst : Reg} (n : BitVec 64) : insn.numberDst = some dst →
      Effect st insn (st.setReg dst (.scalar n))
  | store {insn : Insn} (stack : StackMem) (ringbuf : RingbufMem) : insn.isStore = true →
      Effect st insn { st with stack := stack, ringbuf := ringbuf, pc := st.pc + 1 }
  | branch {insn : Insn} {cond : Bool} {offset : Int} : insn.condition st = some (cond, offset) →
      Effect st insn (st.branch cond offset)
  | goto (offset : Int) : Effect st (.jmpJa offset) (st.jump (st.takenPc offset))
  | exit : Effect st .exit st

theorem setNumber_eq_some {st st' : BpfState} {dst : Reg} {result : Option (BitVec 64)} :
    st.setNumber dst result = some st' ↔
      ∃ n, result = some n ∧ st' = st.setReg dst (.scalar n) := by
  cases result <;> simp [BpfState.setNumber, eq_comm]

/-- An operation that sets a number. -/
theorem effect_setNumber {st st' : BpfState} {insn : Insn} {dst : Reg}
    {result : Option (BitVec 64)} (hdst : insn.numberDst = some dst)
    (h : st.setNumber dst result = some st') : Effect st insn st' := by
  obtain ⟨n, -, rfl⟩ := setNumber_eq_some.mp h
  exact .number n hdst

theorem effect_alu64Imm {st st' : BpfState} {op : AluOp} {dst : Reg} {imm : BitVec 32}
    (h : execAlu64Imm st op dst imm = some st') : Effect st (.alu64Imm op dst imm) st' := by
  have hnumber (n : BitVec 64) :
      Effect st (.alu64Imm op dst imm) (st.setReg dst (.scalar n)) := .number n rfl
  unfold execAlu64Imm at h
  split at h
  · obtain rfl := Option.some.inj h
    exact hnumber _
  · split at h
    · exact effect_setNumber rfl h
    · next off hoff =>
      obtain rfl := Option.some.inj h
      exact .shift rfl (by rw [hoff]; rfl)
    · next off hoff =>
      obtain rfl := Option.some.inj h
      exact .shift rfl (by rw [hoff]; rfl)
    · cases h
  · split at h
    · exact effect_setNumber rfl h
    · next off hoff =>
      obtain rfl := Option.some.inj h
      exact .shift rfl (by rw [hoff]; simp [shiftPtr, Int.sub_eq_add_neg])
    · next off hoff =>
      obtain rfl := Option.some.inj h
      exact .shift rfl (by rw [hoff]; simp [shiftPtr, Int.sub_eq_add_neg])
    · cases h
  · split at h
    · exact effect_setNumber rfl h
    · cases h

theorem effect_ldx {st st' : BpfState} {load : Int → MemWidth → Option (BitVec 64)}
    {width : MemWidth} {dst src : Reg} {off : BitVec 32}
    (h : execLdxWith st load width dst src off = some st') :
    Effect st (.ldx width dst src off) st' := by
  unfold execLdxWith at h
  split at h
  · exact effect_setNumber rfl h
  · exact effect_setNumber rfl h
  · split at h <;> obtain rfl := Option.some.inj h <;> exact .number _ rfl
  · obtain rfl := Option.some.inj h
    exact .number 0 rfl
  · cases h
  · cases h

theorem effect_store {st st' : BpfState} {insn : Insn} {width : MemWidth} {dst : Reg}
    {off : BitVec 32} {v : Option (BitVec 64)} (hinsn : insn.isStore = true)
    (h : execStoreWith st st.stackStore width dst off v = some st') : Effect st insn st' := by
  unfold execStoreWith at h
  split at h
  · split at h
    · obtain ⟨-, rfl⟩ := BpfState.stackStore_eq_some.mp h
      exact .store _ st.ringbuf hinsn
    · cases h
  · split at h
    · obtain rfl := Option.some.inj h
      exact .store st.stack _ hinsn
    · cases h
  · cases h

/-- A conditional jump goes where its condition says. -/
theorem execInsn_branch {st : BpfState} {insn : Insn} {offset : Int}
    (hoff : insn.branchOffset = some offset) (hja : insn.isJa = false) :
    execInsn st insn = (insn.condition st).map fun c => st.branch c.1 c.2 := by
  cases insn with
  | jmp64Reg op dst src off =>
    simp only [execInsn, execJmp64Reg, Insn.condition]
    cases regValForJmp (st.regs dst) <;> cases regValForJmp (st.regs src) <;> rfl
  | jmp64Imm op dst imm off =>
    simp only [execInsn, execJmp64Imm, Insn.condition]
    by_cases hjeq : op = .jeq
    · subst hjeq
      cases regValIsZero (st.regs dst) <;> simp
    · by_cases hjne : op = .jne
      · subst hjne
        cases regValIsZero (st.regs dst) <;> simp
      · cases scalarVal (st.regs dst) <;> simp [hjeq, hjne]
  | jmp32Reg op dst src off =>
    simp only [execInsn, execJmp32Reg, Insn.condition]
    cases scalarVal (st.regs dst) <;> cases scalarVal (st.regs src) <;> rfl
  | jmp32Imm op dst imm off =>
    simp only [execInsn, execJmp32Imm, Insn.condition]
    cases scalarVal (st.regs dst) <;> rfl
  | jmpJa off => simp [Insn.isJa] at hja
  | _ => simp [Insn.branchOffset] at hoff

/-- The offset a condition carries is the jump's. -/
theorem condition_offset {st : BpfState} {insn : Insn} {cond : Bool} {offset : Int}
    (h : insn.condition st = some (cond, offset)) :
    insn.branchOffset = some offset ∧ insn.isJa = false := by
  cases insn with
  | jmp64Reg op dst src off =>
    simp only [Insn.condition] at h
    split at h
    · simp_all [Insn.branchOffset, Insn.isJa]
    · cases h
  | jmp64Imm op dst imm off =>
    simp only [Insn.condition] at h
    split at h
    · obtain ⟨b, -, hb⟩ := Option.map_eq_some_iff.mp h
      simp_all [Insn.branchOffset, Insn.isJa]
    · split at h
      · obtain ⟨b, -, hb⟩ := Option.map_eq_some_iff.mp h
        simp_all [Insn.branchOffset, Insn.isJa]
      · obtain ⟨d, -, hd⟩ := Option.map_eq_some_iff.mp h
        simp_all [Insn.branchOffset, Insn.isJa]
  | jmp32Reg op dst src off =>
    simp only [Insn.condition] at h
    split at h
    · simp_all [Insn.branchOffset, Insn.isJa]
    · cases h
  | jmp32Imm op dst imm off =>
    simp only [Insn.condition] at h
    obtain ⟨d, -, hd⟩ := Option.map_eq_some_iff.mp h
    simp_all [Insn.branchOffset, Insn.isJa]
  | _ => simp [Insn.condition] at h

theorem effect_branch {st st' : BpfState} {insn : Insn} {offset : Int}
    (hoff : insn.branchOffset = some offset) (hja : insn.isJa = false)
    (h : execInsn st insn = some st') : Effect st insn st' := by
  rw [execInsn_branch hoff hja] at h
  obtain ⟨⟨cond, off⟩, hcond, rfl⟩ := Option.map_eq_some_iff.mp h
  exact .branch hcond

/-- **An instruction other than a call has one of the effects.** -/
theorem effect_of_execInsn {st st' : BpfState} {insn : Insn} (hcall : insn.isCall = false)
    (h : execInsn st insn = some st') : Effect st insn st' := by
  cases insn with
  | alu64Reg op dst src =>
    simp only [execInsn, execAlu64Reg] at h
    split at h
    · obtain rfl := Option.some.inj h
      exact .move dst src
    · next hop =>
      split at h
      · exact effect_setNumber (if_neg hop) h
      · cases h
  | alu64Imm op dst imm => exact effect_alu64Imm h
  | alu32Reg op dst src =>
    simp only [execInsn, execAlu32Reg] at h
    split at h <;> split at h <;> first | exact effect_setNumber rfl h | cases h
  | alu32Imm op dst imm =>
    simp only [execInsn, execAlu32Imm, execAlu32ImmOp] at h
    split at h
    · obtain rfl := Option.some.inj h
      exact .number _ rfl
    · split at h <;> first | exact effect_setNumber rfl h | cases h
  | ldx width dst src off => exact effect_ldx h
  | stx width dst src off => exact effect_store rfl h
  | st width dst off imm => exact effect_store (v := some (signExtendImm imm)) rfl h
  | ldImm64 dst imm =>
    obtain rfl := Option.some.inj h
    exact .number imm rfl
  | jmp64Reg op dst src off => exact effect_branch rfl rfl h
  | jmp64Imm op dst imm off => exact effect_branch rfl rfl h
  | jmp32Reg op dst src off => exact effect_branch rfl rfl h
  | jmp32Imm op dst imm off => exact effect_branch rfl rfl h
  | jmpJa off =>
    obtain rfl := Option.some.inj h
    exact .goto off
  | call hid => simp [Insn.isCall] at hcall
  | exit =>
    obtain rfl := Option.some.inj h
    exact .exit

/-- A helper goes on to the next instruction. -/
theorem pc_of_execHelper {st st' : BpfState} {spec : HelperSpec}
    (h : execHelper st spec = some st') : st'.pc = st.pc + 1 := by
  obtain ⟨args, ret, eff⟩ := spec
  cases ret <;> obtain rfl := Option.some.inj h <;>
    simp [BpfState.returnsMapPtr, BpfState.returnsRingBufPtr, BpfState.returns]

/-- **An instruction goes to the next one, or where its jump leads.** -/
theorem pc_of_execInsn {st st' : BpfState} {insn : Insn} (hexit : insn.isExit = false)
    (h : execInsn st insn = some st') :
    st'.pc = st.pc + 1 ∨ ∃ off, insn.branchOffset = some off ∧ st'.pc = st.takenPc off := by
  cases hcall : insn.isCall with
  | true =>
    cases insn with
    | call hid =>
      simp only [execInsn] at h
      split at h
      · exact Or.inl (pc_of_execHelper h)
      · cases h
    | _ => cases hcall
  | false =>
    cases effect_of_execInsn hcall h with
    | @branch _ cond off hcond =>
      cases cond with
      | true => exact Or.inr ⟨off, (condition_offset hcond).1, rfl⟩
      | false => exact Or.inl rfl
    | goto off => exact Or.inr ⟨off, rfl, rfl⟩
    | exit => cases hexit
    | _ => exact Or.inl rfl

/-! ## One step under a schedule -/

/-- **What an instruction makes of a state and its schedule.** -/
inductive PathEffect (st : BpfState) (sched : PathSchedule) :
    Insn → BpfState → PathSchedule → Prop
  | plain {insn : Insn} {st' : BpfState} : insn.isCall = false → execInsn st insn = some st' →
      Effect st insn st' → PathEffect st sched insn st' sched
  | nullable {hid : HelperId} {spec : HelperSpec} : getHelperSpec hid = some spec →
      spec.nullable = true →
      PathEffect st sched (.call hid)
        ((applyHelperEffect st spec.sideEffect).returnsChoice spec.retType sched.choice) sched.tail
  | number {hid : HelperId} {spec : HelperSpec} : getHelperSpec hid = some spec →
      spec.nullable = false →
      PathEffect st sched (.call hid)
        ((applyHelperEffect st spec.sideEffect).returns (.scalar 0)) sched

/-- An instruction under a schedule has one of the effects. -/
theorem pathEffect_of_execPath {st st' : BpfState} {sched sched' : PathSchedule} {insn : Insn}
    (h : execPath (st, sched) insn = some (st', sched')) : PathEffect st sched insn st' sched' := by
  unfold execPath at h
  cases hcall : insn.isCall with
  | false =>
    have hne : ∀ hid, insn ≠ .call hid := by
      rintro hid rfl
      simp [Insn.isCall] at hcall
    simp only [execInsnPath_of_ne_call hne] at h
    cases hexec : execInsn st insn with
    | none => simp [hexec] at h
    | some st₁ =>
      simp only [hexec] at h
      obtain ⟨rfl, rfl⟩ := Prod.ext_iff.mp (Option.some.inj h)
      exact .plain hcall hexec (effect_of_execInsn hcall hexec)
  | true =>
    cases insn with
    | call hid =>
      simp only [execInsnPath] at h
      cases hspec : getHelperSpec hid with
      | none => simp [hspec] at h
      | some spec =>
        simp only [hspec, execHelperPath_eq] at h
        cases hnull : spec.nullable with
        | true =>
          simp only [hnull, if_true] at h
          obtain ⟨rfl, rfl⟩ := Prod.ext_iff.mp (Option.some.inj h)
          exact .nullable hspec hnull
        | false =>
          simp only [hnull, Bool.false_eq_true, if_false] at h
          obtain ⟨rfl, rfl⟩ := Prod.ext_iff.mp (Option.some.inj h)
          exact .number hspec hnull
    | _ => simp [Insn.isCall] at hcall

/-- **A step of a run fetches an instruction other than EXIT and has its effect.** -/
theorem pathEffect_of_next {prog : BpfProgram} {c c' : BpfState × PathSchedule}
    (h : (pathInterp prog).next c = some c') :
    ∃ insn, prog[c.1.pc.toNat]? = some insn ∧ insn ≠ .exit ∧
      PathEffect c.1 c.2 insn c'.1 c'.2 := by
  obtain ⟨insn, hfetch, hhalt, hexec⟩ := Interp.next_eq_some_iff.mp h
  refine ⟨insn, (fetchAt_eq prog c.1.pc).symm.trans hfetch, ?_, pathEffect_of_execPath hexec⟩
  rintro rfl
  cases hhalt

/-! ## Calls -/

/-- Only a known helper is called. -/
theorem exists_spec_of_call {st st' : BpfState} {sched sched' : PathSchedule} {hid : HelperId}
    (h : PathEffect st sched (.call hid) st' sched') : ∃ spec, getHelperSpec hid = some spec := by
  cases h with
  | plain hcall => simp [Insn.isCall] at hcall
  | nullable hspec => exact ⟨_, hspec⟩
  | number hspec => exact ⟨_, hspec⟩

/-- What a nullable helper's result writes: r0, with null or a fresh pointer. -/
theorem returnsChoice_regs (st : BpfState) (ret : HelperRet) (choice : PathChoice) :
    ∃ v, (st.returnsChoice ret choice).regs = setReg st.regs .r0 v ∧
      (st.returnsChoice ret choice).pc = st.pc + 1 ∧
      (v = .null ∨ v = .mapValuePtr st.nextMapId ∨ v = .ringBufPtr st.nextMapId) := by
  cases choice with
  | NonNull =>
    by_cases hret : ret = .RetMapPtr
    · exact ⟨.mapValuePtr st.nextMapId,
        by simp [BpfState.returnsChoice, hret, BpfState.returnsMapPtr],
        by simp [BpfState.returnsChoice, hret, BpfState.returnsMapPtr], by simp⟩
    · exact ⟨.ringBufPtr st.nextMapId,
        by simp [BpfState.returnsChoice, hret, BpfState.returnsRingBufPtr],
        by simp [BpfState.returnsChoice, hret, BpfState.returnsRingBufPtr], by simp⟩
  | AsNull =>
    exact ⟨.null, by simp [BpfState.returnsChoice, BpfState.returns],
      by simp [BpfState.returnsChoice, BpfState.returns], by simp⟩

/-- **What a call under a schedule writes**: r0, with null, a fresh pointer or zero. -/
theorem call_regs {st st' : BpfState} {sched sched' : PathSchedule} {hid : HelperId}
    (h : PathEffect st sched (.call hid) st' sched') :
    ∃ v, st'.regs = setReg st.regs .r0 v ∧ st'.pc = st.pc + 1 ∧
      (v = .null ∨ v = .mapValuePtr st.nextMapId ∨ v = .ringBufPtr st.nextMapId ∨ v = .scalar 0) ∧
      ((getHelperSpec hid).any HelperSpec.nullable = false → v = .scalar 0) := by
  cases h with
  | plain hcall => simp [Insn.isCall] at hcall
  | @nullable _ spec hspec hnull =>
    obtain ⟨v, hregs, hpc, hv⟩ :=
      returnsChoice_regs (applyHelperEffect st spec.sideEffect) spec.retType sched.choice
    rw [applyHelperEffect_nextMapId] at hv
    refine ⟨v, hregs.trans (by rw [applyHelperEffect_regs]),
      hpc.trans (by rw [applyHelperEffect_pc]), by tauto, ?_⟩
    intro hany
    simp [hspec, hnull] at hany
  | number hspec hnull =>
    exact ⟨.scalar 0, by simp [BpfState.returns], by simp [BpfState.returns], by simp,
      fun _ => rfl⟩

/-- A step under a schedule goes to the next instruction, or where a jump leads. -/
theorem pc_of_pathEffect {st st' : BpfState} {sched sched' : PathSchedule} {insn : Insn}
    (hexit : insn ≠ .exit) (h : PathEffect st sched insn st' sched') :
    st'.pc = st.pc + 1 ∨ ∃ off, insn.branchOffset = some off ∧ st'.pc = st.takenPc off := by
  have hcalls (hid : HelperId) (heq : insn = .call hid) : st'.pc = st.pc + 1 := by
    subst heq
    obtain ⟨v, -, hpc, -⟩ := call_regs h
    exact hpc
  cases h with
  | plain hcall hexec =>
    refine pc_of_execInsn ?_ hexec
    by_contra hne
    exact hexit (Insn.isExit_iff.mp (by simpa using hne))
  | nullable hspec hnull => exact Or.inl (hcalls _ rfl)
  | number hspec hnull => exact Or.inl (hcalls _ rfl)

end BpfVerifier.Fstar
