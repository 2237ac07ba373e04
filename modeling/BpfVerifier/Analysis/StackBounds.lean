import BpfVerifier.Fstar.Emit
import BpfVerifier.Checks.StackBounds
import BpfVerifier.Machinery.AssocMap

/-!
# Analysis/StackBounds — `stack_bounds::analyse`, the witness of the stack-bounds check

The analysis goes through the list once and writes, for every instruction, the state and the target
map it holds there; F\* runs `check_insn_sb` on each of these steps (`WitnessStep.holds`).
-/

namespace BpfVerifier.StackBounds

/-! ## States -/

/-- What is known of a register. -/
inductive AbsReg where
  | framePtr (off : BitVec 64)
  | ctxPtr (off : BitVec 64)
  | ringBufPtr (id : BitVec 64)
  | other
  deriving DecidableEq, Repr

/-- `AbsReg::to_fstar`. -/
def AbsReg.toFstar : AbsReg → Fstar.AbsReg
  | .framePtr off => .AbsFramePtr off.toInt
  | .ctxPtr off => .AbsCtxPtr off.toInt
  | .ringBufPtr id => .AbsRingBufPtr id.toNat
  | .other => .AbsOther

def defaultReg : Reg → AbsReg
  | .r10 => .framePtr 0
  | .r1 => .ctxPtr 0
  | _ => .other

abbrev RegState := Reg → AbsReg

def RegState.init : RegState := defaultReg

def RegState.set (state : RegState) (r : Reg) (v : AbsReg) : RegState :=
  fun i => if i = r then v else state i

/-- The registers that differ from the default, by index. -/
def RegState.toFstar (state : RegState) : List (ℕ × Fstar.AbsReg) :=
  (Reg.all.filter fun r => state r ≠ defaultReg r).map fun r => (r.index, (state r).toFstar)

/-- Different values join to no frame, context or ring-buffer pointer. -/
def joinReg : AbsReg → AbsReg → AbsReg
  | .framePtr a, .framePtr b => if a = b then .framePtr a else .other
  | .ctxPtr a, .ctxPtr b => if a = b then .ctxPtr a else .other
  | .ringBufPtr a, .ringBufPtr b => if a = b then .ringBufPtr a else .other
  | _, _ => .other

/-- Register by register, and r10 put back to the frame pointer. -/
def RegState.join (state other : RegState) : RegState :=
  RegState.set (fun r => joinReg (state r) (other r)) .r10 (.framePtr 0)

/-- r0–r5 are forgotten. -/
def RegState.forget (state : RegState) : RegState :=
  [Reg.r0, .r1, .r2, .r3, .r4, .r5].foldl (fun s r => s.set r .other) state

/-- The states saved for instructions, by `i32` index. -/
abbrev TargetMap := AssocMap (BitVec 32) RegState

/-- The saved states in the order of their index. -/
def TargetMap.toFstar (targets : TargetMap) : List (Int × List (ℕ × Fstar.AbsReg)) :=
  (targets.entries.mergeSort fun a b => a.1.sle b.1).map fun e => (e.1.toInt, e.2.toFstar)

/-! ## Witness steps -/

/-- What is written for one instruction. -/
structure WitnessStep where
  pc : ℕ
  insnFstar : Option Fstar.Insn
  stateFstar : List (ℕ × Fstar.AbsReg)
  targetsFstar : List (Int × List (ℕ × Fstar.AbsReg))

/-- `to_abs_state_sb`. -/
def toAbsStateSb : List (ℕ × Fstar.AbsReg) → Fstar.AbsState
  | [], r => if r = .r10 then .AbsFramePtr 0 else if r = .r1 then .AbsCtxPtr 0 else .AbsOther
  | (idx, v) :: rest, r => if r.index = idx then v else toAbsStateSb rest r

/-- `to_target_map_sb`. -/
def toTargetMapSb : List (Int × List (ℕ × Fstar.AbsReg)) → Scanner.Targets Fstar.AbsState
  | [], _ => none
  | (tpc, state) :: rest, pc =>
    if pc = tpc then some (toAbsStateSb state) else toTargetMapSb rest pc

/-- The assertion of a step: `check_insn_sb` succeeds on what it states. -/
def WitnessStep.holds (step : WitnessStep) : Bool :=
  step.insnFstar.any fun insn =>
    (Fstar.sbScanner.checkInsn (toAbsStateSb step.stateFstar) insn step.pc
      (toTargetMapSb step.targetsFstar)).isSome

/-- What the analysis reports, with the steps of its witness. -/
structure AnalysisResult where
  passed : Bool
  failingPc : Option ℕ
  steps : List WitnessStep

/-! ## The analysis -/

/-- The access lies in the 512 bytes below the frame pointer. -/
def stackOffsetValid (offset : BitVec 64) (width : MemWidth) : Bool :=
  let idx : BitVec 64 := 512 + offset
  (0 : BitVec 64).sle idx && (idx + BitVec.ofNat 64 (widthBytes width)).sle 512

/-- Only accesses through the frame pointer are bounded. -/
def checkMemAccess (base : AbsReg) (insnOff : BitVec 16) (width : MemWidth) : Bool :=
  match base with
  | .framePtr ptrOff => stackOffsetValid (ptrOff + insnOff.signExtend 64) width
  | .ctxPtr _ | .ringBufPtr _ | .other => true

/-- The offset of a jump. -/
def branchOffset (insn : BpfInsn) : Option (BitVec 16) :=
  match insn.opcode with
  | .jmp64 _ _ | .jmp32 _ _ | .jmpJa => some insn.offset
  | _ => none

/-- `pc as i32 + 1 + offset as i32`. -/
def branchTarget (pc : ℕ) (offset : BitVec 16) : BitVec 32 :=
  BitVec.ofNat 32 pc + 1 + offset.signExtend 32

/-- The `i32` index wraps. -/
theorem toInt_branchTarget (pc : ℕ) (offset : BitVec 16) :
    (branchTarget pc offset).toInt = ((pc : Int) + 1 + offset.toInt).bmod (2 ^ 32) := by
  have hpc : (BitVec.ofNat 32 pc).toInt = (pc : Int).bmod (2 ^ 32) := BitVec.toInt_ofNat' ..
  have hone : (1 : BitVec 32).toInt = 1 := by decide
  unfold branchTarget
  rw [BitVec.toInt_add, BitVec.toInt_add, hpc, hone, BitVec.toInt_signExtend_of_le (by decide),
    Int.bmod_add_bmod, Int.add_assoc, Int.bmod_add_bmod, Int.add_assoc]

/-- Phase 1: a jump that does not go forward leads to a loop head. -/
def seedLoopHead (targets : TargetMap) (entry : BpfInsn × ℕ) : TargetMap :=
  let (insn, pc) := entry
  match branchOffset insn with
  | some off =>
    if (branchTarget pc off).sle (BitVec.ofNat 32 pc) then
      targets.insert (branchTarget pc off) RegState.init.forget
    else targets
  | none => targets

/-- ADD and SUB of an immediate, as a move by `delta`. -/
def shiftReg (v : AbsReg) (delta : BitVec 64) : AbsReg :=
  match v with
  | .framePtr off => .framePtr (off + delta)
  | .ctxPtr off => .ctxPtr (off + delta)
  | .ringBufPtr _ | .other => .other

/-- Save the state for a conditional jump that goes forward. -/
def TargetMap.save (targets : TargetMap) (target : BitVec 32) (state : RegState) : TargetMap :=
  match targets.get target with
  | some existing => targets.insert target (existing.join state)
  | none => targets.insert target state

/-- **`transfer`**: the state and map after an instruction, `none` at an access out of bounds. -/
def transfer (state : RegState) (targets : TargetMap) (insn : BpfInsn) (pc : ℕ) :
    Option (RegState × TargetMap) :=
  match insn.opcode with
  | .alu64 op .reg =>
    match op with
    | .mov => some (state.set insn.dst (state insn.src), targets)
    | _ => some (state.set insn.dst .other, targets)
  | .alu64 op .imm =>
    match op with
    | .add => some (state.set insn.dst (shiftReg (state insn.dst) insn.immS), targets)
    | .sub => some (state.set insn.dst (shiftReg (state insn.dst) (-insn.immS)), targets)
    | _ => some (state.set insn.dst .other, targets)
  | .alu32 _ _ => some (state.set insn.dst .other, targets)
  | .ldImm64 => some (state.set insn.dst .other, targets)
  | .ldx width =>
    if checkMemAccess (state insn.src) insn.offset width then
      some (state.set insn.dst .other, targets)
    else none
  | .stx width | .st width =>
    if checkMemAccess (state insn.dst) insn.offset width then some (state, targets) else none
  | .jmp64 _ _ | .jmp32 _ _ =>
    let target := branchTarget pc insn.offset
    if (BitVec.ofNat 32 pc).slt target then some (state, targets.save target state)
    else some (state, targets)
  | .jmpJa => some (state, targets)
  | .call => some (state.forget, targets)
  | .exit => some (state, targets)
  | .unknown _ => some (state, targets)

/-- Join what is saved for an instruction into the state, and drop it. -/
def merge (state : RegState) (targets : TargetMap) (pc : ℕ) : RegState × TargetMap :=
  match targets.get (BitVec.ofNat 32 pc) with
  | some saved => (state.join saved, targets.remove (BitVec.ofNat 32 pc))
  | none => (state, targets)

/-- Phase 2, from instruction `pc` on. -/
def analyseFrom : List BpfInsn → ℕ → RegState → TargetMap → List WitnessStep → AnalysisResult
  | [], _, _, _, steps => ⟨true, none, steps⟩
  | insn :: rest, pc, state, targets, steps =>
    let (merged, kept) := merge state targets pc
    let steps := steps ++ [⟨pc, insn.toFstar, state.toFstar, targets.toFstar⟩]
    match transfer merged kept insn pc with
    | none => ⟨false, some pc, steps⟩
    | some (state', targets') => analyseFrom rest (pc + 1) state' targets' steps

/-- **`analyse`.** -/
def analyse (instructions : List BpfInsn) : AnalysisResult :=
  let targets := instructions.zipIdx.foldl seedLoopHead .empty
  analyseFrom instructions 0 .init targets []

end BpfVerifier.StackBounds
