import BpfVerifier.Checks.NullSafety

/-!
# Checks/StackBounds — `BPF.Check.StackBounds`

One pass over the programme that follows the offsets of frame pointers and checks every access
through one.  A register whose offset is lost (`AbsOther`) passes every check.
-/

namespace BpfVerifier.Fstar

/-- What is known of a register. -/
inductive AbsReg where
  | AbsFramePtr (off : Int)
  | AbsCtxPtr (off : Int)
  | AbsRingBufPtr (id : ℕ)
  | AbsOther
  deriving DecidableEq, Repr

abbrev AbsState := Reg → AbsReg

def absSet (abs : AbsState) (r : Reg) (v : AbsReg) : AbsState := fun i => if i = r then v else abs i

def absInit : AbsState := fun r =>
  if r = .r10 then .AbsFramePtr 0 else if r = .r1 then .AbsCtxPtr 0 else .AbsOther

def joinReg (a b : AbsReg) : AbsReg :=
  match a, b with
  | .AbsFramePtr x, .AbsFramePtr y => if x = y then .AbsFramePtr x else .AbsOther
  | .AbsCtxPtr x, .AbsCtxPtr y => if x = y then .AbsCtxPtr x else .AbsOther
  | .AbsRingBufPtr x, .AbsRingBufPtr y => if x = y then .AbsRingBufPtr x else .AbsOther
  | _, _ => .AbsOther

def joinStates (a b : AbsState) : AbsState := fun r => joinReg (a r) (b r)

/-- `check_mem_access`. -/
def checkMemAccess (base : AbsReg) (insnOff : BitVec 32) (width : MemWidth) : Bool :=
  match base with
  | .AbsFramePtr ptrOff => stackOffsetValid (ptrOff + signExtendToInt insnOff) width
  | .AbsCtxPtr _ | .AbsRingBufPtr _ | .AbsOther => true

/-- ADD and SUB of an immediate, as a move by `delta`. -/
def shiftReg (v : AbsReg) (delta : Int) : AbsReg :=
  match v with
  | .AbsFramePtr off => .AbsFramePtr (off + delta)
  | .AbsCtxPtr off => .AbsCtxPtr (off + delta)
  | .AbsRingBufPtr _ | .AbsOther => .AbsOther

/-- r0–r5 are forgotten, by a call and at a loop head. -/
def forgetCallerSaved (abs : AbsState) : AbsState :=
  absSet (absSet (absSet (absSet (absSet (absSet abs .r0 .AbsOther) .r1 .AbsOther) .r2 .AbsOther)
    .r3 .AbsOther) .r4 .AbsOther) .r5 .AbsOther

/-- What `check_insn_sb` does after merging: the state that falls through and the jump saved. -/
def transferSb (abs : AbsState) (insn : Insn) (pc : Int) :
    Option (AbsState × Option (Int × AbsState)) :=
  match insn with
  | .alu64Reg op dst src =>
    match op with
    | .mov => some (absSet abs dst (abs src), none)
    | _ => some (absSet abs dst .AbsOther, none)
  | .alu64Imm op dst imm =>
    match op with
    | .add => some (absSet abs dst (shiftReg (abs dst) (signExtendToInt imm)), none)
    | .sub => some (absSet abs dst (shiftReg (abs dst) (-signExtendToInt imm)), none)
    | _ => some (absSet abs dst .AbsOther, none)
  | .alu32Reg _ dst _ => some (absSet abs dst .AbsOther, none)
  | .alu32Imm _ dst _ => some (absSet abs dst .AbsOther, none)
  | .ldImm64 dst _ => some (absSet abs dst .AbsOther, none)
  | .ldx width dst src off =>
    if checkMemAccess (abs src) off width then some (absSet abs dst .AbsOther, none) else none
  | .stx width dst _ off => if checkMemAccess (abs dst) off width then some (abs, none) else none
  | .st width dst off _ => if checkMemAccess (abs dst) off width then some (abs, none) else none
  | .jmp64Imm _ _ _ offset => some (abs, some (pc + 1 + offset, abs))
  | .jmp64Reg _ _ _ offset => some (abs, some (pc + 1 + offset, abs))
  | .jmp32Imm _ _ _ offset => some (abs, some (pc + 1 + offset, abs))
  | .jmp32Reg _ _ _ offset => some (abs, some (pc + 1 + offset, abs))
  | .jmpJa _ => some (abs, none)
  | .call _ => some (forgetCallerSaved abs, none)
  | .exit => some (abs, none)

/-- The stack-bounds pass; its `checkInsn` is `check_insn_sb`, its `loop` `check_program_loop`. -/
def sbScanner : Scanner AbsState Insn := ⟨joinStates, transferSb⟩

/-- `widen_sb`. -/
def widenSb (abs : AbsState) : AbsState := forgetCallerSaved abs

/-- The states saved for loop heads before the pass starts. -/
def sbTargets (prog : BpfProgram) : Scanner.Targets AbsState :=
  sbScanner.initLoopTargets Insn.branchOffset (widenSb absInit) prog 0 Scanner.emptyTargets

/-- **`stack_bounds_check`.** -/
def stackBoundsCheck (prog : BpfProgram) : Bool := sbScanner.loop absInit prog 0 (sbTargets prog)

/-- What the pass holds at an instruction, with what was saved for it joined in. -/
def sbAt (prog : BpfProgram) (k : ℕ) : Option AbsState :=
  sbScanner.mergedAt absInit prog (sbTargets prog) k

/-- Whether the pass joins a saved state in at an instruction. -/
def sbMerges (prog : BpfProgram) (k : ℕ) : Bool :=
  sbScanner.mergesAt absInit prog (sbTargets prog) k

end BpfVerifier.Fstar
