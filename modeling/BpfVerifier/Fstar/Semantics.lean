import BpfVerifier.Fstar.Helpers
import BpfVerifier.Machinery.Fuel

/-!
# Fstar/Semantics — `BPF.Semantics`, the executor of the F* layer

`execInsn` is one instruction, `none` on undefined behaviour; `execProgram` runs a programme with
fuel.  Jumps count in entries of the instruction list, from the entry after the jump.
-/

namespace BpfVerifier.Fstar

/-- `bpf_insn`. -/
inductive Insn where
  | alu64Reg (op : AluOp) (dst src : Reg)
  | alu64Imm (op : AluOp) (dst : Reg) (imm : BitVec 32)
  | alu32Reg (op : AluOp) (dst src : Reg)
  | alu32Imm (op : AluOp) (dst : Reg) (imm : BitVec 32)
  | ldx (width : MemWidth) (dst src : Reg) (off : BitVec 32)
  | stx (width : MemWidth) (dst src : Reg) (off : BitVec 32)
  | st (width : MemWidth) (dst : Reg) (off imm : BitVec 32)
  | ldImm64 (dst : Reg) (imm : BitVec 64)
  | jmp64Reg (op : JmpOp) (dst src : Reg) (offset : Int)
  | jmp64Imm (op : JmpOp) (dst : Reg) (imm : BitVec 32) (offset : Int)
  | jmp32Reg (op : JmpOp) (dst src : Reg) (offset : Int)
  | jmp32Imm (op : JmpOp) (dst : Reg) (imm : BitVec 32) (offset : Int)
  | jmpJa (offset : Int)
  | call (hid : HelperId)
  | exit
  deriving DecidableEq, Repr

/-- `bpf_program`. -/
abbrev BpfProgram := List Insn

/-- `sign_extend_imm`. -/
def signExtendImm (imm : BitVec 32) : BitVec 64 := imm.signExtend 64

/-- `sign_extend_to_int`. -/
def signExtendToInt (imm : BitVec 32) : Int := imm.toInt

/-! ## ALU -/

/-- `alu64`: wrapping arithmetic; a division by zero gives 0, a remainder by zero the dividend. -/
def alu64 (op : AluOp) (dst src : BitVec 64) : Option (BitVec 64) :=
  match op with
  | .add => some (dst + src)
  | .sub => some (dst - src)
  | .mul => some (dst * src)
  | .div => if src = 0 then some 0 else some (dst / src)
  | .or => some (dst ||| src)
  | .and => some (dst &&& src)
  | .xor => some (dst ^^^ src)
  | .mov => some src
  | .neg => some (0 - dst)
  | .mod => if src = 0 then some dst else some (dst % src)
  | .lsh => some (dst <<< (src.toNat % 64))
  | .rsh => some (dst >>> (src.toNat % 64))
  | .arsh =>
    let shift := src.toNat % 64
    let logical := dst >>> shift
    -- the bits shifted in are ones when the sign bit was set
    if dst.toNat ≥ 2 ^ 63 ∧ shift > 0 then
      let mask := 0 - (1 : BitVec 64) <<< (64 - shift)
      some (logical ||| mask)
    else some logical

/-- `alu32`: the operation on the low halves, zero-extended. -/
def alu32 (op : AluOp) (dst src : BitVec 64) : Option (BitVec 64) :=
  let d32 : BitVec 32 := dst.setWidth 32
  let s32 : BitVec 32 := src.setWidth 32
  match op with
  | .add => some ((d32 + s32).setWidth 64)
  | .sub => some ((d32 - s32).setWidth 64)
  | .mul => some ((d32 * s32).setWidth 64)
  | .div => if s32 = 0 then some 0 else some ((d32 / s32).setWidth 64)
  | .or => some ((d32 ||| s32).setWidth 64)
  | .and => some ((d32 &&& s32).setWidth 64)
  | .xor => some ((d32 ^^^ s32).setWidth 64)
  | .mov => some (s32.setWidth 64)
  | .neg => some ((0 - d32).setWidth 64)
  | .mod => if s32 = 0 then some dst else some ((d32 % s32).setWidth 64)
  | .lsh => some ((d32 <<< (s32.toNat % 32)).setWidth 64)
  | .rsh => some ((d32 >>> (s32.toNat % 32)).setWidth 64)
  | .arsh =>
    let shift := s32.toNat % 32
    let logical := d32 >>> shift
    let result :=
      if d32.toNat ≥ 2 ^ 31 ∧ shift > 0 then
        let mask := 0 - (1 : BitVec 32) <<< (32 - shift)
        logical ||| mask
      else logical
    some (result.setWidth 64)

/-! ## Jump conditions -/

/-- The two's-complement reading of an unsigned number of `bits` bits. -/
def signed (bits d : ℕ) : Int := if d ≥ 2 ^ (bits - 1) then (d : Int) - 2 ^ bits else d

/-- The comparisons of `eval_jmp64` and `eval_jmp32`, on the unsigned readings. -/
def evalJmp (bits : ℕ) (op : JmpOp) (d s : ℕ) : Bool :=
  match op with
  | .ja => true
  | .jeq => d = s
  | .jgt => d > s
  | .jge => d ≥ s
  | .jset => d &&& s ≠ 0
  | .jne => d ≠ s
  | .jlt => d < s
  | .jle => d ≤ s
  | .jsgt => signed bits d > signed bits s
  | .jsge => signed bits d ≥ signed bits s
  | .jslt => signed bits d < signed bits s
  | .jsle => signed bits d ≤ signed bits s

def evalJmp64 (op : JmpOp) (dst src : BitVec 64) : Bool := evalJmp 64 op dst.toNat src.toNat

def evalJmp32 (op : JmpOp) (dst src : BitVec 64) : Bool :=
  evalJmp 32 op (dst.toNat % 2 ^ 32) (src.toNat % 2 ^ 32)

/-- The number a register comparison sees: null is zero, other pointers are none. -/
def regValForJmp : RegVal → Option (BitVec 64)
  | .scalar n => some n
  | .null => some 0
  | .mapValuePtr _ | .ringBufPtr _ | .ctxPtr _ | .framePtr _ => none

/-- Whether a register is zero: null is, the other pointers are not. -/
def regValIsZero : RegVal → Option Bool
  | .scalar n => some (n = 0)
  | .null => some true
  | .mapValuePtr _ | .ringBufPtr _ | .ctxPtr _ | .framePtr _ => some false

/-! ## One instruction -/

namespace BpfState

variable (st : BpfState)

/-- Where a taken jump goes. -/
def takenPc (offset : Int) : Int := st.pc + 1 + offset

/-- A conditional jump. -/
def branch (cond : Bool) (offset : Int) : BpfState :=
  st.jump (if cond then st.takenPc offset else st.pc + 1)

/-- dst := the number an operation gives, if it gives one. -/
def setNumber (dst : Reg) (result : Option (BitVec 64)) : Option BpfState :=
  result.map fun n => st.setReg dst (.scalar n)

end BpfState

section

variable (st : BpfState)

def execAlu64Reg (op : AluOp) (dst src : Reg) : Option BpfState :=
  match op with
  | .mov => some (st.setReg dst (st.regs src))
  | _ =>
    match scalarVal (st.regs dst), scalarVal (st.regs src) with
    | some d, some s => st.setNumber dst (alu64 op d s)
    | _, _ => none

/-- ADD and SUB of an immediate move a frame or context pointer; everything else needs a number. -/
def execAlu64Imm (op : AluOp) (dst : Reg) (imm : BitVec 32) : Option BpfState :=
  match op with
  | .mov => some (st.setReg dst (.scalar (signExtendImm imm)))
  | .add =>
    match st.regs dst with
    | .scalar d => st.setNumber dst (alu64 .add d (signExtendImm imm))
    | .framePtr off => some (st.setReg dst (.framePtr (off + signExtendToInt imm)))
    | .ctxPtr off => some (st.setReg dst (.ctxPtr (off + signExtendToInt imm)))
    | _ => none
  | .sub =>
    match st.regs dst with
    | .scalar d => st.setNumber dst (alu64 .sub d (signExtendImm imm))
    | .framePtr off => some (st.setReg dst (.framePtr (off - signExtendToInt imm)))
    | .ctxPtr off => some (st.setReg dst (.ctxPtr (off - signExtendToInt imm)))
    | _ => none
  | _ =>
    match scalarVal (st.regs dst) with
    | some d => st.setNumber dst (alu64 op d (signExtendImm imm))
    | none => none

def execAlu32Reg (op : AluOp) (dst src : Reg) : Option BpfState :=
  match op with
  | .mov =>
    match scalarVal (st.regs src) with
    | some s => st.setNumber dst (alu32 .mov s s)
    | none => none
  | _ =>
    match scalarVal (st.regs dst), scalarVal (st.regs src) with
    | some d, some s => st.setNumber dst (alu32 op d s)
    | _, _ => none

/-- `BPF_ALU32_IMM` other than MOV. -/
def execAlu32ImmOp (op : AluOp) (dst : Reg) (imm : BitVec 32) : Option BpfState :=
  match scalarVal (st.regs dst) with
  | some d => st.setNumber dst (alu32 op d (signExtendImm imm))
  | none => none

/-- A MOV zero-extends its immediate. -/
def execAlu32Imm (op : AluOp) (dst : Reg) (imm : BitVec 32) : Option BpfState :=
  match op with
  | .mov => some (st.setReg dst (.scalar (imm.setWidth 64)))
  | _ => execAlu32ImmOp st op dst imm

/-- A load by the kind of its base; `load` is the way the frame is read. -/
def execLdxWith (load : Int → MemWidth → Option (BitVec 64)) (width : MemWidth) (dst src : Reg)
    (off : BitVec 32) : Option BpfState :=
  match st.regs src with
  | .framePtr ptrOff => st.setNumber dst (load (ptrOff + signExtendToInt off) width)
  | .mapValuePtr id => st.setNumber dst (mapValueRead st.mapValues id)
  | .ringBufPtr id =>
    match ringbufRead st.ringbuf id (signExtendToInt off) width with
    | none => some (st.setReg dst (.scalar 0))
    | some v => some (st.setReg dst (.scalar v))
  | .ctxPtr _ => some (st.setReg dst (.scalar 0))
  | .null => none
  | .scalar _ => none

/-- Write a slot of a ring-buffer record. -/
def ringbufStore (id : ℕ) (offset : Int) (width : MemWidth) (v : BitVec 64) : BpfState :=
  { st with ringbuf := ringbufWrite st.ringbuf id offset width v, pc := st.pc + 1 }

/-- A store by the kind of its base; `store` is the way the frame is written. -/
def execStoreWith (store : Int → MemWidth → BitVec 64 → Option BpfState) (width : MemWidth)
    (dst : Reg) (off : BitVec 32) (v : Option (BitVec 64)) : Option BpfState :=
  match st.regs dst with
  | .framePtr ptrOff =>
    match v with
    | some v => store (ptrOff + signExtendToInt off) width v
    | none => none
  | .ringBufPtr id =>
    match v with
    | some v => some (ringbufStore st id (signExtendToInt off) width v)
    | none => none
  | _ => none

def execJmp64Reg (op : JmpOp) (dst src : Reg) (offset : Int) : Option BpfState :=
  match regValForJmp (st.regs dst), regValForJmp (st.regs src) with
  | some d, some s => some (st.branch (evalJmp64 op d s) offset)
  | _, _ => none

/-- JEQ and JNE only ask whether dst is zero: with an immediate other than 0 they take "not zero"
for "equal to the immediate". -/
def execJmp64Imm (op : JmpOp) (dst : Reg) (imm : BitVec 32) (offset : Int) : Option BpfState :=
  if op = .jeq ∨ op = .jne then
    match regValIsZero (st.regs dst) with
    | some isZero =>
      let cond :=
        match op with
        | .jeq => if (signExtendImm imm).toNat = 0 then isZero else !isZero
        | .jne => if (signExtendImm imm).toNat = 0 then !isZero else isZero
        | _ => false
      some (st.branch cond offset)
    | none => none
  else
    match scalarVal (st.regs dst) with
    | some d => some (st.branch (evalJmp64 op d (signExtendImm imm)) offset)
    | none => none

def execJmp32Reg (op : JmpOp) (dst src : Reg) (offset : Int) : Option BpfState :=
  match scalarVal (st.regs dst), scalarVal (st.regs src) with
  | some d, some s => some (st.branch (evalJmp32 op d s) offset)
  | _, _ => none

def execJmp32Imm (op : JmpOp) (dst : Reg) (imm : BitVec 32) (offset : Int) : Option BpfState :=
  match scalarVal (st.regs dst) with
  | some d => some (st.branch (evalJmp32 op d (signExtendImm imm)) offset)
  | none => none

end

/-- **`exec_insn`**: one instruction, `none` on undefined behaviour. -/
def execInsn (st : BpfState) (insn : Insn) : Option BpfState :=
  match insn with
  | .alu64Reg op dst src => execAlu64Reg st op dst src
  | .alu64Imm op dst imm => execAlu64Imm st op dst imm
  | .alu32Reg op dst src => execAlu32Reg st op dst src
  | .alu32Imm op dst imm => execAlu32Imm st op dst imm
  | .ldImm64 dst imm => some (st.setReg dst (.scalar imm))
  | .ldx width dst src off => execLdxWith st st.stackLoad width dst src off
  | .stx width dst src off => execStoreWith st st.stackStore width dst off (scalarVal (st.regs src))
  | .st width dst off imm => execStoreWith st st.stackStore width dst off (some (signExtendImm imm))
  | .jmp64Reg op dst src offset => execJmp64Reg st op dst src offset
  | .jmp64Imm op dst imm offset => execJmp64Imm st op dst imm offset
  | .jmp32Reg op dst src offset => execJmp32Reg st op dst src offset
  | .jmp32Imm op dst imm offset => execJmp32Imm st op dst imm offset
  | .jmpJa offset => some (st.jump (st.takenPc offset))
  | .call hid =>
    match getHelperSpec hid with
    | some spec => execHelper st spec
    | none => none
  | .exit => some st

/-! ## Programmes -/

/-- `branch_offset`, and its copy `branch_offset_sb`. -/
def Insn.branchOffset : Insn → Option Int
  | .jmp64Imm _ _ _ off | .jmp64Reg _ _ _ off | .jmp32Imm _ _ _ off | .jmp32Reg _ _ _ off
  | .jmpJa off => some off
  | _ => none

def Insn.isExit : Insn → Bool
  | .exit => true
  | _ => false

/-- The instruction a programme counter selects: a negative one selects the first. -/
def fetchAt (prog : BpfProgram) (pc : Int) : Option Insn :=
  (prog.drop (if 0 ≤ pc then pc.toNat else 0)).head?

theorem fetchAt_eq (prog : BpfProgram) (pc : Int) : fetchAt prog pc = prog[pc.toNat]? := by
  unfold fetchAt
  split
  · simp
  · next h =>
    have hneg : pc.toNat = 0 := by omega
    simp [hneg, List.head?_eq_getElem?]

/-- The executor of a programme, by what one instruction does. -/
def interpWith (exec : BpfState → Insn → Option BpfState) (prog : BpfProgram) :
    Interp BpfState Insn where
  fetch st := fetchAt prog st.pc
  halts := Insn.isExit
  exec := exec

/-- The plain executor. -/
abbrev interp (prog : BpfProgram) : Interp BpfState Insn := interpWith execInsn prog

/-- **`exec_program`.** -/
def execProgram (st : BpfState) (prog : BpfProgram) (fuel : ℕ) : Option BpfState :=
  (interp prog).run fuel st

theorem Insn.isExit_iff {insn : Insn} : insn.isExit = true ↔ insn = .exit := by
  cases insn <;> simp [Insn.isExit]

end BpfVerifier.Fstar
