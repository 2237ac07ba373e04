import Mathlib.Algebra.Ring.Int.Defs
import Mathlib.Algebra.Ring.Nat
import Mathlib.Tactic.Common

/-!
# Bpf/Instruction — decoded BPF instructions

The instruction type both the verifier and the machine read: registers, ALU and jump operations,
widths, opcodes and the decoded instruction record.
-/

namespace BpfVerifier

/-- BPF register identifiers (R0 through R10). -/
inductive Reg where
  | r0 | r1 | r2 | r3 | r4 | r5 | r6 | r7 | r8 | r9 | r10
  deriving DecidableEq, Repr

/-- The registers in index order, the order `Reg::from_u8` is iterated in. -/
def Reg.all : List Reg := [.r0, .r1, .r2, .r3, .r4, .r5, .r6, .r7, .r8, .r9, .r10]

@[simp] theorem Reg.mem_all (r : Reg) : r ∈ Reg.all := by cases r <;> decide

/-- `index`. -/
def Reg.index : Reg → ℕ
  | .r0 => 0
  | .r1 => 1
  | .r2 => 2
  | .r3 => 3
  | .r4 => 4
  | .r5 => 5
  | .r6 => 6
  | .r7 => 7
  | .r8 => 8
  | .r9 => 9
  | .r10 => 10

theorem Reg.index_inj {r r' : Reg} : r.index = r'.index ↔ r = r' := by
  cases r <;> cases r' <;> decide

/-- Where the second operand of an ALU or jump instruction comes from. -/
inductive Source where
  | imm | reg
  deriving DecidableEq, Repr

/-- ALU operation codes. -/
inductive AluOp where
  | add | sub | mul | div | or | and | lsh | rsh | neg | mod | xor | mov | arsh
  deriving DecidableEq, Repr

/-- The mnemonic `AluOp` displays as. -/
def AluOp.display : AluOp → String
  | .add => "ADD"
  | .sub => "SUB"
  | .mul => "MUL"
  | .div => "DIV"
  | .or => "OR"
  | .and => "AND"
  | .lsh => "LSH"
  | .rsh => "RSH"
  | .neg => "NEG"
  | .mod => "MOD"
  | .xor => "XOR"
  | .mov => "MOV"
  | .arsh => "ARSH"

/-- Memory access width. -/
inductive MemWidth where
  | b | h | w | dw
  deriving DecidableEq, Repr

/-- Jump comparison operation. -/
inductive JmpOp where
  | ja | jeq | jgt | jge | jset | jne | jlt | jle | jsgt | jsge | jslt | jsle
  deriving DecidableEq, Repr

/-- Decoded BPF opcode. -/
inductive Opcode where
  | alu64 (op : AluOp) (src : Source)
  | alu32 (op : AluOp) (src : Source)
  | ldx (width : MemWidth)
  | stx (width : MemWidth)
  | st (width : MemWidth)
  | jmp64 (op : JmpOp) (src : Source)
  | jmp32 (op : JmpOp) (src : Source)
  | jmpJa
  | call
  | ldImm64
  | exit
  | unknown (raw : BitVec 8)
  deriving DecidableEq, Repr

/-- A decoded BPF instruction. -/
structure BpfInsn where
  opcode : Opcode
  dst : Reg
  src : Reg
  offset : BitVec 16
  imm : BitVec 32
  imm64 : Option (BitVec 64)
  deriving DecidableEq, Repr

/-- Bytes an access of the given width touches. -/
def widthBytes : MemWidth → ℕ
  | .b => 1
  | .h => 2
  | .w => 4
  | .dw => 8

theorem widthBytes_pos (width : MemWidth) : 0 < widthBytes width := by cases width <;> decide

theorem widthBytes_le (width : MemWidth) : widthBytes width ≤ 8 := by cases width <;> decide

namespace BpfInsn

variable (insn : BpfInsn)

/-- `imm as i64 as u64`: the immediate of a 64-bit operation. -/
def immS : BitVec 64 := insn.imm.signExtend 64

/-- `imm as u32 as u64`: the immediate of a 32-bit operation. -/
def immU : BitVec 64 := insn.imm.zeroExtend 64

/-- The immediate as the operand of a 64- or 32-bit operation. -/
def immOf (is64 : Bool) : BitVec 64 := if is64 then insn.immS else insn.immU

/-- `offset as i64`. -/
def off : BitVec 64 := insn.offset.signExtend 64

/-- The value an `LD_IMM64` without relocation loads. -/
def ldValue : BitVec 64 := insn.imm64.getD insn.immU

/-- The instruction may jump. -/
def jumps : Bool :=
  match insn.opcode with
  | .jmpJa | .jmp64 _ _ | .jmp32 _ _ => true
  | _ => false

/-- An instruction without a 64-bit immediate. -/
def plain (opcode : Opcode) (dst src : Reg) (offset : BitVec 16) (imm : BitVec 32) : BpfInsn :=
  ⟨opcode, dst, src, offset, imm, none⟩

/-- `dst op= imm`, on 64 bits. -/
def aluImm (op : AluOp) (dst : Reg) (imm : BitVec 32) : BpfInsn :=
  plain (.alu64 op .imm) dst .r0 0 imm

/-- `dst op= src`, on 64 bits. -/
def aluReg (op : AluOp) (dst src : Reg) : BpfInsn := plain (.alu64 op .reg) dst src 0 0

/-- `if dst op imm goto +offset`. -/
def jmpImm (op : JmpOp) (dst : Reg) (imm : BitVec 32) (offset : BitVec 16) : BpfInsn :=
  plain (.jmp64 op .imm) dst .r0 offset imm

/-- `goto +offset`. -/
def goto (offset : BitVec 16) : BpfInsn := plain .jmpJa .r0 .r0 offset 0

/-- `dst = *(src + offset)`. -/
def load (width : MemWidth) (dst src : Reg) (offset : BitVec 16) : BpfInsn :=
  plain (.ldx width) dst src offset 0

/-- `*(dst + offset) = src`. -/
def store (width : MemWidth) (dst src : Reg) (offset : BitVec 16) : BpfInsn :=
  plain (.stx width) dst src offset 0

/-- `*(dst + offset) = imm`. -/
def storeImm (width : MemWidth) (dst : Reg) (offset : BitVec 16) (imm : BitVec 32) : BpfInsn :=
  plain (.st width) dst .r0 offset imm

/-- `call id`. -/
def callHelper (id : BitVec 32) : BpfInsn := plain .call .r0 .r0 0 id

/-- `exit`. -/
def ret : BpfInsn := plain .exit .r0 .r0 0 0

end BpfInsn

end BpfVerifier
