import BpfVerifier.Bpf.Instruction
import BpfVerifier.Machinery.AssocMap

/-!
# Codegen/Hints — `generate_bitwise_hints`

One pass over the instructions that follows constants from MOVs through registers, stores and loads,
and emits a lemma about each bitwise operation it knows both operands of.  Stack values are kept by
the instruction's offset alone.
-/

namespace BpfVerifier

/-- `is_bitwise_op`. -/
def isBitwiseOp : AluOp → Bool
  | .and | .or | .xor => true
  | _ => false

/-- `bitwise_op_fstar`; only called for the bitwise operations. -/
def bitwiseOpFstar : AluOp → String
  | .and => "logand"
  | .or => "logor"
  | .xor => "logxor"
  | _ => "unreachable"

/-- The bitwise operation itself, at any width. -/
def bitwiseOp {w : ℕ} : AluOp → BitVec w → BitVec w → BitVec w
  | .and, a, b => a &&& b
  | .or, a, b => a ||| b
  | .xor, a, b => a ^^^ b
  | _, a, _ => a

/-- What a hint says of an operation. -/
structure BitwiseHint where
  idx : ℕ
  op : AluOp
  dstVal : BitVec 64
  imm : BitVec 32
  result : BitVec 64
  deriving DecidableEq, Repr

/-- The lemma a hint is emitted as; numbers are printed signed. -/
def BitwiseHint.text (h : BitwiseHint) : String :=
  let opName := bitwiseOpFstar h.op
  let dstVal := toString h.dstVal.toInt
  let imm := toString h.imm.toInt
  let result := toString h.result.toInt
  "let bitwise_hint_" ++ toString h.idx ++ " (x: UInt32.t) : Lemma\n" ++
    "  (requires UInt32.v x = " ++ dstVal ++ ")\n" ++
    "  (ensures UInt32.v (UInt32." ++ opName ++ " x " ++ imm ++ "ul) = " ++ result ++ ") =\n" ++
    "  assert_norm (UInt32.v (UInt32." ++ opName ++ " " ++ dstVal ++ "ul " ++ imm ++ "ul) = " ++
      result ++ ")"

/-- The variables of the pass. -/
structure Hinting where
  hints : List BitwiseHint
  regVals : Reg → Option (BitVec 64)
  stackVals : AssocMap (BitVec 16) (BitVec 64)

namespace Hinting

def start : Hinting := ⟨[], fun _ => none, .empty⟩

def setReg (s : Hinting) (r : Reg) (v : Option (BitVec 64)) : Hinting :=
  { s with regVals := Function.update s.regVals r v }

/-- A store keeps the value under its offset, or forgets what was there. -/
def store (s : Hinting) (insn : BpfInsn) : Hinting :=
  match s.regVals insn.src with
  | some v => { s with stackVals := s.stackVals.insert insn.offset v }
  | none => { s with stackVals := s.stackVals.remove insn.offset }

/-- A bitwise operation with an immediate gives a hint where the operand is known. -/
def bitwise (s : Hinting) (op : AluOp) (insn : BpfInsn) : Hinting :=
  match s.regVals insn.dst with
  | some dstVal =>
    let result := bitwiseOp op dstVal insn.immS
    let hint : BitwiseHint := ⟨s.hints.length, op, dstVal, insn.imm, result⟩
    { s with hints := s.hints ++ [hint]
             regVals := Function.update s.regVals insn.dst (some result) }
  | none => s.setReg insn.dst none

/-- One instruction. -/
def step (s : Hinting) (insn : BpfInsn) : Hinting :=
  match insn.opcode with
  | .alu32 .mov .imm | .alu64 .mov .imm => s.setReg insn.dst (some insn.immS)
  | .stx _ => s.store insn
  | .ldx _ => s.setReg insn.dst (s.stackVals.get insn.offset)
  | .alu32 op .imm | .alu64 op .imm =>
    if isBitwiseOp op then s.bitwise op insn else s.setReg insn.dst none
  | .alu32 _ _ | .alu64 _ _ => s.setReg insn.dst none
  | _ => s

end Hinting

/-- The hints of a programme. -/
def bitwiseHints (instructions : List BpfInsn) : List BitwiseHint :=
  (instructions.foldl Hinting.step .start).hints

/-- **`generate_bitwise_hints`.** -/
def generateBitwiseHints (instructions : List BpfInsn) : List String :=
  (bitwiseHints instructions).map BitwiseHint.text

example : bitwiseHints [.aluImm .mov .r0 12, .aluImm .and .r0 10] = [⟨0, .and, 12, 10, 8⟩] := by
  decide

end BpfVerifier
