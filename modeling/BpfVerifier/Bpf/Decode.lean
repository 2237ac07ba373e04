import BpfVerifier.Bpf.Instruction
import BpfVerifier.Machinery.Bytes

/-!
# Bpf/Decode — decoding of 8-byte words

`BpfInsn.decode` reads an instruction out of a 64-bit word.  Opcode bytes it does not know become
`unknown`; a register nibble above 10 makes it fail.
-/

namespace BpfVerifier

/-! ## Fields -/

/-- `Reg::from_u8`. -/
def Reg.fromU8 (v : BitVec 8) : Option Reg :=
  match v.toNat with
  | 0 => some .r0
  | 1 => some .r1
  | 2 => some .r2
  | 3 => some .r3
  | 4 => some .r4
  | 5 => some .r5
  | 6 => some .r6
  | 7 => some .r7
  | 8 => some .r8
  | 9 => some .r9
  | 10 => some .r10
  | _ => none

/-- `AluOp::from_u8`, from the upper nibble of the opcode byte. -/
def AluOp.fromU8 (v : BitVec 8) : Option AluOp :=
  match v.toNat with
  | 0x0 => some .add
  | 0x1 => some .sub
  | 0x2 => some .mul
  | 0x3 => some .div
  | 0x4 => some .or
  | 0x5 => some .and
  | 0x6 => some .lsh
  | 0x7 => some .rsh
  | 0x8 => some .neg
  | 0x9 => some .mod
  | 0xa => some .xor
  | 0xb => some .mov
  | 0xc => some .arsh
  | _ => none

/-- `MemWidth::from_size_bits`. -/
def MemWidth.fromSizeBits (bits : BitVec 8) : Option MemWidth :=
  match bits.toNat with
  | 0x00 => some .w
  | 0x01 => some .h
  | 0x02 => some .b
  | 0x03 => some .dw
  | _ => none

/-- `JmpOp::from_u8`. -/
def JmpOp.fromU8 (v : BitVec 8) : Option JmpOp :=
  match v.toNat with
  | 0x00 => some .ja
  | 0x01 => some .jeq
  | 0x02 => some .jgt
  | 0x03 => some .jge
  | 0x04 => some .jset
  | 0x05 => some .jne
  | 0x06 => some .jsgt
  | 0x07 => some .jsge
  | 0x0a => some .jlt
  | 0x0b => some .jle
  | 0x0c => some .jslt
  | 0x0d => some .jsle
  | _ => none

/-- `Opcode::decode`: class in bits [2:0], source flag in bit 3, operation in bits [7:4]. -/
def Opcode.decode (raw : BitVec 8) : Opcode :=
  if raw = 0x95 then .exit
  else if raw = 0x85 then .call
  else if raw = 0x18 then .ldImm64
  else
    let insnClass := raw &&& 0x07
    let srcFlag := raw &&& 0x08
    let opNibble := (raw >>> 4) &&& 0x0f
    let source : Source := if srcFlag ≠ 0 then .reg else .imm
    let sizeBits := (raw >>> 3) &&& 0x03
    match insnClass.toNat with
    | 0x07 => (AluOp.fromU8 opNibble).elim (.unknown raw) fun op => .alu64 op source
    | 0x04 => (AluOp.fromU8 opNibble).elim (.unknown raw) fun op => .alu32 op source
    | 0x01 => (MemWidth.fromSizeBits sizeBits).elim (.unknown raw) .ldx
    | 0x02 => (MemWidth.fromSizeBits sizeBits).elim (.unknown raw) .st
    | 0x03 => (MemWidth.fromSizeBits sizeBits).elim (.unknown raw) .stx
    | 0x05 =>
      if opNibble = 0x00 then .jmpJa
      else (JmpOp.fromU8 opNibble).elim (.unknown raw) fun op => .jmp64 op source
    | 0x06 => (JmpOp.fromU8 opNibble).elim (.unknown raw) fun op => .jmp32 op source
    | _ => .unknown raw

/-! ## Words -/

section

variable (raw : BitVec 64)

/-- The opcode byte of a word. -/
def opcodeByte : BitVec 8 := Bytes.byte raw 0

/-- The low nibble of byte 1, which names the destination. -/
def dstNibble : BitVec 8 := Bytes.byte raw 1 &&& 0x0f

/-- The high nibble of byte 1, which names the source. -/
def srcNibble : BitVec 8 := (Bytes.byte raw 1 >>> 4) &&& 0x0f

/-- Bytes 2 and 3, as an `i16`. -/
def offsetBytes : BitVec 16 := Bytes.byte raw 3 ++ Bytes.byte raw 2

/-- Bytes 4 to 7, as an `i32`. -/
def immBytes : BitVec 32 :=
  Bytes.byte raw 7 ++ Bytes.byte raw 6 ++ Bytes.byte raw 5 ++ Bytes.byte raw 4

/-- **`BpfInsn::decode`.** -/
def BpfInsn.decode : Option BpfInsn :=
  match Reg.fromU8 (dstNibble raw), Reg.fromU8 (srcNibble raw) with
  | some dst, some src =>
    some ⟨Opcode.decode (opcodeByte raw), dst, src, offsetBytes raw, immBytes raw, none⟩
  | _, _ => none

/-- Both register nibbles of a word name registers. -/
def NamesRegs : Prop := dstNibble raw ≤ 10 ∧ srcNibble raw ≤ 10

instance : Decidable (NamesRegs raw) := inferInstanceAs (Decidable (_ ∧ _))

end

/-! ## What decodes -/

theorem Reg.fromU8_isSome (v : BitVec 8) : (Reg.fromU8 v).isSome = true ↔ v ≤ 10 := by
  rw [BitVec.le_def]
  unfold Reg.fromU8
  split <;> simp_all
  omega

/-- **A word decodes when its register nibbles name registers**, whatever its opcode byte. -/
theorem BpfInsn.decode_isSome (raw : BitVec 64) :
    (BpfInsn.decode raw).isSome = true ↔ NamesRegs raw := by
  rw [NamesRegs, ← Reg.fromU8_isSome, ← Reg.fromU8_isSome, BpfInsn.decode]
  cases Reg.fromU8 (dstNibble raw) <;> cases Reg.fromU8 (srcNibble raw) <;> simp

theorem BpfInsn.decode_eq_none {raw : BitVec 64} :
    BpfInsn.decode raw = none ↔ ¬NamesRegs raw := by
  rw [← BpfInsn.decode_isSome, Option.not_isSome_iff_eq_none]

/-- An operation field gives no LD_IMM64. -/
theorem elim_ne_ldImm64 {α : Type} {raw : BitVec 8} {f : α → Opcode} (hf : ∀ a, f a ≠ .ldImm64)
    (field : Option α) : field.elim (.unknown raw) f ≠ .ldImm64 := by
  cases field with
  | none => simp
  | some a => exact hf a

/-- **LD_IMM64 is the opcode byte 0x18** and no other. -/
theorem Opcode.decode_eq_ldImm64 {raw : BitVec 8} : Opcode.decode raw = .ldImm64 ↔ raw = 0x18 := by
  constructor
  · intro h
    by_contra hld
    unfold Opcode.decode at h
    split at h
    · cases h
    split at h
    · cases h
    dsimp only at h
    split at h
    · exact elim_ne_ldImm64 (by simp) _ h
    · exact elim_ne_ldImm64 (by simp) _ h
    · exact elim_ne_ldImm64 (by simp) _ h
    · exact elim_ne_ldImm64 (by simp) _ h
    · exact elim_ne_ldImm64 (by simp) _ h
    · split at h
      · cases h
      · exact elim_ne_ldImm64 (by simp) _ h
    · exact elim_ne_ldImm64 (by simp) _ h
    · cases h
  · rintro rfl
    decide

/-- The decoded opcode is the decoded first byte. -/
theorem BpfInsn.opcode_of_decode {raw : BitVec 64} {insn : BpfInsn}
    (h : BpfInsn.decode raw = some insn) : insn.opcode = Opcode.decode (opcodeByte raw) := by
  unfold BpfInsn.decode at h
  split at h
  · obtain rfl := Option.some.inj h
    rfl
  · cases h

end BpfVerifier
