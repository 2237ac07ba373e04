import BpfVerifier.Bpf.Decode

/-!
# Properties/Encodings — which words decode to the same instruction

Decoding reads all of a word but the mode bits of a load or store and the source flag of a JA
(`readBits`): what it reads of the opcode byte can be encoded back (`encode_decode`).  So two words
are conflated exactly when they differ in those bits only (`decode_inj_iff`).
-/

namespace BpfVerifier

/-! ## Opcode bytes -/

/-- The bits of an opcode byte that `Opcode.decode` reads. -/
def readBits (raw : BitVec 8) : BitVec 8 :=
  -- loads and stores: class and size, not the mode
  if raw &&& 0x07 = 0x01 ∨ raw &&& 0x07 = 0x02 ∨ raw &&& 0x07 = 0x03 then 0x1f
  -- JA: not the source flag
  else if raw &&& 0xf7 = 0x05 then 0xf7
  else 0xff

def AluOp.toU8 : AluOp → BitVec 8
  | .add => 0x0
  | .sub => 0x1
  | .mul => 0x2
  | .div => 0x3
  | .or => 0x4
  | .and => 0x5
  | .lsh => 0x6
  | .rsh => 0x7
  | .neg => 0x8
  | .mod => 0x9
  | .xor => 0xa
  | .mov => 0xb
  | .arsh => 0xc

def JmpOp.toU8 : JmpOp → BitVec 8
  | .ja => 0x0
  | .jeq => 0x1
  | .jgt => 0x2
  | .jge => 0x3
  | .jset => 0x4
  | .jne => 0x5
  | .jsgt => 0x6
  | .jsge => 0x7
  | .jlt => 0xa
  | .jle => 0xb
  | .jslt => 0xc
  | .jsle => 0xd

def Source.flag : Source → BitVec 8
  | .imm => 0x00
  | .reg => 0x08

def MemWidth.sizeBits : MemWidth → BitVec 8
  | .w => 0x00
  | .h => 0x08
  | .b => 0x10
  | .dw => 0x18

/-- An opcode byte of a decoded opcode. -/
def Opcode.encode : Opcode → BitVec 8
  | .alu64 op src => op.toU8 <<< 4 ||| src.flag ||| 0x07
  | .alu32 op src => op.toU8 <<< 4 ||| src.flag ||| 0x04
  | .ldx width => width.sizeBits ||| 0x01
  | .stx width => width.sizeBits ||| 0x03
  | .st width => width.sizeBits ||| 0x02
  | .jmp64 op src => op.toU8 <<< 4 ||| src.flag ||| 0x05
  | .jmp32 op src => op.toU8 <<< 4 ||| src.flag ||| 0x06
  | .jmpJa => 0x05
  | .call => 0x85
  | .ldImm64 => 0x18
  | .exit => 0x95
  | .unknown raw => raw

/-- **A decoded opcode keeps the bits that were read.** -/
theorem Opcode.encode_decode (raw : BitVec 8) :
    (Opcode.decode raw).encode = raw &&& readBits raw := by
  revert raw
  decide +kernel

theorem Opcode.decode_and_readBits (raw : BitVec 8) :
    Opcode.decode (raw &&& readBits raw) = Opcode.decode raw := by
  revert raw
  decide +kernel

/-- **Opcode bytes are conflated when they agree on the bits read.** -/
theorem Opcode.decode_eq_iff {a b : BitVec 8} :
    Opcode.decode a = Opcode.decode b ↔ a &&& readBits a = b &&& readBits b := by
  constructor
  · intro h
    rw [← Opcode.encode_decode, h, Opcode.encode_decode]
  · intro h
    rw [← Opcode.decode_and_readBits a, h, Opcode.decode_and_readBits]

/-! ## Words -/

section

variable {w w₁ w₂ : BitVec 64}

theorem getLsbD_opcodeByte (w : BitVec 64) (j : ℕ) :
    (opcodeByte w).getLsbD j = (decide (j < 8) && w.getLsbD j) := by
  simp [opcodeByte, Bytes.byte]

theorem getLsbD_byte (w : BitVec 64) (i j : ℕ) :
    (Bytes.byte w i).getLsbD j = (decide (j < 8) && w.getLsbD (8 * i + j)) := by
  simp [Bytes.byte]

/-- The bytes after the first make up the rest of a word. -/
theorem shift_eq_iff :
    w₁ >>> 8 = w₂ >>> 8 ↔ ∀ i, Bytes.byte w₁ (i + 1) = Bytes.byte w₂ (i + 1) := by
  constructor
  · intro h i
    apply BitVec.eq_of_getLsbD_eq
    intro j _
    have hbit := congrArg (fun z : BitVec 64 => z.getLsbD (8 * i + j)) h
    simp only [BitVec.getLsbD_ushiftRight] at hbit
    rw [getLsbD_byte, getLsbD_byte, show 8 * (i + 1) + j = 8 + (8 * i + j) by omega, hbit]
  · intro h
    apply BitVec.eq_of_getLsbD_eq
    intro j _
    have hbit := congrArg (fun z : BitVec 8 => z.getLsbD (j % 8)) (h (j / 8))
    simp only [getLsbD_byte, show 8 * (j / 8 + 1) + j % 8 = 8 + j by omega,
      Nat.mod_lt j (show 8 > 0 by decide), decide_true, Bool.true_and] at hbit
    simpa only [BitVec.getLsbD_ushiftRight] using hbit

theorem Reg.index_of_fromU8 {v : BitVec 8} {r : Reg} (h : Reg.fromU8 v = some r) :
    v.toNat = r.index := by
  unfold Reg.fromU8 at h
  split at h
  all_goals
    first
      | (obtain rfl := Option.some.inj h; assumption)
      | cases h

/-- A byte is its two nibbles. -/
theorem byte_eq_of_nibbles {a b : BitVec 8}
    (hlo : a &&& (0x0f : BitVec 8) = b &&& (0x0f : BitVec 8))
    (hhi : (a >>> 4) &&& (0x0f : BitVec 8) = (b >>> 4) &&& (0x0f : BitVec 8)) : a = b := by
  have hsplit (v : BitVec 8) :
      v = ((v >>> 4) &&& (0x0f : BitVec 8)) <<< 4 ||| (v &&& (0x0f : BitVec 8)) := by
    revert v
    decide +kernel
  rw [hsplit a, hsplit b, hlo, hhi]

theorem append_inj {m n : ℕ} {x x' : BitVec m} {y y' : BitVec n} (h : x ++ y = x' ++ y') :
    x = x' ∧ y = y' := by
  have hbit (i : ℕ) := congrArg (fun z => z.getLsbD i) h
  simp only [BitVec.getLsbD_append] at hbit
  constructor
  · apply BitVec.eq_of_getLsbD_eq
    intro i _
    have hi := hbit (i + n)
    rw [if_neg (by omega), if_neg (by omega)] at hi
    simpa using hi
  · apply BitVec.eq_of_getLsbD_eq
    intro i hi
    simpa [hi] using hbit i

/-- A register nibble is read back from the register. -/
theorem Reg.fromU8_inj {v v' : BitVec 8} {r : Reg} (h : Reg.fromU8 v = some r)
    (h' : Reg.fromU8 v' = some r) : v = v' :=
  BitVec.eq_of_toNat_eq ((Reg.index_of_fromU8 h).trans (Reg.index_of_fromU8 h').symm)

/-- The fields of a decoded word. -/
theorem BpfInsn.of_decode {insn : BpfInsn} (h : BpfInsn.decode w = some insn) :
    Reg.fromU8 (dstNibble w) = some insn.dst ∧ Reg.fromU8 (srcNibble w) = some insn.src ∧
      offsetBytes w = insn.offset ∧ immBytes w = insn.imm := by
  unfold BpfInsn.decode at h
  split at h
  · next hdst hsrc =>
    obtain rfl := Option.some.inj h
    exact ⟨hdst, hsrc, rfl, rfl⟩
  · cases h

/-- **Everything after the opcode byte of a decoded word is kept.** -/
theorem shift_eq_of_decode {insn : BpfInsn} (h₁ : BpfInsn.decode w₁ = some insn)
    (h₂ : BpfInsn.decode w₂ = some insn) : w₁ >>> 8 = w₂ >>> 8 := by
  obtain ⟨hdst₁, hsrc₁, hoff₁, himm₁⟩ := BpfInsn.of_decode h₁
  obtain ⟨hdst₂, hsrc₂, hoff₂, himm₂⟩ := BpfInsn.of_decode h₂
  have hregs : Bytes.byte w₁ 1 = Bytes.byte w₂ 1 :=
    byte_eq_of_nibbles (Reg.fromU8_inj hdst₁ hdst₂) (Reg.fromU8_inj hsrc₁ hsrc₂)
  obtain ⟨hbyte₃, hbyte₂⟩ := append_inj (hoff₁.trans hoff₂.symm)
  obtain ⟨himm, hbyte₄⟩ := append_inj (himm₁.trans himm₂.symm)
  obtain ⟨himm, hbyte₅⟩ := append_inj himm
  obtain ⟨hbyte₇, hbyte₆⟩ := append_inj himm
  rw [shift_eq_iff]
  intro i
  match i with
  | 0 => exact hregs
  | 1 => exact hbyte₂
  | 2 => exact hbyte₃
  | 3 => exact hbyte₄
  | 4 => exact hbyte₅
  | 5 => exact hbyte₆
  | 6 => exact hbyte₇
  | i + 7 =>
    -- a word has no more bytes
    apply BitVec.eq_of_getLsbD_eq
    intro j _
    rw [getLsbD_byte, getLsbD_byte, BitVec.getLsbD_of_ge _ _ (by omega),
      BitVec.getLsbD_of_ge _ _ (by omega)]

/-- Decoding reads the rest of a word through its bytes. -/
theorem decode_congr (hrest : w₁ >>> 8 = w₂ >>> 8)
    (hop : Opcode.decode (opcodeByte w₁) = Opcode.decode (opcodeByte w₂)) :
    BpfInsn.decode w₁ = BpfInsn.decode w₂ := by
  have hbytes := shift_eq_iff.mp hrest
  simp only [BpfInsn.decode, dstNibble, srcNibble, offsetBytes, immBytes, hop, hbytes 0, hbytes 1,
    hbytes 2, hbytes 3, hbytes 4, hbytes 5, hbytes 6]

/-- **Two words are twins**: they differ, but only in bits of the opcode byte that are not read. -/
def Twins (w₁ w₂ : BitVec 64) : Prop :=
  w₁ ≠ w₂ ∧ NamesRegs w₁ ∧ w₁ >>> 8 = w₂ >>> 8 ∧
    opcodeByte w₁ &&& readBits (opcodeByte w₁) = opcodeByte w₂ &&& readBits (opcodeByte w₂)

instance (w₁ w₂ : BitVec 64) : Decidable (Twins w₁ w₂) := inferInstanceAs (Decidable (_ ∧ _))

/-- **Decoding tells two words apart** unless they are twins. -/
theorem decode_inj_iff (w₁ w₂ : BitVec 64) :
    (∀ insn, BpfInsn.decode w₁ = some insn → BpfInsn.decode w₂ = some insn → w₁ = w₂) ↔
      ¬Twins w₁ w₂ := by
  constructor
  · rintro h ⟨hne, hregs, hrest, hop⟩
    obtain ⟨insn, hinsn⟩ := Option.isSome_iff_exists.mp ((BpfInsn.decode_isSome w₁).mpr hregs)
    have hdecode := decode_congr hrest (Opcode.decode_eq_iff.mpr hop)
    exact hne (h insn hinsn (hdecode ▸ hinsn))
  · intro h insn h₁ h₂
    by_contra hne
    have hregs : NamesRegs w₁ := (BpfInsn.decode_isSome w₁).mp (by rw [h₁]; rfl)
    have hop := (BpfInsn.opcode_of_decode h₁).symm.trans (BpfInsn.opcode_of_decode h₂)
    exact h ⟨hne, hregs, shift_eq_of_decode h₁ h₂, Opcode.decode_eq_iff.mp hop⟩

/-- A plain and an atomic store decode alike. -/
theorem not_decode_inj : ¬∀ (w₁ w₂ : BitVec 64) (insn : BpfInsn),
    BpfInsn.decode w₁ = some insn → BpfInsn.decode w₂ = some insn → w₁ = w₂ := by
  intro h
  have hstores : (0x7b : BitVec 64) = 0xdb :=
    h 0x7b 0xdb (.store .dw .r0 .r0 0) (by decide) (by decide)
  exact absurd hstores (by decide)

theorem readBits_and_readBits (raw : BitVec 8) :
    readBits (raw &&& readBits raw) = readBits raw := by
  revert raw
  decide +kernel

/-- The bits that are not read can be flipped. -/
theorem xor_not_readBits (raw : BitVec 8) :
    (raw ^^^ ~~~readBits raw) &&& readBits (raw ^^^ ~~~readBits raw) = raw &&& readBits raw := by
  revert raw
  decide +kernel

/-- A word is its opcode byte and the rest. -/
theorem eq_of_opcodeByte (hop : opcodeByte w₁ = opcodeByte w₂) (hrest : w₁ >>> 8 = w₂ >>> 8) :
    w₁ = w₂ := by
  apply BitVec.eq_of_getLsbD_eq
  intro j _
  by_cases hj : j < 8
  · have hbit := congrArg (fun z : BitVec 8 => z.getLsbD j) hop
    simpa only [getLsbD_opcodeByte, hj, decide_true, Bool.true_and] using hbit
  · have hbit := congrArg (fun z : BitVec 64 => z.getLsbD (j - 8)) hrest
    simpa only [BitVec.getLsbD_ushiftRight, show 8 + (j - 8) = j by omega] using hbit

/-- **A word has a twin** exactly when it is a load, a store or a JA. -/
theorem exists_twins_iff (hregs : NamesRegs w) :
    (∃ w', Twins w w') ↔ readBits (opcodeByte w) ≠ 0xff := by
  constructor
  · rintro ⟨w', hne, -, hrest, hop⟩ hall
    have hall' : readBits (opcodeByte w') = 0xff := by
      rw [← readBits_and_readBits, ← hop, hall, show (0xff : BitVec 8) = BitVec.allOnes 8 from rfl,
        BitVec.and_allOnes, hall]
      rfl
    rw [hall, hall', show (0xff : BitVec 8) = BitVec.allOnes 8 from rfl, BitVec.and_allOnes,
      BitVec.and_allOnes] at hop
    exact hne (eq_of_opcodeByte hop hrest)
  · intro hread
    let m := ~~~readBits (opcodeByte w)
    have hop : opcodeByte (w ^^^ m.setWidth 64) = opcodeByte w ^^^ m := by
      apply BitVec.eq_of_getLsbD_eq
      intro j hj
      simp only [BitVec.getLsbD_xor, getLsbD_opcodeByte, BitVec.getLsbD_setWidth, hj,
        show j < 64 by omega, decide_true, Bool.true_and]
    have hrest : (w ^^^ m.setWidth 64) >>> 8 = w >>> 8 := by
      apply BitVec.eq_of_getLsbD_eq
      intro j _
      simp
    refine ⟨w ^^^ m.setWidth 64, fun heq => hread ?_, hregs, hrest.symm, ?_⟩
    · have hm : opcodeByte w ^^^ m = opcodeByte w := hop.symm.trans (congrArg opcodeByte heq.symm)
      have hzero : m = 0 := (BitVec.xor_right_inj _).mp (hm.trans BitVec.xor_zero.symm)
      simpa [m] using congrArg (~~~·) hzero
    · rw [hop]
      exact (xor_not_readBits _).symm

end

end BpfVerifier
