import BpfVerifier.Fstar.Integers
import BpfVerifier.Fstar.Steps
import BpfVerifier.Machinery.Word

/-!
# Properties/Operations — what the executor's operations compute

`alu64` and `alu32` against the integer model of `BPF.Integers` (`meetsIntegers_iff`), their
arithmetic shifts against division (`arsh_exact`), and the immediate forms of the executor's
instructions against their register forms (`execInsn_forms_iff`).
-/

namespace BpfVerifier.Fstar

variable {op : AluOp} {d s : BitVec 64}

/-! ## The integer model -/

/-- `alu32` returns its dividend whole: a remainder by zero of what does not fit in 32 bits. -/
def KeepsHighHalf (op : AluOp) (d s : BitVec 64) : Prop :=
  op = .mod ∧ trunc64_32 s = 0 ∧ 2 ^ 32 ≤ d.toNat

/-- **An operation agrees with the integer model** on a pair of operands: both widths give what its
integer functions give, and the 32-bit result is below `2 ^ 32` and that of the low halves. -/
structure MeetsIntegers (op : AluOp) (d s : BitVec 64) : Prop where
  on64 : ∀ f, int64 op = some f → alu64 op d s = some (f d s)
  on32 : ∀ f, int32 op = some f →
    alu32 op d s = some (zext32_64 (f (trunc64_32 d) (trunc64_32 s)))
  below : ∃ n, alu32 op d s = some n ∧ n.toNat < 2 ^ 32
  low : alu32 op d s = alu32 op (zext32_64 (trunc64_32 d)) (zext32_64 (trunc64_32 s))

theorem alu64_eq_int64 {f : BitVec 64 → BitVec 64 → BitVec 64} (hf : int64 op = some f) :
    alu64 op d s = some (f d s) := by
  cases op with
  | div =>
    obtain rfl := Option.some.inj hf
    exact (apply_ite some (s = 0) 0 (d / s)).symm
  | mod =>
    obtain rfl := Option.some.inj hf
    exact (apply_ite some (s = 0) d (d % s)).symm
  | mov => cases hf
  | arsh => cases hf
  | _ =>
    obtain rfl := Option.some.inj hf
    rfl

/-- The remainder by zero is the dividend whole, at either width. -/
theorem alu32_mod_zero (hs : trunc64_32 s = 0) : alu32 .mod d s = some d := if_pos hs

/-- **A 32-bit result is zero-extended**, except for a remainder by zero. -/
theorem exists_zext_of_alu32 (h : ¬KeepsHighHalf op d s) :
    ∃ n, alu32 op d s = some (zext32_64 n) := by
  cases op with
  | div =>
    by_cases hs : trunc64_32 s = 0
    · exact ⟨0, if_pos hs⟩
    · exact ⟨_, if_neg hs⟩
  | mod =>
    by_cases hs : trunc64_32 s = 0
    · have hd : d.toNat < 2 ^ 32 := by
        by_contra hd
        exact h ⟨rfl, hs, Nat.le_of_not_lt hd⟩
      exact ⟨trunc64_32 d, by rw [alu32_mod_zero hs, zext32_64_trunc64_32.mpr hd]⟩
    · exact ⟨_, if_neg hs⟩
  | _ => exact ⟨_, rfl⟩

theorem alu32_eq_int32 (h : ¬KeepsHighHalf op d s) {f : BitVec 32 → BitVec 32 → BitVec 32}
    (hf : int32 op = some f) :
    alu32 op d s = some (zext32_64 (f (trunc64_32 d) (trunc64_32 s))) := by
  cases op with
  | div =>
    obtain rfl := Option.some.inj hf
    by_cases hs : trunc64_32 s = 0
    · rw [div32, if_pos hs]
      exact if_pos hs
    · rw [div32, if_neg hs]
      exact if_neg hs
  | mod =>
    obtain rfl := Option.some.inj hf
    by_cases hs : trunc64_32 s = 0
    · have hd : d.toNat < 2 ^ 32 := by
        by_contra hd
        exact h ⟨rfl, hs, Nat.le_of_not_lt hd⟩
      rw [mod32, if_pos hs, alu32_mod_zero hs, zext32_64_trunc64_32.mpr hd]
    · rw [mod32, if_neg hs]
      exact if_neg hs
  | mov => cases hf
  | arsh => cases hf
  | _ =>
    obtain rfl := Option.some.inj hf
    rfl

/-- A 32-bit operation other than a remainder by zero does not look at the high halves. -/
theorem alu32_low (h : ¬KeepsHighHalf op d s) :
    alu32 op d s = alu32 op (zext32_64 (trunc64_32 d)) (zext32_64 (trunc64_32 s)) := by
  have hd : (zext32_64 (trunc64_32 d)).setWidth 32 = d.setWidth 32 := trunc64_32_zext32_64 _
  have hs : (zext32_64 (trunc64_32 s)).setWidth 32 = s.setWidth 32 := trunc64_32_zext32_64 _
  by_cases hmod : op = .mod ∧ trunc64_32 s = 0
  · obtain ⟨rfl, hzero⟩ := hmod
    have hlow : d.toNat < 2 ^ 32 := by
      by_contra hlow
      exact h ⟨rfl, hzero, Nat.le_of_not_lt hlow⟩
    rw [alu32_mod_zero hzero, alu32_mod_zero (by rw [trunc64_32_zext32_64, hzero]),
      zext32_64_trunc64_32.mpr hlow]
  · cases op with
    | mod =>
      have hzero : ¬s.setWidth 32 = 0 := fun hzero => hmod ⟨rfl, hzero⟩
      simp only [alu32, hd, hs, if_neg hzero]
    | _ => simp only [alu32, hd, hs]

/-- **The executor's ALU agrees with the integer model** except for the 32-bit remainder by zero,
which it does not truncate. -/
theorem meetsIntegers_iff : MeetsIntegers op d s ↔ ¬KeepsHighHalf op d s := by
  constructor
  · rintro ⟨-, -, ⟨n, hn, hlt⟩, -⟩ ⟨rfl, hs, hd⟩
    rw [alu32_mod_zero hs] at hn
    obtain rfl := Option.some.inj hn
    exact absurd hlt (Nat.not_lt_of_le hd)
  · intro h
    obtain ⟨n, hn⟩ := exists_zext_of_alu32 h
    exact ⟨fun f hf => alu64_eq_int64 hf, fun f hf => alu32_eq_int32 h hf,
      ⟨_, hn, zext32_64_lt n⟩, alu32_low h⟩

/-- **A 32-bit remainder by zero leaves the high half** of its dividend in the result. -/
theorem not_meetsIntegers : ¬∀ op d s, MeetsIntegers op d s := by
  intro h
  obtain ⟨n, hn, hlt⟩ := (h .mod (2 ^ 32) 0).below
  obtain rfl : 2 ^ 32 = n := Option.some.inj hn
  exact absurd hlt (by decide)

/-! ## Arithmetic shifts -/

theorem msb_iff {w : ℕ} {x : BitVec w} : x.msb = true ↔ 2 ^ (w - 1) ≤ x.toNat := by
  rw [BitVec.msb_eq_decide, decide_eq_true_eq]

theorem signed_toNat {w : ℕ} (hw : 0 < w) (x : BitVec w) : signed w x.toNat = x.toInt := by
  have hpow : 2 ^ w = 2 * 2 ^ (w - 1) := by
    rw [← Nat.pow_succ', Nat.succ_eq_add_one, Nat.sub_add_cancel hw]
  have hcast : ((2 : ℤ) ^ w) = ((2 ^ w : ℕ) : ℤ) := by norm_cast
  rw [signed, BitVec.toInt_eq_toNat_cond, hcast]
  split <;> split <;> omega

/-- An arithmetic shift as both executors write it: a logical one, filled where the sign was set. -/
theorem arsh_eq {w : ℕ} {k : ℕ} {x : BitVec w} :
    (if x.toNat ≥ 2 ^ (w - 1) ∧ k > 0 then x >>> k ||| (0 - (1 : BitVec w) <<< (w - k))
      else x >>> k) = x.sshiftRight k := by
  split
  · next h => exact Word.ushiftRight_or_fill (msb_iff.mpr h.1)
  · next h =>
    rcases Nat.eq_zero_or_pos k with rfl | hk
    · simp
    · have hmsb : x.msb = false := by
        rw [← Bool.not_eq_true, msb_iff]
        exact fun hle => h ⟨hle, hk⟩
      rw [BitVec.sshiftRight_eq_of_msb_false hmsb]

/-- **Arithmetic shifts are exact**: the two's-complement reading divided by the power of two,
rounded down, on 64 bits and on the low 32. -/
theorem arsh_exact (d s : BitVec 64) :
    (alu64 .arsh d s).map (fun n => (n.toNat : ℤ)) =
        some ((signed 64 d.toNat).fdiv (2 ^ (s.toNat % 64)) % 2 ^ 64) ∧
      (alu32 .arsh d s).map (fun n => (n.toNat : ℤ)) =
        some ((signed 32 (d.toNat % 2 ^ 32)).fdiv (2 ^ (s.toNat % 32)) % 2 ^ 32) := by
  constructor
  · have halu : alu64 .arsh d s = some (d.sshiftRight (s.toNat % 64)) := by
      rw [← arsh_eq, apply_ite some]
      rfl
    rw [halu, Option.map_some, Word.toNat_sshiftRight, signed_toNat (by decide)]
  · have halu : alu32 .arsh d s =
        some (zext32_64 ((trunc64_32 d).sshiftRight ((trunc64_32 s).toNat % 32))) := by
      rw [← arsh_eq]
      rfl
    have hamount : (trunc64_32 s).toNat % 32 = s.toNat % 32 := by
      rw [toNat_trunc64_32]
      omega
    rw [halu, Option.map_some, toNat_zext32_64, Word.toNat_sshiftRight, hamount, ← toNat_trunc64_32,
      signed_toNat (by decide)]

/-! ## Immediate and register forms -/

/-- **The two forms of an operation**: with an immediate, and with a register. -/
inductive Forms (dst src : Reg) (imm : BitVec 32) : Insn → Insn → Prop
  | alu64 (op : AluOp) : Forms dst src imm (.alu64Imm op dst imm) (.alu64Reg op dst src)
  | alu32 (op : AluOp) : Forms dst src imm (.alu32Imm op dst imm) (.alu32Reg op dst src)
  | jmp64 (op : JmpOp) (offset : Int) :
      Forms dst src imm (.jmp64Imm op dst imm offset) (.jmp64Reg op dst src offset)
  | jmp32 (op : JmpOp) (offset : Int) :
      Forms dst src imm (.jmp32Imm op dst imm offset) (.jmp32Reg op dst src offset)

/-- A 64-bit JEQ or JNE that takes "not zero" for "equal to the immediate", to another place than
the next instruction: the immediate is not zero, and the number compared with it is neither. -/
def Insn.Misjudges (d : BitVec 64) : Insn → Prop
  | .jmp64Imm op _ imm offset =>
    (op = .jeq ∨ op = .jne) ∧ signExtendImm imm ≠ 0 ∧ d ≠ 0 ∧ d ≠ signExtendImm imm ∧ offset ≠ 0
  | _ => False

section

variable {st : BpfState} {dst src : Reg} {imm : BitVec 32} {insn rinsn : Insn}

/-- Two jumps by one offset differ when their conditions do, unless it leads to the next
instruction. -/
theorem branch_eq_iff {cond cond' : Bool} {offset : Int} :
    st.branch cond offset = st.branch cond' offset ↔ cond = cond' ∨ offset = 0 := by
  have hpc : st.branch cond offset = st.branch cond' offset ↔
      (st.branch cond offset).pc = (st.branch cond' offset).pc := by
    constructor
    · exact congrArg BpfState.pc
    · intro h
      rw [BpfState.branch, BpfState.jump_pc, BpfState.branch, BpfState.jump_pc] at h
      rw [BpfState.branch, h, BpfState.branch]
  rw [hpc, BpfState.branch, BpfState.branch, BpfState.jump_pc, BpfState.jump_pc, BpfState.takenPc]
  cases cond <;> cases cond' <;> simp

/-- The test for zero that JEQ with an immediate makes is the comparison where the immediate is zero
or the number is zero or the immediate. -/
theorem zeroTest_iff {n : BitVec 64} :
    (if n.toNat = 0 then decide (d = 0) else !decide (d = 0)) = decide (d = n) ↔
      n = 0 ∨ d = 0 ∨ d = n := by
  have hzero : n.toNat = 0 ↔ n = 0 := BitVec.toNat_inj (y := 0)
  by_cases hn : n = 0
  · rw [if_pos (hzero.mpr hn), hn]
    exact iff_of_true rfl (Or.inl rfl)
  · have hboth : d = 0 → d ≠ n := by
      rintro rfl heq
      exact hn heq.symm
    rw [if_neg fun h => hn (hzero.mp h), ← decide_not, decide_eq_decide]
    tauto

theorem evalJmp64_jeq {n : BitVec 64} : evalJmp64 .jeq d n = decide (d = n) :=
  decide_eq_decide.mpr BitVec.toNat_inj

theorem evalJmp64_jne {n : BitVec 64} : evalJmp64 .jne d n = !decide (d = n) := by
  rw [← evalJmp64_jeq]
  exact decide_not

/-- A 64-bit jump with an immediate decides what the comparison says, unless it is one of the tests
for zero. -/
theorem condition_jmp64Imm (op : JmpOp) (imm : BitVec 32) (offset : Int)
    (hd : st.regs dst = .scalar d) :
    ∃ cond, (Insn.jmp64Imm op dst imm offset).condition st = some (cond, offset) ∧
      (cond = evalJmp64 op d (signExtendImm imm) ↔
        ¬((op = .jeq ∨ op = .jne) ∧ signExtendImm imm ≠ 0 ∧ d ≠ 0 ∧ d ≠ signExtendImm imm)) := by
  by_cases hjeq : op = .jeq
  · subst hjeq
    refine ⟨if (signExtendImm imm).toNat = 0 then decide (d = 0) else !decide (d = 0), ?_, ?_⟩
    · simp only [Insn.condition, hd, regValIsZero, if_true, Option.map_some]
    · rw [evalJmp64_jeq, zeroTest_iff]
      tauto
  · by_cases hjne : op = .jne
    · subst hjne
      refine ⟨!(if (signExtendImm imm).toNat = 0 then decide (d = 0) else !decide (d = 0)), ?_, ?_⟩
      · simp only [Insn.condition, hd, regValIsZero, if_true, if_neg hjeq, Option.map_some,
          apply_ite not, Bool.not_not]
      · rw [evalJmp64_jne, Bool.not_inj_iff, zeroTest_iff]
        tauto
    · refine ⟨evalJmp64 op d (signExtendImm imm), ?_, ?_⟩
      · simp only [Insn.condition, hd, if_neg hjeq, if_neg hjne, scalarVal, Option.map_some]
      · tauto

/-- MOV of a 32-bit immediate and of the register that holds it. -/
theorem setWidth_signExtendImm :
    ((signExtendImm imm).setWidth 32).setWidth 64 = imm.setWidth 64 := by
  have himm : (signExtendImm imm).setWidth 32 = imm := by
    apply BitVec.eq_of_getLsbD_eq
    intro i hi
    simp [signExtendImm, BitVec.getLsbD_signExtend, hi]
    omega
  rw [himm]

/-- **The immediate and the register form of an instruction do the same**, when the register holds
the immediate, except where a 64-bit JEQ or JNE misjudges its number. -/
theorem execInsn_forms_iff (hd : st.regs dst = .scalar d)
    (hs : st.regs src = .scalar (signExtendImm imm)) (h : Forms dst src imm insn rinsn) :
    execInsn st insn = execInsn st rinsn ↔ ¬insn.Misjudges d := by
  cases h with
  | alu64 op =>
    refine iff_of_true ?_ id
    by_cases hop : op = .mov
    · subst hop
      simp only [execInsn, execAlu64Imm, execAlu64Reg, hs]
    · rw [execInsn, execInsn, execAlu64Imm_eq hop hd, execAlu64Reg_eq hop hd hs]
  | alu32 op =>
    refine iff_of_true ?_ id
    by_cases hop : op = .mov
    · subst hop
      rw [execInsn, execInsn, execAlu32Reg_mov hs, execAlu32Imm, alu32, BpfState.setNumber,
        Option.map_some, setWidth_signExtendImm]
    · rw [execInsn, execInsn, execAlu32Imm_eq hop hd, execAlu32Reg_eq hop hd hs]
  | jmp64 op offset =>
    obtain ⟨cond, hcond, hiff⟩ := condition_jmp64Imm op imm offset hd
    have hreg : (Insn.jmp64Reg op dst src offset).condition st =
        some (evalJmp64 op d (signExtendImm imm), offset) := by
      simp only [Insn.condition, hd, hs, regValForJmp]
    rw [execInsn_branch rfl rfl, execInsn_branch rfl rfl, hcond, hreg, Option.map_some,
      Option.map_some, Option.some.injEq, branch_eq_iff, hiff, Insn.Misjudges]
    -- a jump to the next instruction is not misjudged, any other just when its condition is
    by_cases hnext : offset = 0
    · simp [hnext]
    · simp [hnext]
  | jmp32 op offset =>
    refine iff_of_true ?_ id
    simp only [execInsn, execJmp32Imm, execJmp32Reg, hd, hs, scalarVal]

end

/-- A state with one number in r1 and one in r2. -/
def holding (n m : BitVec 64) : BpfState :=
  (BpfState.blank.setReg .r1 (.scalar n)).setReg .r2 (.scalar m)

theorem execInsn_forms_jsgt :
    execInsn (holding 7 5) (.jmp64Imm .jsgt .r1 5 3) =
      execInsn (holding 7 5) (.jmp64Reg .jsgt .r1 .r2 3) := by
  refine (execInsn_forms_iff (d := 7) rfl rfl (.jmp64 .jsgt 3)).mpr ?_
  rintro ⟨h | h, -⟩ <;> cases h

/-- `if r1 = 2 goto +1` jumps with 1 in r1, where the comparison with a register that holds 2 does
not. -/
theorem not_execInsn_forms :
    ¬∀ (st : BpfState) (dst src : Reg) (imm : BitVec 32) (d : BitVec 64) (insn rinsn : Insn),
      st.regs dst = .scalar d → st.regs src = .scalar (signExtendImm imm) → src ≠ dst →
      Forms dst src imm insn rinsn → execInsn st insn = execInsn st rinsn := by
  intro h
  have heq := h (holding 1 2) .r1 .r2 2 1 _ _ rfl rfl (by decide) (.jmp64 .jeq 1)
  have hpc := congrArg (Option.map BpfState.pc) heq
  revert hpc
  decide

end BpfVerifier.Fstar
