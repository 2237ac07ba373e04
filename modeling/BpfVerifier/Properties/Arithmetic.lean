import BpfVerifier.Properties.Paths
import BpfVerifier.Soundness.Simulation

/-!
# Properties/Arithmetic — which divisions and shifts of an accepted programme are safe

The divisor and the amount are judged by their 64-bit bounds.  That excludes a zero divisor of a
64-bit operation and every oversized shift; the divisor of a 32-bit operation is excluded from being
zero only where no multiple of 2^32 is allowed (`Visit.divisorPrecise`).
-/

namespace BpfVerifier

open Loop

variable {p : Program} {L : Layout} {env : ℕ → Oracle} {s₀ s : MState} {n : ℕ} {insn : BpfInsn}
  {op : AluOp} {src : Source} {is64 : Bool}

/-! ## Divisors -/

/-- **The operand of a division or shift is a legal one.** -/
def LegalOperand (op : AluOp) (is64 : Bool) (y : BitVec 64) : Prop :=
  (op = .div ∨ op = .mod → if is64 then y ≠ 0 else y.setWidth 32 ≠ 0) ∧
    (op = .lsh ∨ op = .rsh ∨ op = .arsh → y.toNat < if is64 then 64 else 32)

/-- The bounds of the register, or a known bit, rule out that its low 32 bits are zero. -/
def lowNonzero (r : RegState) : Bool :=
  r.tnum.value.setWidth 32 ≠ 0 ||
    (r.umin.toNat % 2 ^ 32 ≠ 0 && r.umin.toNat / 2 ^ 32 = r.umax.toNat / 2 ^ 32)

/-- A 32-bit division or modulo by a register finds its low 32 bits known not to be zero. -/
def Visit.divisorPrecise (v : Visit) : Bool :=
  match v.insn.opcode with
  | .alu32 .div .reg | .alu32 .mod .reg => lowNonzero (v.state.get v.insn.src)
  | _ => true

theorem setWidth_ne_zero_of_lowNonzero {r : RegState} {x : BitVec 64} (h : r.Bounds x)
    (hlow : lowNonzero r = true) : x.setWidth 32 ≠ 0 := by
  intro hzero
  have hx : x.toNat % 2 ^ 32 = 0 := by
    rw [← BitVec.toNat_setWidth, hzero]
    rfl
  simp only [lowNonzero, Bool.or_eq_true, Bool.and_eq_true, decide_eq_true_eq] at hlow
  rcases hlow with hval | ⟨hmod, hdiv⟩
  · -- a bit of the known part that is set is set in the word
    refine hval (BitVec.eq_of_getLsbD_eq fun i hi => ?_)
    have hbit := congrArg (fun z : BitVec 32 => z.getLsbD i) hzero
    simp only [BitVec.getLsbD_setWidth, hi, decide_true, Bool.true_and, BitVec.ofNat_eq_ofNat,
      BitVec.getLsbD_zero] at hbit ⊢
    by_contra hset
    have hx := h.tnum.value_sub i (by simpa using hset)
    simp [hbit] at hx
  · have hlo := h.umin
    have hhi := h.umax
    have := Nat.div_add_mod x.toNat (2 ^ 32)
    have := Nat.div_add_mod r.umin.toNat (2 ^ 32)
    have := Nat.div_add_mod r.umax.toNat (2 ^ 32)
    omega

/-- A nonzero immediate is a legal divisor of either width. -/
theorem immOf_ne_zero (himm : insn.imm ≠ 0) :
    if is64 then insn.immOf is64 ≠ 0 else (insn.immOf is64).setWidth 32 ≠ 0 := by
  have hpos : insn.imm.toNat ≠ 0 := fun h => himm (BitVec.eq_of_toNat_eq h)
  have himmU := toNat_immU insn
  cases is64 with
  | true =>
    intro hzero
    have hle := toNat_immOf_le insn false
    rw [show insn.immS = 0 from hzero] at hle
    have hz : insn.immU.toNat ≤ 0 := hle
    omega
  | false =>
    intro hzero
    have hz := congrArg BitVec.toNat (show insn.immU.setWidth 32 = 0 from hzero)
    rw [BitVec.toNat_setWidth] at hz
    have hlt := insn.imm.isLt
    rw [himmU, Nat.mod_eq_of_lt hlt] at hz
    exact hpos hz

/-! ## Executed instructions -/

/-- **An accepted ALU instruction has passed its operand checks.** -/
theorem Accepts.operands {pc : ℕ} {state : VerifierState} {stack : StackState} {o : Outcome}
    (h : Accepts p pc insn state stack n o)
    (hop : insn.opcode = if is64 then .alu64 op src else .alu32 op src) :
    (op = .div ∨ op = .mod → divByZero state insn src = none) ∧
      (op = .lsh ∨ op = .rsh ∨ op = .arsh → shiftOverflow state insn src is64 = none) := by
  cases h with
  | @alu op' src' _ is64' hop' _ halu =>
    obtain ⟨rfl, rfl, rfl⟩ : is64 = is64' ∧ op = op' ∧ src = src' := by
      cases is64 <;> cases is64' <;> simp_all
    obtain ⟨r, hr, -⟩ := checkAlu_eq_ok halu
    cases hr with
    | mov hmov => simp [hmov]
    | neg hneg _ => simp [hneg]
    | binary _ _ hdiv hshift _ => exact ⟨hdiv, hshift⟩
  | jmp is32 hop' _ _ => cases is32 <;> cases is64 <;> simp [hop] at hop'
  | _ => cases is64 <;> simp_all

/-- **Every executed division and shift has a legal operand.** -/
theorem operand_legal (h : p.Accepted) (hp : p.Precise)
    (hdiv : ∀ v, p.Visits v → v.divisorPrecise = true) (h₀ : s₀.Entry L)
    (hmix : UnmixedUntil p L env s₀ n) (hrun : exec p L env s₀ n = some s) (hat : s.At p insn)
    (hop : insn.opcode = if is64 then .alu64 op src else .alu32 op src) :
    LegalOperand op is64 (s.operand insn src is64).bits := by
  obtain ⟨v, rfl, hv⟩ := h.explains hp h₀ hmix hrun hat
  obtain ⟨ρ, hd⟩ := hv.describes
  obtain ⟨hzero, hshift⟩ := hv.accepts.operands hop
  refine ⟨fun hdivmod => ?_, fun hsh => ?_⟩
  · have hnone := hzero hdivmod
    cases src with
    | imm =>
      have himm : v.insn.imm ≠ 0 := by simpa [divByZero] using hnone
      exact immOf_ne_zero himm
    | reg =>
      have hbounds := (hd.regs v.insn.src).allows (hv.visits.wf.regs v.insn.src)
      have humin : (v.state.get v.insn.src).umin ≠ 0 := by simpa [divByZero] using hnone
      cases is64 with
      | true =>
        intro hy
        have hlo := hbounds.umin
        rw [show (s.regs v.insn.src).bits = 0 from hy] at hlo
        exact humin (BitVec.eq_of_toNat_eq (Nat.le_zero.mp hlo))
      | false =>
        refine setWidth_ne_zero_of_lowNonzero hbounds ?_
        have hprecise := hdiv v hv.visits
        rcases hdivmod with rfl | rfl <;>
          simpa only [Visit.divisorPrecise, hop, Bool.false_eq_true, if_false] using hprecise
  · have hle := hd.shift_le hv.visits.wf (hshift hsh)
    cases is64 with
    | true => exact Nat.lt_succ_of_le hle
    | false => exact Nat.lt_succ_of_le hle

/-- A random number divided by three, in 32-bit arithmetic. -/
def divides : Program :=
  .ofInsns [.callHelper 7, .aluImm .mov .r1 3, .plain (.alu32 .div .reg) .r0 .r1 0 0, .ret]

theorem operand_legal_divides :
    ∃ s, exec divides .flat (fun _ => .quiet 0 false) (.fresh .flat) 2 = some s ∧
      LegalOperand .div false
        (s.operand (.plain (.alu32 .div .reg) .r0 .r1 0 0) .reg false).bits := by
  obtain ⟨s, hs, hpc⟩ := exists_exec divides (fun _ => .quiet 0 false) 2 (fun s => s.pc = 2)
    (by decide +kernel)
  have hat : s.At divides (.plain (.alu32 .div .reg) .r0 .r1 0 0) := by rw [MState.At, hpc]; rfl
  exact ⟨s, hs, operand_legal (by decide +kernel)
    (Program.precise_of_testAll (by decide +kernel))
    (Program.forall_visits (by decide +kernel)) (MState.entry_fresh _)
    (unmixedUntil_of_all (by decide)) hs hat rfl⟩

/-- A 32-bit division by 2^32, whose low half is zero. -/
def dividesByZero : Program :=
  .ofInsns [
    ⟨.ldImm64, .r1, .r0, 0, 0, some 0x100000000⟩, .aluImm .mov .r0 1,
    .plain (.alu32 .div .reg) .r0 .r1 0 0, .ret]

/-- `dividesByZero` is accepted. -/
theorem operand_illegal_of_accepted :
    ¬ ∀ (p : Program) (L : Layout) (env : ℕ → Oracle) (s₀ s : MState) (n : ℕ) (insn : BpfInsn)
      (op : AluOp) (src : Source) (is64 : Bool), p.Accepted → s₀.Entry L →
      exec p L env s₀ n = some s → s.At p insn →
      insn.opcode = (if is64 then .alu64 op src else .alu32 op src) →
      LegalOperand op is64 (s.operand insn src is64).bits := by
  intro hall
  obtain ⟨s, hs, hpc, hr1⟩ := exists_exec dividesByZero (fun _ => .quiet 0 false) 2
    (fun s => s.pc = 2 ∧ (s.regs .r1).bits = 0x100000000) (by decide +kernel)
  have hat : s.At dividesByZero (.plain (.alu32 .div .reg) .r0 .r1 0 0) := by
    rw [MState.At, hpc]
    rfl
  have hlegal := (hall dividesByZero .flat _ _ s 2 _ .div .reg false (by decide +kernel)
    (MState.entry_fresh _) hs hat rfl).1 (Or.inl rfl)
  refine hlegal ?_
  change ((s.regs .r1).bits).setWidth 32 = 0
  rw [hr1]
  decide

end BpfVerifier
