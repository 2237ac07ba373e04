import BpfVerifier.Analysis.BasicBlocks
import BpfVerifier.Analysis.Dataflow
import BpfVerifier.Analysis.StackBounds
import BpfVerifier.Cfg.Paths

/-!
# Properties/Targets — where the analyses think a jump leads

The verifier counts raw slots: `Program.target` takes an `LD_IMM64` for two.  `find_basic_blocks`,
the two Rust analyses and the F\* executor add the same offset to the index of the jump, where an
`LD_IMM64` is one entry.  They agree exactly on the jumps that no `LD_IMM64` is crossed by
(`targetsAgree_iff`).
-/

namespace BpfVerifier

open Fstar (BpfState)

/-! ## Raw positions and indices -/

/-- The `LD_IMM64`s among the instructions from `a` to before `b`. -/
def Program.loadsBetween (p : Program) (a b : ℕ) : ℕ :=
  ((p.instructions.take b).drop a).countP fun insn => insn.opcode = .ldImm64

theorem sum_slots (l : List BpfInsn) :
    (l.map slots).sum = l.length + l.countP fun insn => insn.opcode = .ldImm64 := by
  induction l with
  | nil => rfl
  | cons insn rest ih =>
    rw [List.map_cons, List.sum_cons, ih, List.length_cons, List.countP_cons]
    unfold slots
    by_cases h : insn.opcode = .ldImm64
    · simp only [h, if_true, decide_true]
      omega
    · simp only [h, if_false, decide_false, Bool.false_eq_true]
      omega

/-- **Raw positions are further apart than indices** by one for each `LD_IMM64` between. -/
theorem Program.rawStart_eq (p : Program) {a b : ℕ} (hab : a ≤ b) (hb : b ≤ p.instructions.length) :
    p.rawStart b = p.rawStart a + (b - a) + p.loadsBetween a b := by
  have hsplit : p.instructions.take b =
      p.instructions.take a ++ (p.instructions.take b).drop a := by
    have htake : (p.instructions.take b).take a = p.instructions.take a := by
      rw [List.take_take, Nat.min_eq_left hab]
    rw [← htake, List.take_append_drop]
  have hlength : ((p.instructions.take b).drop a).length = b - a := by
    rw [List.length_drop, List.length_take, Nat.min_eq_left hb]
  unfold rawStart loadsBetween
  rw [hsplit, List.map_append, List.sum_append, ← hsplit,
    sum_slots ((p.instructions.take b).drop a), hlength]
  omega

/-- **The index of a resolved jump is off by the `LD_IMM64`s it crosses.** -/
theorem Program.target_index {p : Program} {pc t : ℕ} {insn : BpfInsn}
    (hinsn : p.instructions[pc]? = some insn) (ht : p.target pc insn = some t) :
    (pc : Int) + 1 + insn.offset.toInt = t ↔ p.loadsBetween (min pc t) (max pc t) = 0 := by
  obtain ⟨hlt, hraw⟩ := Program.target_eq_some hinsn ht
  have hpc : pc < p.instructions.length := (List.getElem?_eq_some_iff.mp hinsn).1
  rcases Nat.le_total pc t with hle | hle
  · have hstart := p.rawStart_eq hle (Nat.le_of_lt hlt)
    rw [Nat.min_eq_left hle, Nat.max_eq_right hle]
    omega
  · have hstart := p.rawStart_eq hle (Nat.le_of_lt hpc)
    rw [Nat.min_eq_right hle, Nat.max_eq_left hle]
    omega

/-! ## The four indices -/

/-- The `usize` index is the `i32` one, when that is not negative. -/
theorem Dataflow.branchTarget_eq {pc t : ℕ} {offset : BitVec 16}
    (h : (StackBounds.branchTarget pc offset).toInt = t) : Dataflow.branchTarget pc offset = t := by
  have hdef : Dataflow.branchTarget pc offset =
      ((StackBounds.branchTarget pc offset).signExtend 64).toNat := rfl
  have hsign : ((StackBounds.branchTarget pc offset).signExtend 64).toInt = t := by
    rw [BitVec.toInt_signExtend_of_le (by decide), h]
  rw [hdef]
  rw [BitVec.toInt_eq_toNat_cond] at hsign
  split at hsign <;> omega

/-- A jump has a constructor, with its offset. -/
theorem exists_toFstar_of_jumps {insn : BpfInsn} (h : insn.jumps = true) :
    ∃ finsn, insn.toFstar = some finsn ∧ finsn.branchOffset = some insn.offset.toInt := by
  obtain ⟨finsn, hfinsn⟩ : ∃ finsn, insn.toFstar = some finsn := by
    unfold BpfInsn.jumps at h
    unfold BpfInsn.toFstar
    cases hop : insn.opcode with
    | jmpJa => exact ⟨_, rfl⟩
    | jmp64 op src => cases src <;> exact ⟨_, rfl⟩
    | jmp32 op src => cases src <;> exact ⟨_, rfl⟩
    | _ => simp [hop] at h
  exact ⟨finsn, hfinsn, by rw [branchOffset_of_toFstar hfinsn, if_pos h]⟩

/-- **Every analysis takes a jump at `pc` to lead to `t`.** -/
structure TargetsAgree (pc : ℕ) (insn : BpfInsn) (t : ℕ) : Prop where
  blocks : blockTarget pc insn.offset = t
  stackBounds : (StackBounds.branchTarget pc insn.offset).toInt = t
  dataflow : Dataflow.branchTarget pc insn.offset = t
  fstar : ∃ finsn off, insn.toFstar = some finsn ∧ finsn.branchOffset = some off ∧
    ∀ st : BpfState, st.pc = pc → st.takenPc off = t

/-- **The analyses agree with the verifier on a jump exactly when no `LD_IMM64` stands between the
jump and its target**, and the target's index is an `i32`. -/
theorem targetsAgree_iff {p : Program} {pc t : ℕ} {insn : BpfInsn}
    (hinsn : p.instructions[pc]? = some insn) (hjump : insn.jumps = true)
    (ht : p.target pc insn = some t) :
    TargetsAgree pc insn t ↔ p.loadsBetween (min pc t) (max pc t) = 0 ∧ t < 2 ^ 31 := by
  have hindex := Program.target_index hinsn ht
  constructor
  · intro h
    refine ⟨hindex.mp h.blocks, ?_⟩
    have hlt := (StackBounds.branchTarget pc insn.offset).toInt_lt
    rw [h.stackBounds] at hlt
    omega
  · rintro ⟨hloads, hlt⟩
    have heq := hindex.mpr hloads
    have hsb : (StackBounds.branchTarget pc insn.offset).toInt = t := by
      rw [StackBounds.toInt_branchTarget, heq]
      exact Int.bmod_eq_of_le (by omega) (by omega)
    obtain ⟨finsn, hfinsn, hoff⟩ := exists_toFstar_of_jumps hjump
    refine ⟨heq, hsb, Dataflow.branchTarget_eq hsb, finsn, _, hfinsn, hoff, fun st hst => ?_⟩
    rw [BpfState.takenPc, hst]
    exact heq

/-- `r1 = 1 ll; if r1 = 0 goto +1; r0 = 1; exit`: the jump stays behind the load. -/
def followsLoad : Program :=
  .ofInsns [.plain .ldImm64 .r1 .r0 0 1, .jmpImm .jeq .r1 0 1, .aluImm .mov .r0 1, .ret]

theorem targetsAgree_followsLoad : TargetsAgree 1 (.jmpImm .jeq .r1 0 1) 3 :=
  (targetsAgree_iff (p := followsLoad) rfl rfl (by decide +kernel)).mpr
    ⟨by decide +kernel, by decide⟩

/-- `r0 = 0; if r0 = 0 goto +2; r1 = 1 ll; r0 = 1; exit`: the verifier goes on at `r0 = 1`, the
others at the EXIT. -/
def skipsLoad : Program :=
  .ofInsns [.aluImm .mov .r0 0, .jmpImm .jeq .r0 0 2, .plain .ldImm64 .r1 .r0 0 1,
    .aluImm .mov .r0 1, .ret]

/-- **The analyses do not agree on every resolved jump.** -/
theorem not_targetsAgree : ¬∀ (p : Program) (pc t : ℕ) (insn : BpfInsn),
    p.instructions[pc]? = some insn → insn.jumps = true → p.target pc insn = some t →
      TargetsAgree pc insn t := by
  intro h
  have hagree : TargetsAgree 1 (.jmpImm .jeq .r0 0 2) 3 :=
    h skipsLoad 1 3 _ rfl rfl (by decide +kernel)
  have hblocks : blockTarget 1 (2 : BitVec 16) = 4 := by decide
  have hthree : blockTarget 1 (2 : BitVec 16) = (3 : ℕ) := hagree.blocks
  omega

end BpfVerifier
