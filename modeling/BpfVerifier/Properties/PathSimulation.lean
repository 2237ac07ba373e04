import BpfVerifier.Analysis.PathRelation
import BpfVerifier.Analysis.StackTransfer
import BpfVerifier.Properties.NullPaths
import BpfVerifier.Properties.Targets

/-!
# Properties/PathSimulation — the abstract executor beside the F\* one

A step keeps `Simulates` when the branch is decided and the abstract executor reads the instruction
as F\* does (`Faithful`); so a run all of whose steps are of this kind is followed to the end
(`simulates_after`).
-/

namespace BpfVerifier.Dataflow

open Fstar (BpfProgram BpfState PathSchedule Insn PathEffect pathInterp)

/-! ## One step -/

section

variable {state : PathState} {c c' : BpfState × PathSchedule} {insn : BpfInsn} {finsn : Insn}

theorem pc_succ_of_pathEffect (hexit : finsn ≠ .exit) (hoff : finsn.branchOffset = none)
    (heffect : PathEffect c.1 c.2 finsn c'.1 c'.2) : c'.1.pc = c.1.pc + 1 := by
  rw [(Fstar.goes_of_pathEffect hexit heffect).1, Insn.goesTo,
    Fstar.taken_of_branchOffset_none hoff]

/-- The abstract target of a jump is the F\* one, when that is an index. -/
theorem branchTarget_of_lands (h : Lands state insn) :
    (branchTarget state.pc insn.offset : Int) = state.pc + 1 + insn.offset.toInt := by
  obtain ⟨hlo, hhi⟩ := h
  obtain ⟨t, ht⟩ := Int.eq_ofNat_of_zero_le hlo
  rw [ht] at hhi ⊢
  have hsb : (StackBounds.branchTarget state.pc insn.offset).toInt = t := by
    rw [StackBounds.toInt_branchTarget, ht]
    exact Int.bmod_eq_of_le (by omega) (by omega)
  rw [branchTarget_eq hsb]

/-- An operation on numbers that the abstract executor does not follow. -/
theorem Simulates.forgets (h : Simulates state c) {dst : Reg} (hdst : finsn.writes = some dst)
    (hexit : finsn ≠ .exit) (hoff : finsn.branchOffset = none) (hcall : finsn.isCall = false)
    (heffect : PathEffect c.1 c.2 finsn c'.1 c'.2) :
    Simulates ((state.set dst .symbolic).goto (state.pc + 1)) c' := by
  obtain ⟨hsched, hexec⟩ := schedule_of_pathEffect hcall heffect
  obtain ⟨x, hx⟩ := regs_of_writes hdst (Fstar.effect_of_execInsn hcall hexec)
  exact h.write (x := x) trivial hx (pc_succ_of_pathEffect hexit hoff heffect) hsched

theorem simulates_alu64 {op : AluOp} {src : Source} (hop : insn.opcode = .alu64 op src)
    (hto : insn.toFstar = some finsn) (heffect : PathEffect c.1 c.2 finsn c'.1 c'.2)
    (h : Simulates state c) (hfaithful : Faithful state insn) :
    Simulates (transferWithBranches state insn) c' := by
  unfold Faithful at hfaithful
  unfold transferWithBranches transferAbstract
  cases src with
  | reg =>
    simp only [BpfInsn.toFstar, hop, Option.some.injEq] at hto
    subst hto
    have hpc := pc_succ_of_pathEffect (by simp) rfl heffect
    obtain ⟨hsched, hexec⟩ := schedule_of_pathEffect rfl heffect
    by_cases hmov : op = .mov
    · subst hmov
      simp only [hop]
      refine h.write (h.regs insn.src) ?_ hpc hsched
      rw [← Option.some.inj hexec]
      rfl
    · have hforgets := h.forgets rfl (by simp) rfl rfl heffect
      cases op <;> simp only [hop] <;> first | exact absurd rfl hmov | exact hforgets
  | imm =>
    simp only [BpfInsn.toFstar, hop, Option.some.injEq] at hto
    subst hto
    have hpc := pc_succ_of_pathEffect (by simp) rfl heffect
    obtain ⟨hsched, hexec⟩ := schedule_of_pathEffect rfl heffect
    have hforgets := h.forgets rfl (by simp) rfl rfl heffect
    cases op with
    | mov =>
      simp only [hop]
      refine h.write (v := .concrete insn.immS) rfl ?_ hpc hsched
      rw [← Option.some.inj hexec]
      rfl
    | add =>
      simp only [hop] at hfaithful ⊢
      have hdelta : insn.immS.toInt = insn.imm.toInt := StackBounds.toInt_immS insn
      obtain ⟨x, hx, hregs⟩ := describes_moved insn.immS (h.regs insn.dst)
        (Or.inl ⟨rfl, rfl⟩) (by rwa [hdelta]) hexec (by rw [hdelta]; rfl)
      have hwrite := h.write hx hregs hpc hsched
      cases hv : state.regs insn.dst <;> rw [hv] at hwrite <;> exact hwrite
    | sub =>
      simp only [hop] at hfaithful ⊢
      have hdelta : (-insn.immS).toInt = -insn.imm.toInt := StackBounds.toInt_neg_immS insn
      obtain ⟨x, hx, hregs⟩ := describes_moved (-insn.immS) (h.regs insn.dst)
        (Or.inr ⟨rfl, rfl⟩) (by rwa [hdelta]) hexec (by rw [hdelta]; rfl)
      have hwrite := h.write hx hregs hpc hsched
      cases hv : state.regs insn.dst <;> rw [hv] at hwrite <;>
        simp only [moved, ← BitVec.sub_eq_add_neg] at hwrite <;> exact hwrite
    | _ =>
      simp only [hop]
      exact hforgets

theorem simulates_alu32 {op : AluOp} {src : Source} (hop : insn.opcode = .alu32 op src)
    (hto : insn.toFstar = some finsn) (heffect : PathEffect c.1 c.2 finsn c'.1 c'.2)
    (h : Simulates state c) (hfaithful : Faithful state insn) :
    Simulates (transferWithBranches state insn) c' := by
  unfold Faithful at hfaithful
  unfold transferWithBranches transferAbstract
  cases src with
  | reg =>
    simp only [BpfInsn.toFstar, hop, Option.some.injEq] at hto
    subst hto
    have hforgets := h.forgets rfl (by simp) rfl rfl heffect
    cases op <;> simp only [hop] <;> exact hforgets
  | imm =>
    simp only [BpfInsn.toFstar, hop, Option.some.injEq] at hto
    subst hto
    have hpc := pc_succ_of_pathEffect (by simp) rfl heffect
    obtain ⟨hsched, hexec⟩ := schedule_of_pathEffect rfl heffect
    have hforgets := h.forgets rfl (by simp) rfl rfl heffect
    cases op with
    | mov =>
      simp only [hop] at hfaithful ⊢
      refine h.write (v := .concrete insn.immS) rfl ?_ hpc hsched
      -- F* zero-extends the immediate
      have hzero : insn.immS = insn.imm.setWidth 64 :=
        BitVec.signExtend_eq_setWidth_of_msb_false hfaithful
      rw [← Option.some.inj hexec, hzero]
      rfl
    | _ =>
      simp only [hop]
      exact hforgets

/-- A conditional jump, decided. -/
theorem transfer_of_decided {taken : Bool} (hres : resolveBranch state insn = some taken) :
    transferWithBranches state insn =
      state.goto (if taken then branchTarget state.pc insn.offset else state.pc + 1) := by
  have hcond : (∃ op src, insn.opcode = .jmp64 op src) ∨ ∃ op src, insn.opcode = .jmp32 op src := by
    unfold resolveBranch at hres
    cases hop : insn.opcode <;> simp_all
  unfold transferWithBranches
  rcases hcond with ⟨op, src, hop⟩ | ⟨op, src, hop⟩ <;>
    simp only [hop, hres] <;> cases taken <;> rfl

theorem lands_of_faithful (hfaithful : Faithful state insn)
    (hres : resolveBranch state insn = some true) : Lands state insn := by
  unfold Faithful at hfaithful
  have hunresolved := hres
  unfold resolveBranch at hunresolved
  cases hop : insn.opcode with
  | jmp64 op src =>
    cases src <;> simp only [hop] at hfaithful
    · exact hfaithful.2 hres
    · exact hfaithful hres
  | jmp32 op src => cases src <;> simp only [hop] at hfaithful <;> exact hfaithful.2 hres
  | _ => simp [hop] at hunresolved

/-- Where a conditional jump of F\* goes. -/
theorem branch_of_pathEffect (hjump : insn.jumps = true) (hto : insn.toFstar = some finsn)
    (hja : finsn.isJa = false) (heffect : PathEffect c.1 c.2 finsn c'.1 c'.2) :
    ∃ cond, finsn.condition c.1 = some (cond, insn.offset.toInt) ∧ c'.2 = c.2 ∧
      c'.1 = c.1.branch cond insn.offset.toInt := by
  have hoff : finsn.branchOffset = some insn.offset.toInt := by
    rw [branchOffset_of_toFstar hto, if_pos hjump]
  have hcall : finsn.isCall = false := by
    cases finsn <;> first | rfl | cases hoff
  obtain ⟨hsched, hexec⟩ := schedule_of_pathEffect hcall heffect
  rw [Fstar.execInsn_branch hoff hja] at hexec
  obtain ⟨⟨cond, off⟩, hcond, hst⟩ := Option.map_eq_some_iff.mp hexec
  obtain rfl := Option.some.inj ((Fstar.condition_offset hcond).1.symm.trans hoff)
  exact ⟨cond, hcond, hsched, hst.symm⟩

/-- **A decided branch leads where the run goes.** -/
theorem simulates_branch (hjump : insn.jumps = true) (hto : insn.toFstar = some finsn)
    (hja : finsn.isJa = false) (heffect : PathEffect c.1 c.2 finsn c'.1 c'.2)
    (h : Simulates state c) {taken : Bool} (hres : resolveBranch state insn = some taken)
    (hfaithful : Faithful state insn) : Simulates (transferWithBranches state insn) c' := by
  obtain ⟨cond, hcond, hsched, hst⟩ := branch_of_pathEffect hjump hto hja heffect
  obtain rfl := decided_condition hto h.regs hfaithful hres hcond
  rw [transfer_of_decided hres]
  refine h.keep (by rw [hst]; rfl) ?_ hsched
  rw [hst]
  cases taken with
  | true =>
    rw [if_pos rfl, branchTarget_of_lands (lands_of_faithful hfaithful hres), ← h.pc]
    rfl
  | false => exact congrArg (· + 1) h.pc

/-- A store changes no register on either side. -/
theorem Simulates.stores (h : Simulates state c) (hstore : finsn.isStore = true)
    (heffect : PathEffect c.1 c.2 finsn c'.1 c'.2) (insn : BpfInsn) (width : MemWidth)
    (value : Option (BitVec 64)) :
    Simulates ((recordWrite state insn width value).goto
      ((recordWrite state insn width value).pc + 1)) c' := by
  have hoff : finsn.branchOffset = none := by
    cases finsn <;> first | rfl | cases hstore
  have hexit : finsn ≠ .exit := by
    rintro rfl
    cases hstore
  have hcall : finsn.isCall = false := by
    cases finsn <;> first | rfl | cases hstore
  obtain ⟨hsched, hexec⟩ := schedule_of_pathEffect hcall heffect
  refine (h.record insn width value).keep ?_ ?_ hsched
  · exact regs_of_store hstore (Fstar.effect_of_execInsn hcall hexec)
  · rw [pc_succ_of_pathEffect hexit hoff heffect, h.pc, pc_recordWrite]
    rfl

/-- **The step lemma**: a decided instruction that both executors read alike keeps the relation. -/
theorem simulates_step (hto : insn.toFstar = some finsn) (hopcode : insn.opcode ≠ .exit)
    (heffect : PathEffect c.1 c.2 finsn c'.1 c'.2) (h : Simulates state c)
    (hdecided : Decided state insn) (hfaithful : Faithful state insn) :
    Simulates (transferWithBranches state insn) c' := by
  cases hop : insn.opcode with
  | alu64 op src => exact simulates_alu64 hop hto heffect h hfaithful
  | alu32 op src => exact simulates_alu32 hop hto heffect h hfaithful
  | ldx width =>
    simp only [BpfInsn.toFstar, hop, Option.some.injEq] at hto
    subst hto
    have hforgets := h.forgets rfl (by simp) rfl rfl heffect
    unfold transferWithBranches transferAbstract
    simp only [hop]
    exact hforgets
  | ldImm64 =>
    simp only [BpfInsn.toFstar, hop, Option.some.injEq] at hto
    subst hto
    obtain ⟨hsched, hexec⟩ := schedule_of_pathEffect rfl heffect
    unfold transferWithBranches transferAbstract
    simp only [hop]
    refine h.write (v := .concrete insn.ldValue) rfl ?_
      (pc_succ_of_pathEffect (by simp) rfl heffect) hsched
    rw [← Option.some.inj hexec]
    rfl
  | stx width =>
    simp only [BpfInsn.toFstar, hop, Option.some.injEq] at hto
    subst hto
    unfold transferWithBranches transferAbstract
    simp only [hop]
    exact h.stores rfl heffect insn width _
  | st width =>
    simp only [BpfInsn.toFstar, hop, Option.some.injEq] at hto
    subst hto
    unfold transferWithBranches transferAbstract
    simp only [hop]
    exact h.stores rfl heffect insn width _
  | jmp64 op src =>
    obtain ⟨taken, hres⟩ : ∃ taken, resolveBranch state insn = some taken := by
      simpa [Decided, hop, Option.isSome_iff_exists] using hdecided
    refine simulates_branch (by simp [BpfInsn.jumps, hop]) hto ?_ heffect h hres hfaithful
    cases src <;> simp only [BpfInsn.toFstar, hop, Option.some.injEq] at hto <;> subst hto <;> rfl
  | jmp32 op src =>
    obtain ⟨taken, hres⟩ : ∃ taken, resolveBranch state insn = some taken := by
      simpa [Decided, hop, Option.isSome_iff_exists] using hdecided
    refine simulates_branch (by simp [BpfInsn.jumps, hop]) hto ?_ heffect h hres hfaithful
    cases src <;> simp only [BpfInsn.toFstar, hop, Option.some.injEq] at hto <;> subst hto <;> rfl
  | jmpJa =>
    simp only [BpfInsn.toFstar, hop, Option.some.injEq] at hto
    subst hto
    obtain ⟨hsched, hexec⟩ := schedule_of_pathEffect rfl heffect
    have hlands : Lands state insn := by
      simpa only [Faithful, hop] using hfaithful
    unfold transferWithBranches
    simp only [hop]
    obtain hst : c.1.jump (c.1.takenPc insn.offset.toInt) = c'.1 := Option.some.inj hexec
    refine h.keep (by rw [← hst]; rfl) ?_ hsched
    rw [branchTarget_of_lands hlands, ← h.pc, ← hst]
    rfl
  | call =>
    simp only [BpfInsn.toFstar, hop] at hto
    obtain ⟨hid, hhelper, rfl⟩ := Option.map_eq_some_iff.mp hto
    obtain ⟨hregs, hsched⟩ := tracks_call h hhelper heffect
    unfold transferWithBranches
    simp only [hop]
    refine ⟨?_, hregs, hsched⟩
    rw [pc_succ_of_pathEffect (by simp) rfl heffect, h.pc]
    rfl
  | exit => exact absurd hop hopcode
  | unknown raw => simp [BpfInsn.toFstar, hop] at hto

end

/-! ## Runs -/

/-- Each of the first `k` steps of the abstract path is decided, and read as F\* reads it. -/
def FaithfulFor (instructions : List BpfInsn) (schedule : List PathChoice) (k : ℕ) : Prop :=
  ∀ j < k, ∀ state insn, (interp instructions).after j (start schedule) = some state →
    instructions[state.pc]? = some insn → Decided state insn ∧ Faithful state insn

/-- The abstract executor starts where a run starts. -/
theorem simulates_start (init : BpfState) (schedule : List PathChoice) :
    Simulates (start schedule) (init.entry, schedule.map PathChoice.toFstar) where
  pc := rfl
  regs r := by
    cases r <;> trivial
  schedule := rfl

/-- **The abstract executor of the path enumerator is sound** over every run whose steps are decided
and faithful: after as many steps it is where the run is, its registers are true of the run's, and a
faithful branch that it decides goes the way of the run. -/
theorem simulates_after {instructions : List BpfInsn} {prog : BpfProgram}
    (hemit : emit instructions = some prog) (init : BpfState) (schedule : List PathChoice) {k : ℕ}
    (hfaithful : FaithfulFor instructions schedule k) {c : BpfState × PathSchedule}
    (hc : (pathInterp prog).after k (init.entry, schedule.map PathChoice.toFstar) = some c) :
    ∃ state, (interp instructions).after k (start schedule) = some state ∧ Simulates state c ∧
      ∀ insn taken c', instructions[state.pc]? = some insn →
        resolveBranch state insn = some taken → Faithful state insn →
        (pathInterp prog).next c = some c' →
        c'.1.pc = if taken then state.pc + 1 + insn.offset.toInt else state.pc + 1 := by
  have hsim : ∃ state, (interp instructions).after k (start schedule) = some state ∧
      Simulates state c := by
    refine Interp.after_sim (R := fun _ (c : BpfState × PathSchedule) state => Simulates state c)
      (simulates_start init schedule) ?_ (Nat.le_refl k) hc
    intro j c c' state hj _ hnext hstate h
    obtain ⟨insn, finsn, hget, hto, hopcode, -, heffect, hstep⟩ :=
      exists_insn_of_next hemit h.pc hnext
    obtain ⟨hdecided, hfaith⟩ := hfaithful j hj state insn hstate hget
    exact ⟨_, hstep, simulates_step hto hopcode heffect h hdecided hfaith⟩
  obtain ⟨state, hstate, h⟩ := hsim
  refine ⟨state, hstate, h, fun insn taken c' hget hres hfaith hnext => ?_⟩
  obtain ⟨insn', finsn, hget', hto, hopcode, -, heffect, -⟩ := exists_insn_of_next hemit h.pc hnext
  obtain rfl := Option.some.inj (hget.symm.trans hget')
  have hdecided : Decided state insn := by
    unfold Decided
    split <;> first | trivial | rw [hres]; rfl
  have hstep := (simulates_step hto hopcode heffect h hdecided hfaith).pc
  rw [transfer_of_decided hres] at hstep
  rw [hstep]
  cases taken with
  | true => exact branchTarget_of_lands (lands_of_faithful hfaith hres)
  | false => rfl

/-- `r0 = 1; if r0 = 1 goto +1; exit; exit`. -/
def asksOne : List BpfInsn := [.aluImm .mov .r0 1, .jmpImm .jeq .r0 1 1, .ret, .ret]

theorem simulates_asksOne : ∃ prog c, emit asksOne = some prog ∧
    (pathInterp prog).after 2 (BpfState.blank.entry, []) = some c ∧
    ∃ state, (interp asksOne).after 2 (start []) = some state ∧ Simulates state c ∧
      ∀ insn taken c', asksOne[state.pc]? = some insn →
        resolveBranch state insn = some taken → Faithful state insn →
        (pathInterp prog).next c = some c' →
        c'.1.pc = if taken then state.pc + 1 + insn.offset.toInt else state.pc + 1 := by
  refine ⟨_, _, rfl, rfl, simulates_after (k := 2) rfl BpfState.blank [] ?_ rfl⟩
  intro j hj state insn hstate hget
  obtain rfl | rfl : j = 0 ∨ j = 1 := by omega
  · obtain rfl := Option.some.inj hstate
    obtain rfl := Option.some.inj hget
    exact ⟨trivial, trivial⟩
  · obtain rfl := Option.some.inj hstate
    obtain rfl := Option.some.inj hget
    exact ⟨rfl, fun _ _ => Or.inr rfl, fun _ => ⟨by decide, by decide⟩⟩

/-- `r0 = 1; if r0 = 2 goto +1; exit; exit`. -/
def asksTwo : List BpfInsn := [.aluImm .mov .r0 1, .jmpImm .jeq .r0 2 1, .ret, .ret]

/-- **The abstract executor falls through at the comparison of 1 with 2, and F\* jumps.** -/
theorem not_simulates : ¬∀ (instructions : List BpfInsn) (prog : BpfProgram) (init : BpfState)
    (schedule : List PathChoice) (k : ℕ) (c : BpfState × PathSchedule) (state : PathState),
    emit instructions = some prog →
    (∀ j < k, ∀ state insn, (interp instructions).after j (start schedule) = some state →
      instructions[state.pc]? = some insn → Decided state insn) →
    (pathInterp prog).after k (init.entry, schedule.map PathChoice.toFstar) = some c →
    (interp instructions).after k (start schedule) = some state → Simulates state c := by
  intro h
  have hsim := h asksTwo _ BpfState.blank [] 2 _ _ rfl ?_ rfl rfl
  · exact absurd hsim.pc (by decide)
  · intro j hj state insn hstate hget
    obtain rfl | rfl : j = 0 ∨ j = 1 := by omega
    · obtain rfl := Option.some.inj hstate
      obtain rfl := Option.some.inj hget
      trivial
    · obtain rfl := Option.some.inj hstate
      obtain rfl := Option.some.inj hget
      rfl

end BpfVerifier.Dataflow
