import BpfVerifier.Checks.NullSound
import BpfVerifier.Checks.StackSound
import BpfVerifier.Fstar.Executors

/-!
# Checks/Forward — the passes over a programme without loops and JA

Where every jump is conditional and goes forward, one pass covers every path: what it holds at an
instruction describes the registers of every run that gets there (`Describing.after`).  The rule
asks of a pass that joining keeps descriptions and that each instruction keeps them on the way it
takes.
-/

namespace BpfVerifier.Fstar

/-- No instruction is a JA, and no jump goes back. -/
def OnlyForwardBranches (prog : BpfProgram) : Bool :=
  prog.all fun insn => !insn.isJa && insn.branchOffset.all (0 ≤ ·)

section

variable {A : Type}

/-- **A pass whose states go on describing the registers**: over a join, and over an instruction on
the edge it takes. -/
structure Describing (S : Scanner (Reg → A) Insn) (D : A → RegVal → Prop) : Prop where
  join_left : ∀ {a b regs}, Described D a regs → Described D (S.join a b) regs
  join_right : ∀ {a b regs}, Described D b regs → Described D (S.join a b) regs
  falls : ∀ {abs fall insn pc edge st st' sched sched'}, insn ≠ .exit → insn.isJa = false →
    S.transfer abs insn pc = some (fall, edge) → PathEffect st sched insn st' sched' →
    Described D abs st.regs → insn.taken st = none → Described D fall st'.regs
  jumps : ∀ {abs fall insn pc edge st st' sched sched' off}, insn.isJa = false →
    S.transfer abs insn pc = some (fall, edge) → PathEffect st sched insn st' sched' →
    Described D abs st.regs → insn.taken st = some off →
    ∃ jump, edge = some (pc + 1 + off, jump) ∧ Described D jump st'.regs

variable {S : Scanner (Reg → A) Insn} {D : A → RegVal → Prop} {prog : BpfProgram} {abs₀ : Reg → A}
  {targets₀ : Scanner.Targets (Reg → A)}

theorem Describing.upperBounds (h : Describing S D) :
    S.UpperBounds fun a b => ∀ regs, Described D a regs → Described D b regs where
  refl _ _ ha := ha
  trans hab hbc regs ha := hbc regs (hab regs ha)
  left _ _ _ := h.join_left
  right _ _ _ := h.join_right

/-- The pass describes the state a run is in. -/
def DescribedAt (S : Scanner (Reg → A) Insn) (D : A → RegVal → Prop) (prog : BpfProgram)
    (abs₀ : Reg → A) (targets₀ : Scanner.Targets (Reg → A)) (st : BpfState) : Prop :=
  0 ≤ st.pc ∧
    ∀ abs, S.mergedAt abs₀ prog targets₀ st.pc.toNat = some abs → Described D abs st.regs

/-- **One step**: the pass has what falls through below its state at the next instruction, and what
it saved for a jump below its state at the target. -/
theorem Describing.step (h : Describing S D) (hfwd : OnlyForwardBranches prog = true)
    (hloop : S.loop abs₀ prog 0 targets₀ = true) {st st' : BpfState} {sched sched' : PathSchedule}
    {insn : Insn} (hinsn : prog[st.pc.toNat]? = some insn) (hexit : insn ≠ .exit)
    (heffect : PathEffect st sched insn st' sched')
    (hat : DescribedAt S D prog abs₀ targets₀ st) : DescribedAt S D prog abs₀ targets₀ st' := by
  obtain ⟨hpc, hdescribed⟩ := hat
  obtain ⟨abs, fall, edge, hm, htr⟩ := Scanner.transfer_mergedAt hloop hinsn
  have hgoes := (goes_of_pathEffect hexit heffect).1
  have hforward := List.all_eq_true.mp hfwd insn (List.mem_of_getElem? hinsn)
  obtain ⟨hja, hoffs⟩ := Bool.and_eq_true_iff.mp hforward
  rw [Bool.not_eq_true'] at hja
  cases htaken : insn.taken st with
  | none =>
    rw [Insn.goesTo, htaken] at hgoes
    have hsucc : st'.pc = st.pc + 1 := hgoes
    have hnext : st'.pc.toNat = st.pc.toNat + 1 := by omega
    refine ⟨by omega, fun abs' habs' => ?_⟩
    obtain ⟨m, hm', hle⟩ := h.upperBounds.le_mergedAt_succ hloop hinsn hm htr
    rw [hnext] at habs'
    obtain rfl := Option.some.inj (hm'.symm.trans habs')
    exact hle _ (h.falls hexit hja htr heffect (hdescribed abs hm) htaken)
  | some off =>
    rw [Insn.goesTo, htaken] at hgoes
    obtain ⟨jump, rfl, hjump⟩ := h.jumps hja htr heffect (hdescribed abs hm) htaken
    have hoff : 0 ≤ off := by
      have hsome := branchOffset_of_taken htaken
      simpa [hsome] using hoffs
    have htarget : st'.pc = st.pc + 1 + off := hgoes
    refine ⟨by omega, fun abs' habs' => ?_⟩
    have hto : (st.pc.toNat : Int) + 1 + off = st'.pc.toNat := by omega
    rw [hto] at htr
    obtain ⟨m, hm', hle⟩ := h.upperBounds.le_mergedAt_target hloop hinsn hm htr (by omega)
      (Scanner.le_of_mergedAt habs')
    obtain rfl := Option.some.inj (hm'.symm.trans habs')
    exact hle _ hjump

/-- **Runs from the entry**: at each step of a run the pass holds a state, and it describes the
registers. -/
theorem Describing.after (h : Describing S D) (hfwd : OnlyForwardBranches prog = true)
    (hloop : S.loop abs₀ prog 0 targets₀ = true) {init : BpfState} (hpc : init.pc = 0)
    (hinit : Described D abs₀ init.regs) {sched : PathSchedule} {n : ℕ}
    {c : BpfState × PathSchedule} (hc : (pathInterp prog).after n (init, sched) = some c) :
    DescribedAt S D prog abs₀ targets₀ c.1 := by
  refine Interp.after_invariant
    (I := fun _ (c : BpfState × PathSchedule) => DescribedAt S D prog abs₀ targets₀ c.1) ?_ ?_ hc
  · refine ⟨by simp [hpc], fun abs habs => ?_⟩
    change S.mergedAt abs₀ prog targets₀ init.pc.toNat = some abs at habs
    rw [hpc] at habs
    -- at instruction 0 only the states of loop heads can be joined in
    simp only [Scanner.mergedAt, Scanner.stateAt, Scanner.stateFrom, Int.toNat_zero,
      Option.map_some, Option.some.injEq] at habs
    rw [← habs]
    exact h.upperBounds.le_applyTargets _ _ _ _ hinit
  · intro k c c' _ hnext hat
    obtain ⟨insn, hinsn, hexit, heffect⟩ := pathEffect_of_next hnext
    exact h.step hfwd hloop hinsn hexit heffect hat

end

end BpfVerifier.Fstar
