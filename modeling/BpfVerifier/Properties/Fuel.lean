import Mathlib.Data.Fintype.Card
import BpfVerifier.Fstar.Steps

/-!
# Properties/Fuel — the fuel of a proved specification

`programSatisfies` gives a run one unit of fuel for each instruction of the programme and takes a
run that needs more for a success.  A proved specification holds of the runs of any fuel that reach
EXIT within that many steps, as all runs do that come to no instruction twice
(`programSatisfies_run`).
-/

namespace BpfVerifier.Fstar

variable {prog : BpfProgram} {spec : BpfSpec} {st init final : BpfState} {n : ℕ}

/-- No jump goes backwards. -/
def ForwardOnly (prog : BpfProgram) : Bool := prog.all fun insn => insn.branchOffset.all (0 ≤ ·)

/-- A run comes to no instruction twice. -/
def VisitsOnce (prog : BpfProgram) (st : BpfState) : Prop :=
  ∀ i j u v, i < j → (interp prog).after i st = some u → (interp prog).after j st = some v →
    u.pc.toNat ≠ v.pc.toNat

/-- A run reaches EXIT within one step for each instruction. -/
def Short (prog : BpfProgram) (st final : BpfState) : Prop :=
  ∃ k < prog.length, (interp prog).after k st = some final

/-- A state that is run from is at an instruction of the programme. -/
theorem lt_length_of_next {u : BpfState} (h : (interp prog).next st = some u) :
    st.pc.toNat < prog.length := by
  obtain ⟨insn, hfetch, -⟩ := Interp.next_eq_some_iff.mp h
  exact (List.getElem?_eq_some_iff.mp ((fetchAt_eq prog st.pc).symm.trans hfetch)).1

theorem lt_length_of_halted (h : (interp prog).Halted st) : st.pc.toNat < prog.length := by
  obtain ⟨insn, hfetch, -⟩ := h
  exact (List.getElem?_eq_some_iff.mp ((fetchAt_eq prog st.pc).symm.trans hfetch)).1

/-- **A run that comes to no instruction twice is short**: the instructions it comes to are as many
as its steps and one more, and all in the programme. -/
theorem lt_length_of_visitsOnce (honce : VisitsOnce prog st)
    (hafter : (interp prog).after n st = some final) (hhalted : (interp prog).Halted final) :
    n < prog.length := by
  have hreach (i : Fin (n + 1)) : ∃ u, (interp prog).after i st = some u :=
    Interp.exists_after_of_le (Nat.le_of_lt_succ i.isLt) hafter
  choose visit hvisit using hreach
  have hbound (i : Fin (n + 1)) : (visit i).pc.toNat < prog.length := by
    rcases Nat.lt_succ_iff_lt_or_eq.mp i.isLt with hlt | heq
    · obtain ⟨u, hu⟩ := Interp.exists_after_of_le (Nat.succ_le_of_lt hlt) hafter
      exact lt_length_of_next (Interp.next_of_after (hvisit i) hu)
    · have hfinal := hvisit i
      rw [heq, hafter] at hfinal
      rw [← Option.some.inj hfinal]
      exact lt_length_of_halted hhalted
  have hinj : Function.Injective fun i => (⟨(visit i).pc.toNat, hbound i⟩ : Fin prog.length) := by
    intro i j hij
    have hpc : (visit i).pc.toNat = (visit j).pc.toNat := congrArg Fin.val hij
    rcases Nat.lt_trichotomy i j with hlt | heq | hgt
    · exact absurd hpc (honce i j _ _ hlt (hvisit i) (hvisit j))
    · exact Fin.ext heq
    · exact absurd hpc.symm (honce j i _ _ hgt (hvisit j) (hvisit i))
  have hcard := Fintype.card_le_of_injective _ hinj
  simpa [Nat.succ_le_iff] using hcard

/-! ## Programmes without backward jumps -/

/-- Without backward jumps every step goes forward. -/
theorem pc_lt_of_next (hfwd : ForwardOnly prog = true) {u : BpfState}
    (h : (interp prog).next st = some u) : st.pc < u.pc := by
  obtain ⟨insn, hfetch, hexit, hexec⟩ := Interp.next_eq_some_iff.mp h
  rcases pc_of_execInsn hexit hexec with hpc | ⟨off, hoff, hpc⟩
  · omega
  · have hmem := List.mem_of_getElem? ((fetchAt_eq prog st.pc).symm.trans hfetch)
    have hnonneg : 0 ≤ off := by
      simpa [hoff] using List.all_eq_true.mp hfwd insn hmem
    rw [BpfState.takenPc] at hpc
    omega

/-- The programme counter after some steps. -/
theorem pc_add_le_of_after (hfwd : ForwardOnly prog = true) {u : BpfState}
    (h : (interp prog).after n st = some u) : st.pc + n ≤ u.pc := by
  refine Interp.after_invariant (I := fun n u => st.pc + (n : Int) ≤ u.pc) (by simp) ?_ h
  intro k v w _ hnext hle
  have hlt := pc_lt_of_next hfwd hnext
  omega

/-- **A programme without backward jumps comes to no instruction twice.** -/
theorem visitsOnce_of_forwardOnly (hfwd : ForwardOnly prog = true) (hpc : 0 ≤ st.pc) :
    VisitsOnce prog st := by
  intro i j u v hij hu hv
  obtain ⟨k, rfl⟩ := Nat.exists_eq_add_of_lt hij
  rw [Nat.add_assoc, Interp.after_add, hu] at hv
  have hle := pc_add_le_of_after hfwd hu
  have hlt := pc_add_le_of_after hfwd hv
  omega

/-! ## Runs of any fuel -/

/-- **A proved specification holds of the result of every run, whatever its fuel,** that reaches
EXIT within one step for each instruction — as the run does when it comes to no instruction twice,
and in particular when no jump goes backwards. -/
theorem programSatisfies_run (h : programSatisfies prog spec) (hpre : spec.pre init)
    (hrun : execProgram init.entry prog n = some final)
    (hshort : Short prog init.entry final ∨ VisitsOnce prog init.entry ∨
      ForwardOnly prog = true) : spec.post final := by
  obtain ⟨k, -, hafter, hhalted⟩ := Interp.run_eq_some_iff.mp hrun
  have hk : Short prog init.entry final := by
    rcases hshort with hshort | honce | hfwd
    · exact hshort
    · exact ⟨k, lt_length_of_visitsOnce honce hafter hhalted, hafter⟩
    · exact ⟨k, lt_length_of_visitsOnce (visitsOnce_of_forwardOnly hfwd (Int.le_refl 0)) hafter
        hhalted, hafter⟩
  obtain ⟨m, hm, hafter'⟩ := hk
  exact meets_iff.mp (h init hpre) final (Interp.run_eq_some_iff.mpr ⟨m, hm, hafter', hhalted⟩)

/-- Returns 1 or 2 by a forward jump. -/
def picks : BpfProgram :=
  [.alu64Imm .mov .r0 1, .jmp64Imm .jeq .r0 0 1, .alu64Imm .add .r0 1, .exit]

theorem programSatisfies_run_picks :
    ∃ final, execProgram BpfState.blank.entry picks 9 = some final ∧
      (BpfSpec.returnsValue 2).post final := by
  have hsat : programSatisfies picks (.returnsValue 2) := fun _ _ => rfl
  obtain ⟨final, hfinal⟩ : ∃ final, execProgram BpfState.blank.entry picks 9 = some final :=
    ⟨_, rfl⟩
  exact ⟨final, hfinal, programSatisfies_run hsat trivial hfinal (Or.inr (Or.inr (by decide)))⟩

/-- Counts r0 down from 2. -/
def countsDown : BpfProgram :=
  [.alu32Imm .mov .r0 2, .alu64Imm .sub .r0 1, .jmp64Imm .jne .r0 0 (-2), .exit]

/-- `countsDown` satisfies even what is false of every state: no run ends within four steps. -/
theorem not_post_of_programSatisfies :
    ¬ ∀ (prog : BpfProgram) (spec : BpfSpec) (init final : BpfState) (n : ℕ),
      programSatisfies prog spec → spec.pre init → execProgram init.entry prog n = some final →
      spec.post final := by
  intro hall
  have hnone : programSatisfies countsDown (.postOnly fun _ => False) := fun _ _ => trivial
  exact hall countsDown _ .blank _ 6 hnone trivial rfl

end BpfVerifier.Fstar
