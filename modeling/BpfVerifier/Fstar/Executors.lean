import BpfVerifier.Fstar.Steps

/-!
# Fstar/Executors — what the two executors have in common

Where an instruction leads and which register it records as written are the same in `exec_program`
and in `exec_program_path`: `IsExecutor` is what both do, whatever their states carry besides.
-/

namespace BpfVerifier.Fstar

namespace Insn

/-- The register an instruction writes, the result of a call included. -/
def result : Insn → Option Reg
  | .call _ => some .r0
  | insn => insn.writes

/-- The offset of the jump an instruction takes. -/
def taken (insn : Insn) (st : BpfState) : Option Int :=
  match insn with
  | .jmpJa off => some off
  | insn =>
    match insn.condition st with
    | some (true, off) => some off
    | _ => none

/-- Where an instruction leads. -/
def goesTo (insn : Insn) (st : BpfState) : Int :=
  match insn.taken st with
  | some off => st.takenPc off
  | none => st.pc + 1

/-- The origins an instruction leaves. -/
def originsAfter (insn : Insn) (st : BpfState) : Reg → ℕ :=
  match insn.result with
  | some r => st.originsAt r
  | none => st.regOrigins

end Insn

/-! ## One step -/

section

variable {st st' : BpfState} {insn : Insn}

theorem taken_of_branchOffset_none (h : insn.branchOffset = none) : insn.taken st = none := by
  cases insn <;> simp_all [Insn.branchOffset, Insn.taken, Insn.condition]

theorem branchOffset_of_taken {off : Int} (h : insn.taken st = some off) :
    insn.branchOffset = some off := by
  unfold Insn.taken at h
  split at h
  · exact h
  · split at h
    · next hcond =>
      obtain rfl := Option.some.inj h
      exact (condition_offset hcond).1
    · cases h

theorem taken_of_condition {cond : Bool} {off : Int} (h : insn.condition st = some (cond, off)) :
    insn.taken st = if cond then some off else none := by
  have hja := (condition_offset h).2
  cases insn <;> first | (cases hja; done) | (cases cond <;> simp_all [Insn.taken])

theorem condition_of_taken {off : Int} (hja : insn.isJa = false) (h : insn.taken st = some off) :
    insn.condition st = some (true, off) := by
  unfold Insn.taken at h
  split at h
  · cases hja
  · split at h
    · next hcond =>
      obtain rfl := Option.some.inj h
      exact hcond
    · cases h

/-- A jump changes no register. -/
theorem regs_of_branch {sched sched' : PathSchedule} {off : Int}
    (hoff : insn.branchOffset = some off) (h : PathEffect st sched insn st' sched') :
    st'.regs = st.regs := by
  cases h with
  | plain hcall hexec heff =>
    cases heff with
    | @number _ dst n hdst => cases insn <;> simp_all [Insn.branchOffset, Insn.numberDst]
    | move dst src => cases hoff
    | shift hdelta hv => cases hoff
    | exit => cases hoff
    | _ => rfl
  | nullable hspec hnull => cases hoff
  | number hspec hnull => cases hoff

theorem branchOffset_of_numberDst {dst : Reg} (h : insn.numberDst = some dst) :
    insn.branchOffset = none := by
  cases insn <;> simp_all [Insn.numberDst, Insn.branchOffset]

theorem result_of_writes {dst : Reg} (h : insn.writes = some dst) : insn.result = some dst := by
  cases insn <;> simp_all [Insn.writes, Insn.result]

theorem result_of_branchOffset {off : Int} (h : insn.branchOffset = some off) :
    insn.result = none := by
  cases insn <;> simp_all [Insn.branchOffset, Insn.result, Insn.writes]

/-- An instruction that writes a register goes on to the next one. -/
theorem setReg_goes {dst : Reg} (v : RegVal) (hoff : insn.branchOffset = none)
    (hdst : insn.writes = some dst) :
    (st.setReg dst v).pc = insn.goesTo st ∧
      (st.setReg dst v).regOrigins = insn.originsAfter st := by
  rw [Insn.goesTo, taken_of_branchOffset_none hoff, Insn.originsAfter, result_of_writes hdst]
  exact ⟨rfl, rfl⟩

/-- **An effect goes where the instruction leads**, and records what it writes. -/
theorem goes_of_effect (hexit : insn ≠ .exit) (h : Effect st insn st') :
    st'.pc = insn.goesTo st ∧ st'.regOrigins = insn.originsAfter st := by
  cases h with
  | move dst src => exact setReg_goes _ rfl rfl
  | @shift op dst imm delta v hdelta hv => exact setReg_goes _ rfl rfl
  | @number _ dst n hdst =>
    exact setReg_goes _ (branchOffset_of_numberDst hdst) (writes_of_numberDst hdst)
  | store stack ringbuf hstore =>
    cases insn <;> first | (cases hstore; done) | exact ⟨rfl, rfl⟩
  | @branch _ cond off hcond =>
    rw [Insn.goesTo, taken_of_condition hcond, Insn.originsAfter,
      result_of_branchOffset (condition_offset hcond).1]
    cases cond <;> exact ⟨rfl, rfl⟩
  | goto off => exact ⟨rfl, rfl⟩
  | exit => exact absurd rfl hexit

theorem returnsChoice_goes (st : BpfState) (ret : HelperRet) (choice : PathChoice) :
    (st.returnsChoice ret choice).pc = st.pc + 1 ∧
      (st.returnsChoice ret choice).regOrigins = st.originsAt .r0 := by
  cases choice with
  | AsNull => exact ⟨rfl, rfl⟩
  | NonNull => cases ret <;> exact ⟨rfl, rfl⟩

theorem goes_of_execHelper {spec : HelperSpec} (h : execHelper st spec = some st') :
    st'.pc = st.pc + 1 ∧ st'.regOrigins = st.originsAt .r0 := by
  obtain ⟨args, ret, eff⟩ := spec
  cases ret <;> obtain rfl := Option.some.inj h <;>
    simp [BpfState.returnsMapPtr, BpfState.returnsRingBufPtr, BpfState.returns]

theorem goes_of_execInsn (hexit : insn ≠ .exit) (h : execInsn st insn = some st') :
    st'.pc = insn.goesTo st ∧ st'.regOrigins = insn.originsAfter st := by
  cases hcall : insn.isCall with
  | false => exact goes_of_effect hexit (effect_of_execInsn hcall h)
  | true =>
    cases insn with
    | call hid =>
      simp only [execInsn] at h
      split at h
      · exact goes_of_execHelper h
      · cases h
    | _ => cases hcall

theorem goes_of_pathEffect {sched sched' : PathSchedule} (hexit : insn ≠ .exit)
    (h : PathEffect st sched insn st' sched') :
    st'.pc = insn.goesTo st ∧ st'.regOrigins = insn.originsAfter st := by
  cases h with
  | plain hcall hexec heff => exact goes_of_effect hexit heff
  | @nullable hid spec hspec hnull =>
    have hgoes := returnsChoice_goes (applyHelperEffect st spec.sideEffect) spec.retType
      sched.choice
    rw [applyHelperEffect_pc, applyHelperEffect_originsAt] at hgoes
    exact hgoes
  | number hspec hnull =>
    simp [BpfState.returns, Insn.goesTo, Insn.taken, Insn.condition, Insn.originsAfter,
      Insn.result]

end

/-! ## Executors -/

/-- **An executor of a programme** over states that hold a machine state: `exec_program`, and
`exec_program_path` with its schedule. -/
structure IsExecutor {σ : Type} (M : Interp σ Insn) (machine : σ → BpfState) (prog : BpfProgram) :
    Prop where
  fetch : ∀ s, M.fetch s = fetchAt prog (machine s).pc
  halts : M.halts = Insn.isExit
  goes : ∀ {s s' insn}, M.fetch s = some insn → M.next s = some s' →
    (machine s').pc = insn.goesTo (machine s) ∧
      (machine s').regOrigins = insn.originsAfter (machine s)
  /-- A jump that is taken is carried out. -/
  jumps : ∀ {s insn off}, M.fetch s = some insn → insn.taken (machine s) = some off →
    ∃ s', M.next s = some s'

theorem ne_exit_of_halts {σ : Type} {M : Interp σ Insn} {insn : Insn}
    (hhalts : M.halts = Insn.isExit) (h : M.halts insn = false) : insn ≠ .exit := by
  rintro rfl
  rw [hhalts] at h
  cases h

/-- An instruction that takes a jump is executed, and is neither a call nor an EXIT. -/
theorem execInsn_of_taken {st : BpfState} {insn : Insn} {off : Int}
    (h : insn.taken st = some off) :
    insn.isExit = false ∧ (∀ hid, insn ≠ .call hid) ∧ ∃ st', execInsn st insn = some st' := by
  have ho := branchOffset_of_taken h
  refine ⟨?_, ?_, ?_⟩
  · cases insn <;> first | rfl | cases ho
  · rintro hid rfl
    cases ho
  · cases hja : insn.isJa with
    | true => cases insn <;> first | (cases hja; done) | exact ⟨_, rfl⟩
    | false =>
      rw [execInsn_branch ho hja]
      cases hcond : insn.condition st with
      | none => cases insn <;> simp_all [Insn.taken, Insn.isJa]
      | some c => exact ⟨_, rfl⟩

theorem isExecutor_interp (prog : BpfProgram) : IsExecutor (interp prog) id prog where
  fetch _ := rfl
  halts := rfl
  goes {s s' insn} hfetch hnext := by
    obtain ⟨i, hi, hhalt, hexec⟩ := Interp.next_eq_some_iff.mp hnext
    obtain rfl := Option.some.inj (hfetch.symm.trans hi)
    exact goes_of_execInsn (ne_exit_of_halts rfl hhalt) hexec
  jumps {s insn off} hfetch htaken := by
    obtain ⟨hexit, -, st', hexec⟩ := execInsn_of_taken htaken
    exact ⟨st', Interp.next_eq_some_iff.mpr ⟨insn, hfetch, hexit, hexec⟩⟩

theorem isExecutor_pathInterp (prog : BpfProgram) : IsExecutor (pathInterp prog) Prod.fst prog where
  fetch _ := rfl
  halts := rfl
  goes {s s' insn} hfetch hnext := by
    obtain ⟨i, hi, hhalt, hexec⟩ := Interp.next_eq_some_iff.mp hnext
    obtain rfl := Option.some.inj (hfetch.symm.trans hi)
    exact goes_of_pathEffect (ne_exit_of_halts rfl hhalt) (pathEffect_of_execPath hexec)
  jumps {s insn off} hfetch htaken := by
    obtain ⟨hexit, hcall, st', hexec⟩ := execInsn_of_taken htaken
    refine ⟨(st', s.2), Interp.next_eq_some_iff.mpr ⟨insn, hfetch, hexit, ?_⟩⟩
    change execPath s insn = some (st', s.2)
    rw [execPath, execInsnPath_of_ne_call hcall, hexec]

end BpfVerifier.Fstar
