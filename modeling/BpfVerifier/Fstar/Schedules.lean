import BpfVerifier.Fstar.Steps
import BpfVerifier.Machinery.Tape

/-!
# Fstar/Schedules — which choices a run under a schedule takes

The executor of `BPF.Exec.Path` takes one choice of its schedule at every nullable call and does not
look at it elsewhere (`pathInterp_readsTape`), so two schedules give the same run exactly when they
agree on the choices the run takes (`sameRun_iff`).
-/

namespace BpfVerifier.Fstar

/-- A call of a helper that may return null. -/
def Insn.isNullable : Insn → Bool
  | .call hid => (getHelperSpec hid).any HelperSpec.nullable
  | _ => false

/-- The next instruction is such a call. -/
def nullableAt (prog : BpfProgram) (st : BpfState) : Bool :=
  (fetchAt prog st.pc).any Insn.isNullable

/-- The two choices lead to different states. -/
theorem returnsChoice_injective {spec : HelperSpec} (hnull : spec.nullable = true) (st : BpfState) :
    Function.Injective (st.returnsChoice spec.retType) := by
  have hne : (st.returnsChoice spec.retType .NonNull).regs .r0 ≠
      (st.returnsChoice spec.retType .AsNull).regs .r0 := by
    obtain ⟨args, ret, eff⟩ := spec
    cases ret <;>
      simp_all [HelperSpec.nullable, BpfState.returnsChoice, BpfState.returnsMapPtr,
        BpfState.returnsRingBufPtr, BpfState.returns, setReg]
  intro a b hab
  cases a <;> cases b
  · rfl
  · exact absurd (congrArg (fun s => s.regs .r0) hab) hne
  · exact absurd (congrArg (fun s => s.regs .r0) hab.symm) hne
  · rfl

theorem next_pathInterp {prog : BpfProgram} {st : BpfState} {insn : Insn}
    (hfetch : fetchAt prog st.pc = some insn) (sched : PathSchedule) :
    (pathInterp prog).next (st, sched) =
      if insn.isExit then none else execPath (st, sched) insn :=
  Interp.next_of_fetch hfetch

/-- **The executor takes a choice at every nullable call, and only there.** -/
theorem pathInterp_readsTape (prog : BpfProgram) :
    (pathInterp prog).ReadsTape .NonNull (nullableAt prog) where
  read {st} h := by
    obtain ⟨insn, hfetch, hnull⟩ := (Option.any_eq_true _ _).mp h
    cases insn with
    | call hid =>
      obtain ⟨spec, hspec, hnull⟩ := (Option.any_eq_true _ _).mp hnull
      refine ⟨_, returnsChoice_injective hnull (applyHelperEffect st spec.sideEffect),
        fun sched => ?_⟩
      rw [next_pathInterp hfetch, List.headD_eq_head?_getD]
      simp only [Insn.isExit, Bool.false_eq_true, if_false, execPath, execInsnPath, hspec,
        execHelperPath_eq, hnull, if_true, PathSchedule.choice]
    | _ => cases hnull
  keep {st} h := by
    cases hfetch : fetchAt prog st.pc with
    | none => exact ⟨none, fun sched => Interp.next_of_fetch_none hfetch⟩
    | some insn =>
      simp only [nullableAt, hfetch, Option.any_some] at h
      by_cases hcall : ∃ hid, insn = .call hid
      · obtain ⟨hid, rfl⟩ := hcall
        cases hspec : getHelperSpec hid with
        | none =>
          refine ⟨none, fun sched => ?_⟩
          rw [next_pathInterp hfetch]
          simp only [Insn.isExit, Bool.false_eq_true, if_false, execPath, execInsnPath, hspec,
            Option.map_none]
        | some spec =>
          have hnull : spec.nullable = false := by simpa [Insn.isNullable, hspec] using h
          refine ⟨some ((applyHelperEffect st spec.sideEffect).returns (.scalar 0)),
            fun sched => ?_⟩
          rw [next_pathInterp hfetch]
          simp only [Insn.isExit, Bool.false_eq_true, if_false, execPath, execInsnPath, hspec,
            execHelperPath_eq, hnull, Option.map_some]
      · refine ⟨if insn.isExit then none else execInsn st insn, fun sched => ?_⟩
        rw [next_pathInterp hfetch]
        split
        · rfl
        · rw [execPath, execInsnPath_of_ne_call fun hid heq => hcall ⟨hid, heq⟩]
          cases execInsn st insn <;> rfl

/-! ## Runs -/

/-- **Two schedules give the same run** from a state. -/
def SameRun (prog : BpfProgram) (st : BpfState) (sched sched' : PathSchedule) : Prop :=
  ∀ n, (pathInterp prog).SameStates n st sched sched'

/-- The choices that the run `exec_program_path` makes with one unit of fuel for each instruction
takes. -/
def choicesTaken (prog : BpfProgram) (st : BpfState) (sched : PathSchedule) : ℕ :=
  (pathInterp prog).taken (nullableAt prog) prog.length (st, sched)

/-- The choice a schedule makes at a nullable call, by its number in the run. -/
def PathSchedule.choiceAt (sched : PathSchedule) (i : ℕ) : PathChoice := sched.getD i .NonNull

/-- **Two schedules give the same run exactly when they agree on the choices it takes**, when it
reaches EXIT. -/
theorem sameRun_iff {prog : BpfProgram} {st final : BpfState} {sched sched' : PathSchedule}
    (hrun : execProgramPath st prog prog.length sched = some final) :
    SameRun prog st sched sched' ↔
      ∀ i < choicesTaken prog st sched, sched.choiceAt i = sched'.choiceAt i := by
  obtain ⟨c, hc, -⟩ := Option.map_eq_some_iff.mp hrun
  obtain ⟨k, hk, hafter, hhalted⟩ := Interp.run_eq_some_iff.mp hc
  constructor
  · intro h
    exact (Interp.sameStates_iff (pathInterp_readsTape prog)).mp (h prog.length)
  · intro h
    exact Interp.sameStates_of_halted (Nat.le_of_lt hk) hafter (fun _ => hhalted)
      ((Interp.sameStates_iff (pathInterp_readsTape prog)).mpr h)

/-- **The same run gives the same result.** -/
theorem execProgramPath_of_sameRun {prog : BpfProgram} {st final : BpfState}
    {sched sched' : PathSchedule} (h : SameRun prog st sched sched') {n : ℕ}
    (hrun : execProgramPath st prog n sched = some final) :
    execProgramPath st prog n sched' = some final := by
  obtain ⟨c, hc, rfl⟩ := Option.map_eq_some_iff.mp hrun
  obtain ⟨k, hk, hafter, hhalted⟩ := Interp.run_eq_some_iff.mp hc
  have hsame := h k k (Nat.le_refl k)
  rw [hafter, Option.map_some] at hsame
  obtain ⟨c', hc', hfst⟩ := Option.map_eq_some_iff.mp hsame.symm
  have hhalted' : (pathInterp prog).Halted c' := by
    obtain ⟨insn, hfetch, hexit⟩ := hhalted
    have hsamePc : fetchAt prog c'.1.pc = fetchAt prog c.1.pc :=
      congrArg (fun s => fetchAt prog (BpfState.pc s)) hfst
    exact ⟨insn, hsamePc.trans hfetch, hexit⟩
  rw [execProgramPath, Interp.run_eq_some_iff.mpr ⟨k, hk, hc', hhalted'⟩, Option.map_some, hfst]

/-- **Schedules that make the same choices give the same run**, however long they are. -/
theorem execProgramPath_congr {sched sched' : PathSchedule}
    (h : ∀ i, sched.choiceAt i = sched'.choiceAt i) (st : BpfState) (prog : BpfProgram) (n : ℕ) :
    execProgramPath st prog n sched = execProgramPath st prog n sched' := by
  have hsame {sched sched' : PathSchedule} (h : ∀ i, sched.choiceAt i = sched'.choiceAt i) :
      SameRun prog st sched sched' :=
    fun n => (Interp.sameStates_iff (pathInterp_readsTape prog)).mpr fun i _ => h i
  apply Option.ext
  intro final
  exact ⟨execProgramPath_of_sameRun (hsame h),
    execProgramPath_of_sameRun (hsame fun i => (h i).symm)⟩

/-- **What is proved for a schedule holds of the runs it makes**, under whatever schedule. -/
theorem post_of_sameRun {prog : BpfProgram} {spec : BpfSpec} {init final : BpfState}
    {sched sched' : PathSchedule} (h : programSatisfiesPath prog spec sched') (hpre : spec.pre init)
    (hsame : SameRun prog init.entry sched sched')
    (hrun : execProgramPath init.entry prog prog.length sched = some final) : spec.post final :=
  meets_iff.mp (h init hpre) final (execProgramPath_of_sameRun hsame hrun)

/-! ## The all-NonNull schedule -/

theorem nonnullSched_eq_replicate (n : ℕ) : nonnullSched n = List.replicate n .NonNull := by
  induction n with
  | zero => rfl
  | succ n ih => rw [nonnullSched, ih, List.replicate_succ]

theorem choiceAt_replicate_NonNull (n i : ℕ) :
    PathSchedule.choiceAt (List.replicate n .NonNull) i = .NonNull := by
  rw [PathSchedule.choiceAt, List.getD_eq_getElem?_getD, List.getElem?_replicate]
  split <;> rfl

@[simp] theorem choiceAt_nonnullSched (n i : ℕ) :
    PathSchedule.choiceAt (nonnullSched n) i = .NonNull := by
  rw [nonnullSched_eq_replicate, choiceAt_replicate_NonNull]

/-- A schedule makes the same choices when NonNull choices are added at its end. -/
theorem choiceAt_append_nonnullSched (sched : PathSchedule) (n i : ℕ) :
    PathSchedule.choiceAt (sched ++ nonnullSched n) i = sched.choiceAt i := by
  rw [PathSchedule.choiceAt, PathSchedule.choiceAt, List.getD_eq_getElem?_getD,
    List.getD_eq_getElem?_getD, List.getElem?_append]
  split
  · rfl
  · next hi =>
    rw [List.getElem?_eq_none (Nat.le_of_not_lt hi), ← List.getD_eq_getElem?_getD]
    exact choiceAt_nonnullSched n _

/-! ## The plain executor -/

/-- A helper under an empty schedule is the plain helper. -/
theorem execHelperPath_nil (st : BpfState) (spec : HelperSpec) :
    execHelperPath st spec [] = (execHelper st spec, []) := by
  obtain ⟨args, ret, eff⟩ := spec
  cases ret <;> rfl

/-- One instruction under an empty schedule is the plain instruction. -/
theorem execPath_nil (st : BpfState) (insn : Insn) :
    execPath (st, []) insn = (execInsn st insn).map fun st' => (st', []) := by
  have hpath : execInsnPath st insn [] = (execInsn st insn, []) := by
    cases insn with
    | call hid =>
      rw [execInsnPath, execInsn]
      cases getHelperSpec hid with
      | none => rfl
      | some spec => exact execHelperPath_nil st spec
    | _ => rfl
  rw [execPath, hpath]
  cases execInsn st insn <;> rfl

/-- **The empty schedule is the plain executor.** -/
theorem execProgramPath_nil (st : BpfState) (prog : BpfProgram) (n : ℕ) :
    execProgramPath st prog n [] = execProgram st prog n := by
  have hrun : (pathInterp prog).run n (st, []) = ((interp prog).run n st).map fun s => (s, []) :=
    Interp.run_map (φ := fun s => (s, [])) (fun _ => rfl) rfl execPath_nil n st
  rw [execProgramPath, hrun, Option.map_map]
  exact Option.map_id'

end BpfVerifier.Fstar
