import BpfVerifier.Fstar.Verify

/-!
# Fstar/Path — `BPF.Exec.Path`, the executor under a schedule

A schedule decides, call after call, whether a nullable helper returns null; once it is used up
every call returns a pointer.
-/

namespace BpfVerifier.Fstar

/-- What happens at a nullable helper call. -/
inductive PathChoice where
  | NonNull | AsNull
  deriving DecidableEq, Repr

abbrev PathSchedule := List PathChoice

/-- `exec_helper_path`: the new state and what is left of the schedule. -/
def execHelperPath (st₀ : BpfState) (spec : HelperSpec) (sched : PathSchedule) :
    Option BpfState × PathSchedule :=
  let st := applyHelperEffect st₀ spec.sideEffect
  match spec.retType with
  | .RetMapPtr =>
    match sched with
    | .NonNull :: rest => (some st.returnsMapPtr, rest)
    | .AsNull :: rest => (some (st.returns .null), rest)
    | [] => (some st.returnsMapPtr, [])
  | .RetRingBufPtr =>
    match sched with
    | .NonNull :: rest => (some st.returnsRingBufPtr, rest)
    | .AsNull :: rest => (some (st.returns .null), rest)
    | [] => (some st.returnsRingBufPtr, [])
  | .RetScalar => (some (st.returns (.scalar 0)), sched)
  | .RetErrorCode => (some (st.returns (.scalar 0)), sched)

/-- `exec_insn_path`. -/
def execInsnPath (st : BpfState) (insn : Insn) (sched : PathSchedule) :
    Option BpfState × PathSchedule :=
  match insn with
  | .call hid =>
    match getHelperSpec hid with
    | some spec => execHelperPath st spec sched
    | none => (none, sched)
  | _ => (execInsn st insn, sched)

/-- One instruction of a run that carries its schedule. -/
def execPath (c : BpfState × PathSchedule) (insn : Insn) : Option (BpfState × PathSchedule) :=
  match execInsnPath c.1 insn c.2 with
  | (none, _) => none
  | (some st', sched') => some (st', sched')

/-- The executor under a schedule. -/
def pathInterp (prog : BpfProgram) : Interp (BpfState × PathSchedule) Insn where
  fetch c := fetchAt prog c.1.pc
  halts := Insn.isExit
  exec := execPath

/-- **`exec_program_path`.** -/
def execProgramPath (st : BpfState) (prog : BpfProgram) (fuel : ℕ) (sched : PathSchedule) :
    Option BpfState :=
  ((pathInterp prog).run fuel (st, sched)).map Prod.fst

/-- `program_satisfies_path`. -/
def programSatisfiesPath (prog : BpfProgram) (spec : BpfSpec) (sched : PathSchedule) : Prop :=
  ∀ init, spec.pre init → Meets spec.post (execProgramPath init.entry prog prog.length sched)

/-- `nonnull_sched`. -/
def nonnullSched : ℕ → PathSchedule
  | 0 => []
  | n + 1 => .NonNull :: nonnullSched n

/-! ## Choices -/

/-- The choice a schedule makes next. -/
def PathSchedule.choice (sched : PathSchedule) : PathChoice := sched.head?.getD .NonNull

/-- A nullable helper's result under a choice. -/
def BpfState.returnsChoice (st : BpfState) (ret : HelperRet) : PathChoice → BpfState
  | .NonNull => if ret = .RetMapPtr then st.returnsMapPtr else st.returnsRingBufPtr
  | .AsNull => st.returns .null

/-- **A call takes one choice if its helper is nullable, and none otherwise.** -/
theorem execHelperPath_eq (st : BpfState) (spec : HelperSpec) (sched : PathSchedule) :
    execHelperPath st spec sched =
      if spec.nullable then
        (some ((applyHelperEffect st spec.sideEffect).returnsChoice spec.retType sched.choice),
          sched.tail)
      else (some ((applyHelperEffect st spec.sideEffect).returns (.scalar 0)), sched) := by
  obtain ⟨args, ret, eff⟩ := spec
  cases ret with
  | RetScalar => rfl
  | RetErrorCode => rfl
  | RetMapPtr =>
    cases sched with
    | nil => rfl
    | cons c rest => cases c <;> rfl
  | RetRingBufPtr =>
    cases sched with
    | nil => rfl
    | cons c rest => cases c <;> rfl

theorem execInsnPath_of_ne_call {st : BpfState} {insn : Insn} {sched : PathSchedule}
    (h : ∀ hid, insn ≠ .call hid) : execInsnPath st insn sched = (execInsn st insn, sched) := by
  cases insn with
  | call hid => exact absurd rfl (h hid)
  | _ => rfl

end BpfVerifier.Fstar
