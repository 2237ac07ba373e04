import BpfVerifier.Bpf.Helpers
import BpfVerifier.Fstar.Verify

/-!
# Fstar/Environment — the executor with an environment that answers

What the model gives as constants (the result of a helper, the value of a looked-up map element,
r1–r5 after a call, what is loaded from the context) an environment gives here, step by step.  All
the rest is as in the plain executor.
-/

namespace BpfVerifier.Fstar

/-- What the environment answers at a step. -/
structure Answer where
  /-- The number a call returns, or a load from the context reads. -/
  number : BitVec 64
  /-- The value of a looked-up map element. -/
  mapValue : BitVec 64
  /-- r1–r5 after a call. -/
  args : Reg → RegVal

namespace BpfState

variable (st : BpfState)

/-- r1–r5 hold what the environment leaves there. -/
def scramble (args : Reg → RegVal) : BpfState :=
  { st with regs := fun r => if argRegs.contains r then args r else st.regs r }

/-- r0 := a fresh map-value pointer, whose value the environment chooses. -/
def returnsMapPtrTo (v : BitVec 64) : BpfState :=
  { st.returnsMapPtr with mapValues := (st.nextMapId, v) :: st.mapValues }

end BpfState

/-- A helper call, answered. -/
def execHelperEnv (a : Answer) (st₀ : BpfState) (spec : HelperSpec) : BpfState :=
  let st := applyHelperEffect st₀ spec.sideEffect
  match spec.retType with
  | .RetMapPtr => (st.returnsMapPtrTo a.mapValue).scramble a.args
  | .RetRingBufPtr => st.returnsRingBufPtr.scramble a.args
  | .RetScalar => (st.returns (.scalar a.number)).scramble a.args
  | .RetErrorCode => (st.returns (.scalar a.number)).scramble a.args

/-- One instruction, answered. -/
def execInsnEnv (a : Answer) (st : BpfState) (insn : Insn) : Option BpfState :=
  match insn with
  | .call hid =>
    match getHelperSpec hid with
    | some spec => some (execHelperEnv a st spec)
    | none => none
  | .ldx _ dst src _ =>
    match st.regs src with
    | .ctxPtr _ => some (st.setReg dst (.scalar a.number))
    | _ => execInsn st insn
  | _ => execInsn st insn

/-- The executor with an environment, which answers by the number of steps made. -/
def envInterp (env : ℕ → Answer) (prog : BpfProgram) : Interp (ℕ × BpfState) Insn where
  fetch c := fetchAt prog c.2.pc
  halts := Insn.isExit
  exec c insn := (execInsnEnv (env c.1) c.2 insn).map fun st' => (c.1 + 1, st')

/-- The result of a run with an environment. -/
def execProgramEnv (env : ℕ → Answer) (st : BpfState) (prog : BpfProgram) (fuel : ℕ) :
    Option BpfState :=
  ((envInterp env prog).run fuel (0, st)).map Prod.snd

end BpfVerifier.Fstar
