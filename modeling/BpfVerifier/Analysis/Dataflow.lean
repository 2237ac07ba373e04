import BpfVerifier.Fstar.Emit
import BpfVerifier.Fstar.Path

/-!
# Analysis/Dataflow — `dataflow::analyse`, the null paths of a programme

Every schedule of choices for the nullable calls of the list is run on abstract values; the
schedules whose run gets to an EXIT are kept.  The generated module proves the specification for the
all-NonNull schedule and for the kept ones after the first (`pathObligations`).
-/

namespace BpfVerifier.Dataflow

/-! ## Abstract states -/

/-- What a path knows of a register. -/
inductive AbsValue where
  | concrete (v : BitVec 64)
  | framePtr (off : BitVec 64)
  | ctxPtr (off : BitVec 64)
  | mapValuePtr (id : ℕ)
  | ringBufPtr (id : ℕ)
  | null
  | symbolic
  deriving DecidableEq, Repr

/-- What happens at a nullable helper call. -/
inductive PathChoice where
  | nonNull | asNull
  deriving DecidableEq, Repr

/-- `PathChoice::to_fstar`. -/
def PathChoice.toFstar : PathChoice → Fstar.PathChoice
  | .nonNull => .NonNull
  | .asNull => .AsNull

/-- A store through a ring-buffer pointer. -/
structure RingBufWrite where
  id : ℕ
  offset : BitVec 64
  width : MemWidth
  value : Option (BitVec 64)
  deriving DecidableEq, Repr

/-- A path that reached EXIT. -/
structure PathResult where
  pathId : ℕ
  schedule : List PathChoice
  returnValue : Option (BitVec 64)
  ringbufWrites : List RingBufWrite
  deriving DecidableEq, Repr

/-- The paths of a programme. -/
structure DataflowResult where
  paths : List PathResult
  hasNullableHelpers : Bool
  deriving DecidableEq, Repr

/-- The state of a path, with the choices it has left. -/
structure PathState where
  regs : Reg → AbsValue
  pc : ℕ
  nextPtrId : ℕ
  schedule : List PathChoice
  scheduleCursor : ℕ
  ringbufWrites : List RingBufWrite

namespace PathState

def init : PathState where
  regs r := if r = .r1 then .ctxPtr 0 else if r = .r10 then .framePtr 0 else .symbolic
  pc := 0
  nextPtrId := 0
  schedule := []
  scheduleCursor := 0
  ringbufWrites := []

variable (state : PathState)

def set (reg : Reg) (v : AbsValue) : PathState :=
  { state with regs := fun i => if i = reg then v else state.regs i }

/-- `state.pc = pc`. -/
def goto (pc : ℕ) : PathState := { state with pc := pc }

/-- The number in r0, if it is known. -/
def returnValue : Option (BitVec 64) :=
  match state.regs .r0 with
  | .concrete v => some v
  | _ => none

end PathState

/-! ## Schedules -/

/-- The calls whose helper may return null. -/
def isNullableCall (insn : BpfInsn) : Bool :=
  insn.opcode = .call && (getHelper insn.imm).any fun h => h.retType = .mapPtr ∨
    h.retType = .ringBufPtr

/-- The calls that may return null. -/
def countNullableHelpers (instructions : List BpfInsn) : ℕ := instructions.countP isNullableCall

/-- Bit `i` of the number of a schedule is choice `i`.  A `usize` is shifted by the amount modulo
64, as a build without overflow checks does; with them `1usize << count` panics from 64 nullable
calls on. -/
def enumerateSchedules (count : ℕ) : List (List PathChoice) :=
  (List.range (2 ^ (count % 64))).map fun bits =>
    (List.range count).map fun i =>
      if bits &&& 2 ^ (i % 64) = 0 then .nonNull else .asNull

/-! ## One instruction -/

/-- `handle_call`: a nullable helper takes the next choice, NonNull when there is none left. -/
def handleCall (state : PathState) (insn : BpfInsn) : PathState :=
  let nullable (ptr : ℕ → AbsValue) : PathState :=
    let choice := state.schedule.getD state.scheduleCursor .nonNull
    let cursor :=
      if state.scheduleCursor < state.schedule.length then state.scheduleCursor + 1
      else state.scheduleCursor
    let next := { state with scheduleCursor := cursor, nextPtrId := state.nextPtrId + 1 }
    match choice with
    | .nonNull => next.set .r0 (ptr state.nextPtrId)
    | .asNull => next.set .r0 .null
  let called :=
    match (getHelper insn.imm).map HelperSpec.retType with
    | some .mapPtr => nullable .mapValuePtr
    | some .ringBufPtr => nullable .ringBufPtr
    | some .scalar | some .errorCode | some .kernelPtr | none => state.set .r0 .symbolic
  argRegs.foldl (fun s r => s.set r .symbolic) called

/-- Record a store through a ring-buffer pointer. -/
def recordWrite (state : PathState) (insn : BpfInsn) (width : MemWidth)
    (value : Option (BitVec 64)) : PathState :=
  match state.regs insn.dst with
  | .ringBufPtr id =>
    { state with ringbufWrites := state.ringbufWrites ++ [⟨id, insn.off, width, value⟩] }
  | _ => state

/-- `transfer_abstract`: an instruction without its jump. -/
def transferAbstract (state : PathState) (insn : BpfInsn) : PathState :=
  let after :=
    match insn.opcode with
    | .alu64 op .reg =>
      match op with
      | .mov => state.set insn.dst (state.regs insn.src)
      | _ => state.set insn.dst .symbolic
    | .alu64 op .imm =>
      match op with
      | .mov => state.set insn.dst (.concrete insn.immS)
      | .add =>
        match state.regs insn.dst with
        | .framePtr off => state.set insn.dst (.framePtr (off + insn.immS))
        | .ctxPtr off => state.set insn.dst (.ctxPtr (off + insn.immS))
        | .concrete v => state.set insn.dst (.concrete (v + insn.immS))
        | _ => state.set insn.dst .symbolic
      | .sub =>
        match state.regs insn.dst with
        | .framePtr off => state.set insn.dst (.framePtr (off - insn.immS))
        | .ctxPtr off => state.set insn.dst (.ctxPtr (off - insn.immS))
        | .concrete v => state.set insn.dst (.concrete (v - insn.immS))
        | _ => state.set insn.dst .symbolic
      | _ => state.set insn.dst .symbolic
    -- a 32-bit MOV sign-extends its immediate, like the 64-bit one
    | .alu32 .mov .imm => state.set insn.dst (.concrete insn.immS)
    | .alu32 _ _ => state.set insn.dst .symbolic
    | .ldImm64 => state.set insn.dst (.concrete insn.ldValue)
    | .ldx _ => state.set insn.dst .symbolic
    | .stx width =>
      recordWrite state insn width
        (match state.regs insn.src with
        | .concrete v => some v
        | _ => none)
    | .st width => recordWrite state insn width (some insn.immS)
    | .call => handleCall state insn
    | .jmp64 _ _ | .jmp32 _ _ | .jmpJa | .exit | .unknown _ => state
  after.goto (after.pc + 1)

/-- The comparisons a branch is resolved by. -/
def compareAbs (op : JmpOp) (v : AbsValue) (s : BitVec 64) : Option Bool :=
  match op, v with
  | .jeq, .null => if s = 0 then some true else none
  | .jne, .null => if s = 0 then some false else none
  | .jeq, .mapValuePtr _ | .jeq, .ringBufPtr _ => if s = 0 then some false else none
  | .jne, .mapValuePtr _ | .jne, .ringBufPtr _ => if s = 0 then some true else none
  | .jeq, .concrete v => some (v = s)
  | .jne, .concrete v => some (v ≠ s)
  | .jgt, .concrete v => some (v > s)
  | .jge, .concrete v => some (v ≥ s)
  | .jlt, .concrete v => some (v < s)
  | .jle, .concrete v => some (v ≤ s)
  | _, _ => none

/-- **`resolve_branch`**: whether a conditional jump is taken, if that is known. -/
def resolveBranch (state : PathState) (insn : BpfInsn) : Option Bool :=
  match insn.opcode with
  | .jmp64 op .imm | .jmp32 op .imm => compareAbs op (state.regs insn.dst) insn.immS
  | .jmp64 op .reg | .jmp32 op .reg =>
    match state.regs insn.src with
    | .concrete s => compareAbs op (state.regs insn.dst) s
    | _ => none
  | _ => none

/-- `(pc as i32 + 1 + offset as i32) as usize`. -/
def branchTarget (pc : ℕ) (offset : BitVec 16) : ℕ :=
  ((BitVec.ofNat 32 pc + 1 + offset.signExtend 32).signExtend 64).toNat

/-- `transfer_with_branches`, which always goes on: a branch that is not resolved falls through. -/
def transferWithBranches (state : PathState) (insn : BpfInsn) : PathState :=
  match insn.opcode with
  | .jmp64 _ _ | .jmp32 _ _ =>
    match resolveBranch state insn with
    | some true => state.goto (branchTarget state.pc insn.offset)
    | some false | none => state.goto (state.pc + 1)
  | .jmpJa => state.goto (branchTarget state.pc insn.offset)
  | .call => (handleCall state insn).goto (state.pc + 1)
  | .exit => state
  | _ => transferAbstract state insn

/-! ## Paths -/

/-- The abstract executor; its `run` is the loop of `execute_path`. -/
def interp (instructions : List BpfInsn) : Interp PathState BpfInsn where
  fetch state := instructions[state.pc]?
  halts insn := insn.opcode = .exit
  exec state insn := some (transferWithBranches state insn)

/-- **`execute_path`**: the run under a schedule, with two units of fuel for each instruction. -/
def executePath (instructions : List BpfInsn) (schedule : List PathChoice) (pathId : ℕ) :
    Option PathResult :=
  ((interp instructions).run (instructions.length * 2)
    { PathState.init with schedule := schedule }).map fun state =>
      ⟨pathId, schedule, state.returnValue, state.ringbufWrites⟩

/-- `single_path`: straight through the list, up to the first EXIT. -/
def singlePath (instructions : List BpfInsn) : PathResult :=
  let state := (instructions.takeWhile fun insn => insn.opcode ≠ .exit).foldl transferAbstract .init
  ⟨0, [], state.returnValue, state.ringbufWrites⟩

/-- **`analyse`.** -/
def analyse (instructions : List BpfInsn) : DataflowResult :=
  let count := countNullableHelpers instructions
  if count = 0 then ⟨[singlePath instructions], false⟩
  else
    ⟨(enumerateSchedules count).zipIdx.filterMap fun (schedule, pathId) =>
      executePath instructions schedule pathId, true⟩

/-! ## The generated module -/

/-- The schedules `generate_fstar` hands to the template. -/
def pathSchedules (dataflow : DataflowResult) : List Fstar.PathSchedule :=
  if dataflow.hasNullableHelpers then
    dataflow.paths.map fun path => path.schedule.map PathChoice.toFstar
  else []

/-- **The `program_satisfies_path` obligations of the module**: with at least one path, the
all-NonNull schedule and the paths after the first. -/
def pathObligations (prog : Fstar.BpfProgram) (dataflow : DataflowResult) :
    List Fstar.PathSchedule :=
  if (pathSchedules dataflow).isEmpty then []
  else Fstar.nonnullSched prog.length :: (pathSchedules dataflow).drop 1

end BpfVerifier.Dataflow
