import BpfVerifier.Kverify.Transfer
import BpfVerifier.Machinery.Loop

/-!
# Kverify/Worklist — `check_with_relocs`

The walk over a programme's paths: fallthrough first, taken branches deferred on a backtrack stack,
states pruned when an explored state at the same instruction subsumes them, and widened into the
stored state at back-edge targets.  `transfer` is one instruction, `step` one pass of the loop.
-/

namespace BpfVerifier

/-- Maximum number of instructions processed across all paths. -/
def COMPLEXITY_LIMIT : ℕ := 1000000

/-- Explored states kept per instruction. -/
def MAX_STATES_PER_PC : ℕ := 32

/-- The inputs of the verifier. -/
structure Program where
  instructions : List BpfInsn
  sourceLocs : List (Option SourceLoc)
  relocations : AssocMap ℕ RelocTarget

/-- A programme without source locations or relocations. -/
def Program.ofInsns (instructions : List BpfInsn) : Program := ⟨instructions, [], .empty⟩

/-! ## Branch targets -/

/-- Raw slots an instruction occupies: LD_IMM64 takes two. -/
def slots (insn : BpfInsn) : ℕ := if insn.opcode = .ldImm64 then 2 else 1

/-- One instruction of `buildPcMap`: record its raw PC and advance. -/
def pcMapStep (acc : List ℕ × AssocMap ℕ ℕ × ℕ) (entry : BpfInsn × ℕ) :
    List ℕ × AssocMap ℕ ℕ × ℕ :=
  let (collapsedToRaw, rawToCollapsed, rawPc) := acc
  let (insn, idx) := entry
  (collapsedToRaw ++ [rawPc], rawToCollapsed.insert rawPc idx, rawPc + slots insn)

/-- The raw PC of every instruction, and the instruction starting at every raw PC. -/
def buildPcMap (instructions : List BpfInsn) : List ℕ × AssocMap ℕ ℕ :=
  let (collapsedToRaw, rawToCollapsed, _) :=
    instructions.zipIdx.foldl pcMapStep ([], .empty, 0)
  (collapsedToRaw, rawToCollapsed)

/-- The instruction a branch at `pc` with raw offset `offset` lands on, if one starts there. -/
def resolveBranchTarget (pc : ℕ) (offset : BitVec 16) (collapsedToRaw : List ℕ)
    (rawToCollapsed : AssocMap ℕ ℕ) : Option ℕ :=
  let rawPc := collapsedToRaw.getD pc 0
  let rawTarget : Int := rawPc + 1 + offset.toInt
  if rawTarget < 0 then none else rawToCollapsed.get rawTarget.toNat

namespace Program

variable (p : Program)

/-- Where the jump at `pc` goes. -/
def target (pc : ℕ) (insn : BpfInsn) : Option ℕ :=
  let (collapsedToRaw, rawToCollapsed) := buildPcMap p.instructions
  resolveBranchTarget pc insn.offset collapsedToRaw rawToCollapsed

/-- PCs that are targets of backward jumps. -/
def backEdgeTargets : List ℕ :=
  p.instructions.zipIdx.filterMap fun (insn, pc) =>
    match insn.opcode with
    | .jmpJa | .jmp64 _ _ | .jmp32 _ _ =>
      match p.target pc insn with
      | some t => if t ≤ pc then some t else none
      | none => none
    | _ => none

/-- The source location of an instruction. -/
def loc (pc : ℕ) : Option SourceLoc := (p.sourceLocs[pc]?).join

end Program

/-! ## One instruction -/

/-- What processing an instruction leads to. -/
inductive Outcome where
  /-- An error ends the path. -/
  | fail (e : VerifyError)
  /-- EXIT ends the path, possibly with an error. -/
  | exit (e : Option VerifyError)
  | goto (pc : ℕ) (state : VerifierState) (stack : StackState) (idGen : ℕ)
  /-- The taken edge is deferred, the fallthrough continues. -/
  | branch (target : ℕ) (fallPc : ℕ) (b : Branches)

/-- Continue with the next instruction, or end the path with the error. -/
def Outcome.ofExcept {α : Type} (r : Except VerifyError α) (k : α → Outcome) : Outcome :=
  match r with
  | .error e => .fail e
  | .ok a => k a

/-- Require a list of registers to be readable, in order. -/
def requireReadable (state : VerifierState) (regs : List Reg) (pc : ℕ) (loc : Option SourceLoc)
    (k : Outcome) : Outcome :=
  match regs.findSome? fun r => checkRegReadable state r pc loc with
  | some e => .fail e
  | none => k

/-- The registers a conditional jump reads. -/
def jmpReads (insn : BpfInsn) (src : Source) : List Reg :=
  if src = .reg then [insn.dst, insn.src] else [insn.dst]

/-- The registers an ALU instruction reads. -/
def aluReads (insn : BpfInsn) (op : AluOp) (src : Source) : List Reg :=
  (if op ≠ .mov then [insn.dst] else []) ++ (if src = .reg then [insn.src] else [])

/-- LD_IMM64: the type of the loaded register follows its relocation. -/
def loadImm64 (p : Program) (pc : ℕ) (insn : BpfInsn) (state : VerifierState) : VerifierState :=
  match p.relocations.get pc with
  | some (.map _) => state.setAt insn.dst .scalarUnknown pc
  | some (.data name) => state.set insn.dst (.unbounded (.dataPtr name))
  | some .coreFieldOffset => state.setAt insn.dst .kernelPtr pc
  | none => state.setAt insn.dst (.scalarValue insn.ldValue) pc

/-- The two edges of a conditional jump. -/
def jump (p : Program) (pc : ℕ) (insn : BpfInsn) (op : JmpOp) (src : Source) (is32 : Bool)
    (state : VerifierState) (stack : StackState) : Outcome :=
  requireReadable state (jmpReads insn src) pc (p.loc pc) <|
    match p.target pc insn with
    | none => .fail ((VerifyError.new pc .fallThrough).withSource (p.loc pc))
    | some t => .branch t (pc + 1) (refineBranch ⟨state, stack, state, stack⟩ insn op src is32)

/-- An ALU instruction, with its operand reads. -/
def alu (p : Program) (pc : ℕ) (insn : BpfInsn) (op : AluOp) (src : Source) (is64 : Bool)
    (state : VerifierState) (stack : StackState) (idGen : ℕ) : Outcome :=
  requireReadable state (aluReads insn op src) pc (p.loc pc) <|
    .ofExcept (checkAlu state insn op src is64 pc (p.loc pc)) fun s =>
      .goto (pc + 1) s stack idGen

/-- Process the instruction at `pc` in the given state. -/
def transfer (p : Program) (pc : ℕ) (insn : BpfInsn) (state : VerifierState) (stack : StackState)
    (idGen : ℕ) : Outcome :=
  let loc := p.loc pc
  match insn.opcode with
  | .unknown raw => .fail ((VerifyError.new pc (.unknownOpcode raw)).withSource loc)
  | .exit => .exit (checkExit state pc loc)
  | .call =>
    .ofExcept (checkCall state stack insn pc loc idGen) fun (s, k, id) => .goto (pc + 1) s k id
  | .jmpJa =>
    match p.target pc insn with
    | some t => .goto t state stack idGen
    | none => .fail ((VerifyError.new pc .fallThrough).withSource loc)
  | .jmp64 op src => jump p pc insn op src false state stack
  | .jmp32 op src => jump p pc insn op src true state stack
  | .alu64 op src => alu p pc insn op src true state stack idGen
  | .alu32 op src => alu p pc insn op src false state stack idGen
  | .ldImm64 => .goto (pc + 1) (loadImm64 p pc insn state) stack idGen
  | .ldx width =>
    requireReadable state [insn.src] pc loc <|
      .ofExcept (checkLoad state stack insn width pc loc p.sourceLocs) fun s =>
        .goto (pc + 1) s stack idGen
  | .stx width =>
    requireReadable state [insn.dst, insn.src] pc loc <|
      .ofExcept (checkStore state stack insn width (some (state.get insn.src)) pc loc
        p.sourceLocs) fun k => .goto (pc + 1) state k idGen
  | .st width =>
    requireReadable state [insn.dst] pc loc <|
      .ofExcept (checkStore state stack insn width none pc loc p.sourceLocs) fun k =>
        .goto (pc + 1) state k idGen

/-! ## The loop -/

/-- A deferred branch target on the backtrack stack. -/
structure WorkItem where
  pc : ℕ
  state : VerifierState
  stack : StackState

/-- The local variables of `check_with_relocs`.  `pc = none` stands for `usize::MAX`, which sends
the walk to the backtrack stack. -/
structure Walk where
  errors : List VerifyError
  totalVisited : ℕ
  idGen : ℕ
  reachedExit : Bool
  backtrack : List WorkItem
  explored : ℕ → List (VerifierState × StackState)
  pc : Option ℕ
  state : VerifierState
  stack : StackState

namespace Walk

/-- The walk before the first pass, at instruction 0. -/
def initial : Walk :=
  { errors := [], totalVisited := 0, idGen := 0, reachedExit := false, backtrack := [],
    explored := fun _ => [], pc := some 0, state := .entry, stack := .new }

/-- Pop a deferred branch, or leave the loop when there is none. -/
def popOrBreak (m : Walk) : Control Walk :=
  match m.backtrack with
  | item :: rest =>
    .next { m with backtrack := rest, pc := some item.pc, state := item.state,
                   stack := item.stack }
  | [] => .halt m

/-- Whether an already-explored state at this PC subsumes the current state. -/
def dominated (m : Walk) (pc : ℕ) : Bool :=
  (m.explored pc).any fun (prevRegs, prevStack) =>
    m.state.isSubstateOf prevRegs && m.stack.isSubstateOf prevStack

/-- Record the current state: widen into the stored one at a back-edge target, else store it. -/
def record (p : Program) (m : Walk) (pc : ℕ) : Walk :=
  match p.backEdgeTargets.contains pc, m.explored pc with
  | true, (prevRegs, prevStack) :: rest =>
    let regs := prevRegs.widen m.state
    let stack := prevStack.widen m.stack
    { m with explored := Function.update m.explored pc ((regs, stack) :: rest)
             state := regs
             stack := stack }
  | _, states =>
    if states.length < MAX_STATES_PER_PC then
      { m with explored := Function.update m.explored pc (states ++ [(m.state, m.stack)]) }
    else m

/-- Follow the outcome of an instruction. -/
def follow (m : Walk) (o : Outcome) : Walk :=
  match o with
  | .fail e => { m with errors := m.errors ++ [e], pc := none }
  | .exit e => { m with errors := m.errors ++ e.toList, reachedExit := true, pc := none }
  | .goto pc state stack idGen =>
    { m with pc := some pc, state := state, stack := stack, idGen := idGen }
  | .branch target fallPc b =>
    { m with
      backtrack := ⟨target, b.taken, b.takenStack⟩ :: m.backtrack
      pc := some fallPc
      state := b.fall
      stack := b.fallStack }

/-- The instruction the walk is at. -/
def current (p : Program) (m : Walk) : Option (ℕ × BpfInsn) :=
  m.pc.bind fun pc => p.instructions[pc]?.map fun insn => (pc, insn)

/-- One pass of the loop. -/
def step (p : Program) (m : Walk) : Control Walk :=
  match m.current p with
  | none => m.popOrBreak
  | some (pc, insn) =>
    let m := { m with totalVisited := m.totalVisited + 1 }
    if COMPLEXITY_LIMIT < m.totalVisited then
      .halt { m with
        errors := m.errors ++
          [VerifyError.new pc (.complexityExceeded COMPLEXITY_LIMIT m.totalVisited)] }
    else if m.dominated pc then m.popOrBreak
    else
      let m := m.record p pc
      .next (m.follow (transfer p pc insn m.state m.stack m.idGen))

end Walk

/-- Enough passes for every walk: one for each visit and one for each deferred branch. -/
def LOOP_FUEL : ℕ := 2 * COMPLEXITY_LIMIT + 2

/-- Result of verifying a BPF programme. -/
structure CheckResult where
  errors : List VerifyError
  instructionsVisited : ℕ

/-- The error that the budget is exceeded. -/
def ErrorKind.isComplexity : ErrorKind → Bool
  | .complexityExceeded .. => true
  | _ => false

/-- The errors of a finished walk: a walk that met no EXIT falls through. -/
def Walk.report (m : Walk) : List VerifyError :=
  if !m.reachedExit && !(m.errors.any fun e => e.kind.isComplexity) then
    m.errors ++ [VerifyError.new 0 .fallThrough]
  else m.errors

/-- Run the verifier with relocation info for LD_IMM64 instructions. -/
def checkWithRelocs (p : Program) : CheckResult :=
  if p.instructions.isEmpty then ⟨[VerifyError.new 0 .fallThrough], 0⟩
  else
    let m := Loop.iterate (Walk.step p) LOOP_FUEL .initial
    ⟨dedupErrors [] m.report, m.totalVisited⟩

/-- Run the kernel-style verifier on a BPF programme. -/
def check (instructions : List BpfInsn) (sourceLocs : List (Option SourceLoc)) : CheckResult :=
  checkWithRelocs ⟨instructions, sourceLocs, .empty⟩

/-- The verifier reports no error. -/
def CheckResult.passed (r : CheckResult) : Bool := r.errors.isEmpty

end BpfVerifier
