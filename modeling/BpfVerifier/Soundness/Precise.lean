import BpfVerifier.Kverify.Coverage
import BpfVerifier.Soundness.Refine

/-!
# Soundness/Precise — the walks that take no unsound step

The transfer functions and the merges of the verifier are sound but for a handful of branches.  Each
predicate below says of one kind of step that it takes none of them; `Program.Precise` says it of
every step of a programme's walk.  All of them are tests on verifier states, and `Loop.testAll`
decides them on a given programme.
-/

namespace BpfVerifier

open Loop

/-! ## ALU -/

/-- The pointers whose offset the verifier tracks. -/
def RegType.hasOffset : RegType → Bool
  | framePtr _ | ctxPtr _ | mapValuePtr .. | ringBufPtr .. => true
  | _ => false

/-- A pointer with a tracked offset moves by a known 64-bit amount.  (Otherwise the verifier resets
the offset to zero, or moves the pointer on 64 bits where the machine truncates it.) -/
def shiftExact (t : RegType) (addend : Tnum) (is64 : Bool) : Bool :=
  !t.hasOffset || (is64 && addend.isKnown)

def aluPrecise (state : VerifierState) (insn : BpfInsn) (op : AluOp) (src : Source)
    (is64 : Bool) : Bool :=
  let dst := state.get insn.dst
  let operand := aluSrcState state insn src is64
  match op with
  | .mov => src = .imm || is64 || mov32Exact operand
  | .neg => true
  | _ =>
    if dst.regType.isPtr then
      operand.regType.isPtr || shiftExact dst.regType operand.tnum is64
    else if op = .add && operand.regType.isPtr then shiftExact operand.regType dst.tnum is64
    else scalarExact dst.tnum operand.tnum op is64

/-- What is asked of the operations other than MOV and NEG. -/
theorem aluPrecise_of_binary {state : VerifierState} {insn : BpfInsn} {op : AluOp} {src : Source}
    {is64 : Bool} (hmov : op ≠ .mov) (hneg : op ≠ .neg) :
    aluPrecise state insn op src is64
      = if (state.get insn.dst).regType.isPtr then
          (aluSrcState state insn src is64).regType.isPtr
            || shiftExact (state.get insn.dst).regType (aluSrcState state insn src is64).tnum is64
        else if op = .add && (aluSrcState state insn src is64).regType.isPtr then
          shiftExact (aluSrcState state insn src is64).regType (state.get insn.dst).tnum is64
        else
          scalarExact (state.get insn.dst).tnum (aluSrcState state insn src is64).tnum op is64 := by
  unfold aluPrecise
  split
  · exact absurd rfl hmov
  · exact absurd rfl hneg
  · rfl

/-! ## Branches -/

/-- A null test is made on 64 bits, and a signed 32-bit comparison narrows only values it reads as
they are. -/
def branchPrecise (state : VerifierState) (insn : BpfInsn) (op : JmpOp) (src : Source)
    (is32 : Bool) : Bool :=
  match cmpVal state insn src is32, (state.get insn.dst).regType with
  | some val, .ptrOrNull .. => !(is32 && val = 0 && (op = .jeq || op = .jne))
  | some _, .scalar => !(is32 && op.isSigned) || signed32Exact (state.get insn.dst)
  | _, _ => true

/-! ## Memory -/

/-- The end of the accessed range does not overflow. -/
def noWrap (start : BitVec 64) (width : ℕ) : Bool := start.sle (start + BitVec.ofNat 64 width)

/-- The bounds check of an access to a sized object is not fooled by overflow. -/
def regionPrecise (base : RegState) (off : BitVec 64) (width : ℕ) : Bool :=
  match base.regType with
  | .mapValuePtr _ o _ _ | .ctxPtr o | .ringBufPtr _ o _ _ => noWrap (o + off) width
  | _ => true

/-- No byte of the 8-byte slot at `k` is among the `n` bytes from `o` on. -/
def apart (k o : BitVec 64) (n : ℕ) : Bool :=
  (List.range 8).all fun i => n ≤ (k + BitVec.ofNat 64 i - o).toNat

/-- A store stays clear of every tracked spill but the one at its own offset. -/
def storePrecise (stack : StackState) (base : RegState) (off : BitVec 64) (width : ℕ) : Bool :=
  regionPrecise base off width &&
  match base.regType with
  | .framePtr o =>
    noWrap (512 + (o + off)) width &&
      stack.spills.entries.all fun e => e.1 = o + off || apart e.1 (o + off) width
  | _ => true

/-- The output buffer of a helper, as the verifier sees it: pointer and size. -/
def bufferRegs (state : VerifierState) (helper : HelperSpec) : Option (RegState × RegState) :=
  if helper.args[0]? = some (some .ptrToMem) then some (state.get .r1, state.get .r2)
  else if helper.args[1]? = some (some .ptrToMem) then some (state.get .r2, state.get .r3)
  else none

/-- The call replaces the spill at the start of its buffer by a kernel pointer. -/
def respills (state : VerifierState) (helper : HelperSpec) : Bool :=
  writesArg1 helper && writeSize (state.get .r2) = 8 && isKernelRead helper

/-- The output buffer of a helper overlaps no spill that stays tracked. -/
def callPrecise (state : VerifierState) (stack : StackState) (helper : HelperSpec) : Bool :=
  match bufferRegs state helper with
  | some (ptr, size) =>
    match ptr.regType with
    | .framePtr o =>
      stack.spills.entries.all fun e =>
        (respills state helper && e.1 = o) || apart e.1 o size.umax.toNat
    | _ => true
  | none => true

/-! ## One instruction -/

/-- Processing the instruction takes no unsound step. -/
def transferPrecise (insn : BpfInsn) (state : VerifierState) (stack : StackState) : Bool :=
  match insn.opcode with
  | .alu64 op src => aluPrecise state insn op src true
  | .alu32 op src => aluPrecise state insn op src false
  | .jmp64 op src => branchPrecise state insn op src false
  | .jmp32 op src => branchPrecise state insn op src true
  | .call =>
    match getHelper insn.imm with
    | some helper => callPrecise state stack helper
    | none => true
  | .ldx width => regionPrecise (state.get insn.src) insn.off (widthBytes width)
  | .stx width | .st width => storePrecise stack (state.get insn.dst) insn.off (widthBytes width)
  | .unknown _ | .exit | .jmpJa | .ldImm64 => true

theorem transferPrecise_alu {insn : BpfInsn} {op : AluOp} {src : Source} {is64 : Bool}
    (hop : insn.opcode = if is64 then .alu64 op src else .alu32 op src) (state : VerifierState)
    (stack : StackState) :
    transferPrecise insn state stack = aluPrecise state insn op src is64 := by
  cases is64 <;> simp only [transferPrecise, hop, Bool.false_eq_true, if_false, if_true]

theorem transferPrecise_jmp {insn : BpfInsn} {op : JmpOp} {src : Source} {is32 : Bool}
    (hop : insn.opcode = if is32 then .jmp32 op src else .jmp64 op src) (state : VerifierState)
    (stack : StackState) :
    transferPrecise insn state stack = branchPrecise state insn op src is32 := by
  cases is32 <;> simp only [transferPrecise, hop, Bool.false_eq_true, if_false, if_true]

/-! ## Merges -/

/-- Subsuming one register by another loses no value: signed ranges that wrap are not compared with
ones that do not. -/
def subsumePrecise (r r' : RegState) : Bool := r'.regType ≠ .scalar || r.signedKeeps r'

/-- Widening a stored register by the current one loses no value of the current one: the types
agree, or the register ends up uninitialised. -/
def widenPrecise (q r : RegState) : Bool :=
  if q.regType = r.regType then r.regType ≠ .scalar || r.signedKeeps (q.widenScalar r)
  else q.regType = .uninit || r.regType = .uninit

/-- Every spill the kept stack tracks is one that keeps the current stack's at the same offset. -/
def spillsPrecise (keeps : RegState → RegState → Bool) (kept stack : StackState) : Bool :=
  kept.spills.entries.all fun e =>
    match stack.getSpill e.1 with
    | some r => keeps r e.2
    | none => false

/-- Pruning the current state in favour of an explored one loses nothing. -/
def prunePrecise (state : VerifierState) (stack : StackState)
    (e : VerifierState × StackState) : Bool :=
  (Reg.all.all fun r => subsumePrecise (state.get r) (e.1.get r)) &&
    spillsPrecise (fun r r' => r.isSubstateOf r' && subsumePrecise r r') e.2 stack

/-- Widening the stored state by the current one loses nothing of the current one. -/
def recordPrecise (p : Program) (m : Walk) (pc : ℕ) : Bool :=
  match p.backEdgeTargets.contains pc, m.explored pc with
  | true, (regs, stack) :: _ =>
    (Reg.all.all fun r => widenPrecise (regs.get r) (m.state.get r)) &&
      spillsPrecise (fun r q => widenPrecise q r) stack m.stack
  | _, _ => true

/-! ## Walks -/

/-- This pass of the walk takes no unsound step. -/
def Walk.precise (p : Program) (m : Walk) : Bool :=
  match m.current p with
  | none => true
  | some (pc, insn) =>
    if m.dominated pc then
      (m.explored pc).any fun e =>
        m.state.isSubstateOf e.1 && m.stack.isSubstateOf e.2 && prunePrecise m.state m.stack e
    else
      recordPrecise p m pc && transferPrecise insn (m.record p pc).state (m.record p pc).stack

/-- **No step of the programme's walk is an unsound one.** -/
def Program.Precise (p : Program) : Prop :=
  ∀ m, Reaches (Walk.step p) .initial m → m.precise p = true

/-- A test of every pass of the walk. -/
theorem Program.precise_of_testAll {p : Program}
    (h : testAll (Walk.step p) (Walk.precise p) LOOP_FUEL .initial = true) : p.Precise :=
  fun _ hr => of_testAll h hr

end BpfVerifier
