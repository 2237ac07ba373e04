import BpfVerifier.Fstar.Semantics
import BpfVerifier.Machinery.Scan

/-!
# Checks/NullSafety — `BPF.Check.NullSafety`

One pass over the programme that follows lookup results until they are compared with zero.  A JA is
passed over as if it did nothing, and the states of loop heads are fixed in advance.
-/

namespace BpfVerifier.Fstar

/-- What is known of a register: a lookup result, checked or not, known to be null, or no map
pointer at all. -/
inductive NullStatus where
  | Checked | Unchecked | IsNull | NotMap
  deriving DecidableEq, Repr

abbrev AbsStateNs := Reg → NullStatus

def nsSet (abs : AbsStateNs) (r : Reg) (s : NullStatus) : AbsStateNs :=
  fun i => if i = r then s else abs i

def nsInit : AbsStateNs := fun _ => .NotMap

def joinStatus (a b : NullStatus) : NullStatus :=
  match a, b with
  | .Checked, .Checked => .Checked
  | .Unchecked, .Unchecked => .Unchecked
  | .IsNull, .IsNull => .IsNull
  | .NotMap, .NotMap => .NotMap
  | _, _ => .Unchecked

def joinStatesNs (a b : AbsStateNs) : AbsStateNs := fun r => joinStatus (a r) (b r)

/-- `is_safe_deref`. -/
def isSafeDeref : NullStatus → Bool
  | .Checked | .NotMap => true
  | .Unchecked | .IsNull => false

/-- The status of r0 after a call. -/
def callStatus (hid : HelperId) : NullStatus :=
  match getHelperSpec hid with
  | some spec =>
    match spec.retType with
    | .RetMapPtr | .RetRingBufPtr => .Unchecked
    | .RetScalar | .RetErrorCode => .NotMap
  | none => .NotMap

/-- r0 is the result of a call, r1–r5 are forgotten. -/
def afterCallNs (abs : AbsStateNs) (r0Status : NullStatus) : AbsStateNs :=
  nsSet (nsSet (nsSet (nsSet (nsSet (nsSet abs .r0 r0Status) .r1 .NotMap) .r2 .NotMap) .r3 .NotMap)
    .r4 .NotMap) .r5 .NotMap

/-- What `check_insn_ns` does after merging: the state that falls through and the jump saved. -/
def transferNs (abs : AbsStateNs) (insn : Insn) (pc : Int) :
    Option (AbsStateNs × Option (Int × AbsStateNs)) :=
  match insn with
  | .alu64Reg op dst src =>
    match op with
    | .mov => some (nsSet abs dst (abs src), none)
    | _ => some (nsSet abs dst .NotMap, none)
  | .alu64Imm _ dst _ => some (nsSet abs dst .NotMap, none)
  | .alu32Reg _ dst _ => some (nsSet abs dst .NotMap, none)
  | .alu32Imm _ dst _ => some (nsSet abs dst .NotMap, none)
  | .ldImm64 dst _ => some (nsSet abs dst .NotMap, none)
  | .ldx _ dst src _ => if isSafeDeref (abs src) then some (nsSet abs dst .NotMap, none) else none
  | .stx _ dst _ _ => if isSafeDeref (abs dst) then some (abs, none) else none
  | .st _ dst _ _ => if isSafeDeref (abs dst) then some (abs, none) else none
  | .jmp64Imm op dst imm offset =>
    if abs dst = .Unchecked ∧ signExtendToInt imm = 0 ∧ op = .jeq then
      some (nsSet abs dst .Checked, some (pc + 1 + offset, nsSet abs dst .IsNull))
    else if abs dst = .Unchecked ∧ signExtendToInt imm = 0 ∧ op = .jne then
      some (nsSet abs dst .IsNull, some (pc + 1 + offset, nsSet abs dst .Checked))
    else some (abs, some (pc + 1 + offset, abs))
  | .jmp64Reg _ _ _ offset => some (abs, some (pc + 1 + offset, abs))
  | .jmp32Imm _ _ _ offset => some (abs, some (pc + 1 + offset, abs))
  | .jmp32Reg _ _ _ offset => some (abs, some (pc + 1 + offset, abs))
  | .jmpJa _ => some (abs, none)
  | .call hid => some (afterCallNs abs (callStatus hid), none)
  | .exit => some (abs, none)

/-- The null-safety pass; its `checkInsn` is `check_insn_ns`, its `loop` `check_program_ns_loop`. -/
def nsScanner : Scanner AbsStateNs Insn := ⟨joinStatesNs, transferNs⟩

/-- `widen_ns`: r0–r5 are taken for no map pointers. -/
def widenNs (abs : AbsStateNs) : AbsStateNs :=
  nsSet (nsSet (nsSet (nsSet (nsSet (nsSet abs .r0 .NotMap) .r1 .NotMap) .r2 .NotMap) .r3 .NotMap)
    .r4 .NotMap) .r5 .NotMap

/-- The states saved for loop heads before the pass starts. -/
def nsTargets (prog : BpfProgram) : Scanner.Targets AbsStateNs :=
  nsScanner.initLoopTargets Insn.branchOffset (widenNs nsInit) prog 0 Scanner.emptyTargets

/-- **`null_check`.** -/
def nullCheck (prog : BpfProgram) : Bool := nsScanner.loop nsInit prog 0 (nsTargets prog)

/-- What the pass holds at an instruction, with what was saved for it joined in. -/
def nsAt (prog : BpfProgram) (k : ℕ) : Option AbsStateNs :=
  nsScanner.mergedAt nsInit prog (nsTargets prog) k

end BpfVerifier.Fstar
