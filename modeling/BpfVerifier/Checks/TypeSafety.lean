import BpfVerifier.Fstar.Semantics

/-!
# Checks/TypeSafety — `BPF.Check.TypeSafety`

One pass over the programme, as if it had no jumps, that follows the kind of value each register
holds.  A register whose kind is lost (`TUnknown`) passes every check.
-/

namespace BpfVerifier.Fstar

/-- The kind of value in a register. -/
inductive AbsType where
  | TScalar | TFramePtr | TMapPtr | TRingBufPtr | TCtxPtr | TNull | TUnknown
  deriving DecidableEq, Repr

abbrev AbsStateTs := Reg → AbsType

def tsSet (abs : AbsStateTs) (r : Reg) (t : AbsType) : AbsStateTs :=
  fun i => if i = r then t else abs i

def tsInit : AbsStateTs := fun r =>
  if r = .r10 then .TFramePtr else if r = .r1 then .TCtxPtr else .TUnknown

def isScalarType : AbsType → Bool
  | .TScalar | .TUnknown => true
  | _ => false

def isLoadBase : AbsType → Bool
  | .TFramePtr | .TMapPtr | .TRingBufPtr | .TCtxPtr | .TUnknown => true
  | _ => false

def isStoreBase : AbsType → Bool
  | .TFramePtr | .TRingBufPtr | .TUnknown => true
  | _ => false

/-- The kind of r0 after a call. -/
def callType (hid : HelperId) : AbsType :=
  match getHelperSpec hid with
  | some spec =>
    match spec.retType with
    | .RetMapPtr | .RetRingBufPtr => .TUnknown
    | .RetScalar | .RetErrorCode => .TScalar
  | none => .TUnknown

/-- **`check_insn_ts`.** -/
def checkInsnTs (abs : AbsStateTs) (insn : Insn) : Option AbsStateTs :=
  match insn with
  | .alu64Reg op dst src =>
    match op with
    | .mov => some (tsSet abs dst (abs src))
    | _ =>
      if isScalarType (abs dst) && isScalarType (abs src) then some (tsSet abs dst .TScalar)
      else none
  | .alu64Imm op dst _ =>
    match op with
    | .mov => some (tsSet abs dst .TScalar)
    | .add | .sub =>
      match abs dst with
      | .TFramePtr => some (tsSet abs dst .TFramePtr)
      | .TCtxPtr => some (tsSet abs dst .TCtxPtr)
      | .TScalar => some (tsSet abs dst .TScalar)
      | .TUnknown => some (tsSet abs dst .TUnknown)
      | _ => none
    | _ => if isScalarType (abs dst) then some (tsSet abs dst .TScalar) else none
  | .alu32Reg op dst src =>
    match op with
    | .mov => if isScalarType (abs src) then some (tsSet abs dst .TScalar) else none
    | _ =>
      if isScalarType (abs dst) && isScalarType (abs src) then some (tsSet abs dst .TScalar)
      else none
  | .alu32Imm op dst _ =>
    match op with
    | .mov => some (tsSet abs dst .TScalar)
    | _ => if isScalarType (abs dst) then some (tsSet abs dst .TScalar) else none
  | .ldImm64 dst _ => some (tsSet abs dst .TScalar)
  | .ldx _ dst src _ => if isLoadBase (abs src) then some (tsSet abs dst .TScalar) else none
  | .stx _ dst src _ => if isStoreBase (abs dst) && isScalarType (abs src) then some abs else none
  | .st _ dst _ _ => if isStoreBase (abs dst) then some abs else none
  | .jmp64Reg _ _ _ _ | .jmp64Imm _ _ _ _ | .jmp32Reg _ _ _ _ | .jmp32Imm _ _ _ _ | .jmpJa _ =>
    some abs
  | .call hid =>
    some (tsSet (tsSet (tsSet (tsSet (tsSet (tsSet abs .r0 (callType hid)) .r1 .TUnknown) .r2
      .TUnknown) .r3 .TUnknown) .r4 .TUnknown) .r5 .TUnknown)
  | .exit => some abs

/-- `check_program_ts_loop`. -/
def checkProgramTsLoop (abs : AbsStateTs) : BpfProgram → Bool
  | [] => true
  | insn :: rest =>
    match checkInsnTs abs insn with
    | none => false
    | some abs' => checkProgramTsLoop abs' rest

/-- **`type_check`.** -/
def typeCheck (prog : BpfProgram) : Bool := checkProgramTsLoop tsInit prog

/-- What the pass holds on reaching instruction `k`. -/
def tsAt (prog : BpfProgram) (k : ℕ) : Option AbsStateTs := (prog.take k).foldlM checkInsnTs tsInit

end BpfVerifier.Fstar
