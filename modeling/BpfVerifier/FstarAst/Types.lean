import Mathlib.Algebra.Ring.Int.Defs
import Mathlib.Algebra.Ring.Nat
import Mathlib.Tactic.Common

/-!
# FstarAst/Types — `BPF.AST.Types`, the C types of the typed AST

The types an expression can have, the fields of structs and the programme types.
-/

namespace BpfVerifier.FstarAst

/-- `int_width`. -/
inductive IntWidth where
  | W8 | W16 | W32 | W64
  deriving DecidableEq, Repr

mutual

/-- `c_type`. -/
inductive CType where
  | CInt (w : IntWidth)
  | CUInt (w : IntWidth)
  | CBool
  | CVoid
  /-- A pointer that is not null. -/
  | CPtr (t : CType)
  /-- A pointer that may be null. -/
  | CPtrOrNull (t : CType)
  | CStruct (sd : StructDef)
  | CArray (elem : CType) (n : ℕ)

/-- `struct_def`. -/
inductive StructDef where
  | mk (structName : String) (fields : List (String × CType))

end

def StructDef.fields : StructDef → List (String × CType)
  | .mk _ fields => fields

open CType IntWidth

/-! ## Queries -/

/-- `field_type`. -/
def fieldType : List (String × CType) → String → Option CType
  | [], _ => none
  | (n, t) :: rest, name => if n = name then some t else fieldType rest name

def hasField (sd : StructDef) (name : String) : Bool := (fieldType sd.fields name).isSome

/-- `get_field_type`. -/
def getFieldType (sd : StructDef) (name : String) (h : hasField sd name = true) : CType :=
  (fieldType sd.fields name).get h

def isPtr : CType → Bool
  | CPtr _ | CPtrOrNull _ => true
  | _ => false

def isNumeric : CType → Bool
  | CInt _ | CUInt _ | CBool => true
  | _ => false

/-! ## Common types -/

def cU32 : CType := CUInt W32
def cU64 : CType := CUInt W64

/-- BPF programmes return a 32-bit signed number. -/
def cBpfReturn : CType := CInt W32

/-- `bpf_prog_type`. -/
inductive BpfProgType where
  | ProgSocketFilter | ProgXDP | ProgKprobe | ProgTracepoint | ProgPerfEvent | ProgCgroupSkb
  | ProgCgroupSock | ProgLwtIn | ProgLwtOut | ProgLwtXmit | ProgSchedCls | ProgSchedAct
  | ProgRawTracepoint | ProgFlowDissector
  deriving DecidableEq, Repr

end BpfVerifier.FstarAst
