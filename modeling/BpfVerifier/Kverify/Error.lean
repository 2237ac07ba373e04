import BpfVerifier.Bpf.Instruction

/-!
# Kverify/Error — what the verifier reports

A `VerifyError` is anchored to an instruction; `ErrorKind.discriminant` is the tag the report
deduplicates by.
-/

namespace BpfVerifier

/-- A DWARF source location. -/
structure SourceLoc where
  file : String
  path : String
  line : BitVec 32
  deriving DecidableEq, Repr

/-- What the verifier reports. -/
inductive ErrorKind where
  | uninitStackRead (offset : BitVec 64) (width : ℕ)
  | outOfBoundsAccess (reg : Reg) (ptrKind : String) (offset : BitVec 64) (width : ℕ)
      (regionSize : BitVec 64)
  | nullPointerDeref (reg : Reg) (originPc : Option ℕ) (originLoc : Option SourceLoc)
  | invalidPointerDeref (reg : Reg) (actual : String)
  | unknownHelper (id : BitVec 32)
  | invalidHelperArg (helper : String) (argIndex : ℕ) (expected actual : String)
  | complexityExceeded (limit visited : ℕ)
  | unboundedLoop (targetPc : ℕ)
  | uninitRegRead (reg : Reg)
  | invalidPointerArith (reg : Reg) (op : String)
  | divByZero (divisorReg : Reg)
  | fallThrough
  | unknownOpcode (raw : BitVec 8)
  | invalidReturnType (actual : String)
  | shiftOverflow (width : ℕ) (amount : BitVec 64)
  | ptrLeak (reg : Reg) (ptrKind : String)
  | uninitReturn
  deriving DecidableEq, Repr

/-- `std::mem::discriminant`: which variant an error kind is. -/
def ErrorKind.discriminant : ErrorKind → ℕ
  | uninitStackRead .. => 0
  | outOfBoundsAccess .. => 1
  | nullPointerDeref .. => 2
  | invalidPointerDeref .. => 3
  | unknownHelper .. => 4
  | invalidHelperArg .. => 5
  | complexityExceeded .. => 6
  | unboundedLoop .. => 7
  | uninitRegRead .. => 8
  | invalidPointerArith .. => 9
  | divByZero .. => 10
  | fallThrough => 11
  | unknownOpcode .. => 12
  | invalidReturnType .. => 13
  | shiftOverflow .. => 14
  | ptrLeak .. => 15
  | uninitReturn => 16

/-- A verification error anchored to a specific instruction. -/
structure VerifyError where
  pc : ℕ
  kind : ErrorKind
  sourceLoc : Option SourceLoc
  /-- Where the relevant pointer/value was created. -/
  originLoc : Option SourceLoc
  /-- The instruction where the offending register was last written. -/
  regWrittenAt : Option ℕ
  deriving DecidableEq, Repr

namespace VerifyError

def new (pc : ℕ) (kind : ErrorKind) : VerifyError := ⟨pc, kind, none, none, none⟩

def withSource (e : VerifyError) (loc : Option SourceLoc) : VerifyError :=
  { e with sourceLoc := loc }

def withOrigin (e : VerifyError) (loc : Option SourceLoc) : VerifyError :=
  { e with originLoc := loc }

/-- Attach the instruction where the offending register was last written. -/
def withRegProvenance (e : VerifyError) (writtenAt : Option ℕ) : VerifyError :=
  { e with regWrittenAt := writtenAt }

end VerifyError

/-- `errors.retain`: keep the first error of each kind at each instruction. -/
def dedupErrors : List (ℕ × ℕ) → List VerifyError → List VerifyError
  | _, [] => []
  | seen, e :: es =>
    let key := (e.pc, e.kind.discriminant)
    if key ∈ seen then dedupErrors seen es else e :: dedupErrors (key :: seen) es

/-- Deduplication starts by keeping the first error, so it empties no report. -/
theorem dedupErrors_eq_nil {es : List VerifyError} : dedupErrors [] es = [] ↔ es = [] := by
  cases es with
  | nil => simp [dedupErrors]
  | cons e es => simp [dedupErrors]

end BpfVerifier
