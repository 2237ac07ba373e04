import BpfVerifier.Kverify.Branch
import BpfVerifier.Kverify.Error

/-!
# Kverify/Transfer — what one instruction does to the abstract state

The per-instruction checks of `check_with_relocs`: register readability, EXIT, CALL, ALU, load and
store.  Each returns the new state, or the error that ends the path.
-/

namespace BpfVerifier

open Word

/-- Maximum BPF stack size in bytes. -/
def STACK_SIZE : BitVec 64 := 512

/-- Default map value size when we don't have BTF info. -/
def DEFAULT_MAP_VALUE_SIZE : BitVec 32 := 65536

/-- Default ring buffer reservation size when we don't know the actual size. -/
def DEFAULT_RINGBUF_SIZE : BitVec 32 := 65536

/-- Context size. -/
def CTX_SIZE : BitVec 64 := 4096

/-- The target of an LD_IMM64 relocation. -/
inductive RelocTarget where
  | map (name : String)
  | data (name : String)
  /-- CO-RE field byte offset. -/
  | coreFieldOffset
  deriving DecidableEq, Repr

/-- Extract the origin PC from a pointer type, if available. -/
def ptrOriginPc : RegType → Option ℕ
  | .mapValuePtr _ _ _ originPc => some originPc
  | .ringBufPtr _ _ _ originPc => some originPc
  | .ptrOrNull _ originPc _ => originPc
  | _ => none

/-- Resolve an origin PC to a source location. -/
def resolveOrigin (originPc : Option ℕ) (sourceLocs : List (Option SourceLoc)) :
    Option SourceLoc :=
  originPc.bind fun pc => (sourceLocs[pc]?).join

/-! ## Reads and EXIT -/

/-- Registers must be written before they are read; R10 is always readable. -/
def checkRegReadable (state : VerifierState) (reg : Reg) (pc : ℕ) (loc : Option SourceLoc) :
    Option VerifyError :=
  if reg = .r10 then none
  else if !(state.get reg).isReadable then
    some ((VerifyError.new pc (.uninitRegRead reg)).withSource loc)
  else none

/-- R0 must be written, and hold no pointer, at EXIT.  Null and nullable types pass. -/
def checkExit (state : VerifierState) (pc : ℕ) (loc : Option SourceLoc) : Option VerifyError :=
  let r0 := state.get .r0
  if r0.regType = .uninit then some ((VerifyError.new pc .uninitReturn).withSource loc)
  else if r0.regType.isPtr then
    some ((VerifyError.new pc (.ptrLeak .r0 r0.regType.typeName)).withSource loc)
  else none

/-! ## CALL -/

/-- Whether an argument register's type is acceptable where the helper expects `expected`. -/
def ArgType.accepts (expected : ArgType) (actual : RegType) : Bool :=
  match expected, actual with
  | .any, _ => true
  | .scalar, .scalar | .scalar, .kernelPtr | .scalar, .null => true
  | .size, .scalar | .size, .kernelPtr | .size, .null => true
  | .flags, .scalar | .flags, .kernelPtr | .flags, .null => true
  | .ptrToStack, .framePtr _ => true
  | .mapPtr, .scalar => true
  | .ptrToMapKey, .framePtr _ | .ptrToMapKey, .mapValuePtr .. | .ptrToMapKey, .dataPtr _ => true
  | .ptrToMapValue, .framePtr _ | .ptrToMapValue, .mapValuePtr ..
  | .ptrToMapValue, .dataPtr _ => true
  | .ptrToRingBuf, .ringBufPtr .. => true
  | .ptrToMem, .framePtr _ | .ptrToMem, .mapValuePtr .. | .ptrToMem, .ringBufPtr .. => true
  | .ptrToReadonlyMem, .framePtr _ | .ptrToReadonlyMem, .mapValuePtr ..
  | .ptrToReadonlyMem, .dataPtr _ => true
  | _, _ => false

/-- Check the `i`-th argument register against the type the helper declares for it. -/
def checkArg (state : VerifierState) (pc : ℕ) (loc : Option SourceLoc) (helper : HelperSpec)
    (i : ℕ) (reg : Reg) (expected : ArgType) : Option VerifyError :=
  let actual := (state.get reg).regType
  if actual = .uninit then some ((VerifyError.new pc (.uninitRegRead reg)).withSource loc)
  else if expected.accepts actual then none
  else
    some ((VerifyError.new pc
      (.invalidHelperArg helper.name (i + 1) expected.description actual.display)).withSource loc)

/-- Validate helper arguments: the first offending one is reported. -/
def checkArgs (state : VerifierState) (pc : ℕ) (loc : Option SourceLoc) (helper : HelperSpec) :
    Option VerifyError :=
  (argRegs.zip helper.args).zipIdx.findSome? fun ((reg, expected), i) =>
    expected.bind (checkArg state pc loc helper i reg)

/-- The nullable pointer a helper returns, under a fresh id. -/
def nullable (inner : RegType) (pc id : ℕ) : RegState :=
  .unbounded (.ptrOrNull inner (some pc) id)

/-- The reservation size the verifier records for r2: its known value as u32, else the default. -/
def reserveSize (r2 : RegState) : BitVec 32 :=
  (r2.tnum.knownValue.map fun v => v.setWidth 32).getD DEFAULT_RINGBUF_SIZE

/-- The state of r0 after a call, and the next id. -/
def callReturn (state : VerifierState) (ret : HelperReturn) (pc id : ℕ) : RegState × ℕ :=
  match ret with
  | .scalar | .errorCode => (.scalarUnknown, id)
  | .kernelPtr => (.kernelPtr, id)
  | .mapPtr => (nullable (.mapValuePtr id 0 DEFAULT_MAP_VALUE_SIZE pc) pc id, id + 1)
  | .ringBufPtr =>
    (nullable (.ringBufPtr id 0 (reserveSize (state.get .r2)) pc) pc id, id + 1)

/-- The buffer size a call marks as written: `known_value().unwrap_or(0).min(512) as u8`. -/
def writeSize (r2 : RegState) : ℕ :=
  (minU (r2.tnum.knownValue.getD 0) 512).toNat % 256

/-- Helpers whose 8-byte output is spilled as a kernel pointer. -/
def isKernelRead (helper : HelperSpec) : Bool :=
  helper.id = 4 ∨ helper.id = 113 ∨ helper.id = 115

/-- Helpers that write through arg1. -/
def writesArg1 (helper : HelperSpec) : Bool :=
  helper.args[0]? = some (some .ptrToMem) ∨ helper.args[0]? = some (some .ptrToStack)

/-- Track helper memory writes through the buffer in arg1, of the size in arg2. -/
def trackHelperWrite (state : VerifierState) (stack : StackState) (helper : HelperSpec) :
    StackState :=
  match (state.get .r1).regType with
  | .framePtr dstOff =>
    if writesArg1 helper then
      let size := writeSize (state.get .r2)
      let stack := if 0 < size then stack.markWritten dstOff size else stack
      if size = 8 ∧ isKernelRead helper then stack.spill dstOff .kernelPtr else stack
    else stack
  | _ => stack

/-- Clobber caller-saved registers r1-r5. -/
def clobber (state : VerifierState) : VerifierState :=
  argRegs.foldl (fun s r => s.set r .uninit) state

/-- Check a helper call and apply it: r0 holds what the helper returns, r1–r5 are clobbered, and the
buffer the helper fills counts as written. -/
def checkCall (state : VerifierState) (stack : StackState) (insn : BpfInsn) (pc : ℕ)
    (loc : Option SourceLoc) (idGen : ℕ) :
    Except VerifyError (VerifierState × StackState × ℕ) :=
  match getHelper insn.imm with
  | none => .error ((VerifyError.new pc (.unknownHelper insn.imm)).withSource loc)
  | some helper =>
    match checkArgs state pc loc helper with
    | some e => .error e
    | none =>
      let (r0, idGen') := callReturn state helper.retType pc idGen
      let state' := state.set .r0 r0
      .ok (clobber state', trackHelperWrite state' stack helper, idGen')

/-! ## ALU -/

/-- Move a pointer by `delta`; an unknown `delta` keeps the pointer and resets its offset.  Kernel
and data pointers carry no offset. -/
def shiftPtr (t : RegType) (delta : Option (BitVec 64)) : RegType :=
  match t, delta with
  | .framePtr offset, some d => .framePtr (offset + d)
  | .ctxPtr offset, some d => .ctxPtr (offset + d)
  | .mapValuePtr id offset size originPc, some d => .mapValuePtr id (offset + d) size originPc
  | .ringBufPtr id offset size originPc, some d => .ringBufPtr id (offset + d) size originPc
  | .framePtr _, none => .framePtr 0
  | .ctxPtr _, none => .ctxPtr 0
  | .mapValuePtr id _ size originPc, none => .mapValuePtr id 0 size originPc
  | .ringBufPtr id _ size originPc, none => .ringBufPtr id 0 size originPc
  | .kernelPtr, _ => .kernelPtr
  | .dataPtr name, _ => .dataPtr name
  | _, _ => .scalar

/-- The operand of an ALU instruction, as the verifier tracks it. -/
def aluSrcState (state : VerifierState) (insn : BpfInsn) (src : Source) (is64 : Bool) : RegState :=
  match src with
  | .imm => .scalarValue (insn.immOf is64)
  | .reg => state.get insn.src

/-- A 32-bit register move clears the upper bits and demotes pointers to scalars. -/
def mov32 (r : RegState) : RegState :=
  { r with
    regType := .scalar
    tnum := r.tnum.trunc32
    umax := minU r.umax U32_MAX
    smin := maxS r.smin 0
    smax := minS r.smax U32_MAX }

/-- The state a move leaves in its destination. -/
def movState (operand : RegState) (src : Source) (is64 : Bool) : RegState :=
  match src with
  | .imm => operand
  | .reg => if is64 then operand else mov32 operand

/-- Whether the divisor of a DIV or MOD may be zero, and the register to blame. -/
def divByZero (state : VerifierState) (insn : BpfInsn) (src : Source) : Option Reg :=
  match src with
  | .imm => if insn.imm = 0 then some insn.dst else none
  | .reg => if (state.get insn.src).umin = 0 then some insn.src else none

/-- The largest legal shift amount. -/
def maxShift (is64 : Bool) : BitVec 64 := if is64 then 63 else 31

/-- A shift amount exceeding the operand width, if the verifier cannot exclude one. -/
def shiftOverflow (state : VerifierState) (insn : BpfInsn) (src : Source) (is64 : Bool) :
    Option (BitVec 64) :=
  let amount :=
    match src with
    | .imm => insn.immS
    | .reg => (state.get insn.src).umax
  if amount.ule (maxShift is64) then none else some amount

/-- The tnum of a scalar ALU result, computed on 64 bits.  The amount of an arithmetic shift is
taken modulo 64, as a build without overflow checks does; `arshPanics` is the shift that panics
with them. -/
def aluTnum (op : AluOp) (dst src : Tnum) : Tnum :=
  match op with
  | .add => dst.add src
  | .sub => dst.sub src
  | .and => dst.and src
  | .or => dst.or src
  | .xor => dst.xor src
  | .lsh =>
    match src.knownValue with
    | some s => dst.lsh (s.setWidth 32)
    | none => .unknown
  | .rsh =>
    match src.knownValue with
    | some s => dst.rsh (s.setWidth 32)
    | none => .unknown
  | .arsh =>
    match dst.knownValue, src.knownValue with
    | some a, some s => .constant (a.sshiftRight (s.toNat % 64))
    | _, _ => .unknown
  | .mul =>
    match dst.knownValue, src.knownValue with
    | some a, some b => .constant (a * b)
    | _, _ => .unknown
  | .div =>
    match dst.knownValue, src.knownValue with
    | some a, some b => if b ≠ 0 then .constant (a / b) else .unknown
    | _, _ => .unknown
  | .mod =>
    match dst.knownValue, src.knownValue with
    | some a, some b => if b ≠ 0 then .constant (a % b) else .unknown
    | _, _ => .unknown
  | .mov | .neg => .unknown

/-- The register state a scalar ALU result's tnum gives rise to. -/
def ofTnum (t : Tnum) : RegState :=
  { regType := .scalar, tnum := t, smin := t.minValue, smax := t.maxValue, umin := t.minValue,
    umax := t.maxValue, writtenAt := none }

/-- Scalar ALU: compute the result using tnum. -/
def scalarAlu (dst src : RegState) (op : AluOp) (is64 : Bool) : RegState :=
  let t := aluTnum op dst.tnum src.tnum
  (ofTnum (if is64 then t else t.trunc32)).refineBounds

/-- The result of every ALU operation but MOV and NEG, once the operand checks have passed. -/
def aluBinary (dst src : RegState) (op : AluOp) (is64 : Bool) (insn : BpfInsn) (pc : ℕ)
    (loc : Option SourceLoc) : Except VerifyError RegState :=
  let invalid (text : String) : VerifyError :=
    (VerifyError.new pc (.invalidPointerArith insn.dst text)).withSource loc
  if dst.regType.isPtr then
    if op = .add ∨ op = .sub then
      if src.regType.isPtr then
        -- ptr - ptr is the offset difference; ptr + ptr is never valid
        if op = .sub then .ok .scalarUnknown
        else .error (invalid (op.display ++ " ptr, ptr"))
      else
        let delta := src.tnum.knownValue.map fun v => if op = .add then v else -v
        .ok (.unbounded (shiftPtr dst.regType delta))
    else .error (invalid op.display)
  else if op = .add ∧ src.regType.isPtr then
    -- scalar + ptr: the roles are swapped
    .ok (.unbounded (shiftPtr src.regType dst.tnum.knownValue))
  else .ok (scalarAlu dst src op is64)

/-- Check an ALU instruction and write its result: MOV copies, NEG forgets, DIV and MOD ask for a
divisor above zero, and shifts for an amount below the width. -/
def checkAlu (state : VerifierState) (insn : BpfInsn) (op : AluOp) (src : Source) (is64 : Bool)
    (pc : ℕ) (loc : Option SourceLoc) : Except VerifyError VerifierState :=
  let dst := state.get insn.dst
  let operand := aluSrcState state insn src is64
  match op with
  | .mov => .ok (state.setAt insn.dst (movState operand src is64) pc)
  | .neg =>
    if dst.regType.isPtr then
      .error ((VerifyError.new pc (.invalidPointerArith insn.dst "NEG")).withSource loc)
    else .ok (state.setAt insn.dst .scalarUnknown pc)
  | _ =>
    match if op = .div ∨ op = .mod then divByZero state insn src else none with
    | some reg => .error ((VerifyError.new pc (.divByZero reg)).withSource loc)
    | none =>
      match
        if op = .lsh ∨ op = .rsh ∨ op = .arsh then shiftOverflow state insn src is64
        else none
      with
      | some amount =>
        .error ((VerifyError.new pc
          (.shiftOverflow (if is64 then 64 else 32) amount)).withSource loc)
      | none =>
        match aluBinary dst operand op is64 insn pc loc with
        | .error e => .error e
        | .ok r => .ok (state.setAt insn.dst r pc)

/-! ## Loads and stores -/

/-- An access of `width` bytes at `effOff` lies in a region of `size` bytes. -/
def regionOk (effOff : BitVec 64) (width : ℕ) (size : BitVec 64) : Bool :=
  !(effOff.slt 0) && (effOff + BitVec.ofNat 64 width).sle size

/-- The error an access through a register of the given type reports, if any. -/
def accessError (base : RegState) (reg : Reg) (offset : BitVec 64) (width : ℕ) (pc : ℕ)
    (loc : Option SourceLoc) (sourceLocs : List (Option SourceLoc)) : Option VerifyError :=
  let origin := resolveOrigin (ptrOriginPc base.regType) sourceLocs
  let outOfBounds (ptrKind : String) (effOff size : BitVec 64) : VerifyError :=
    (VerifyError.new pc (.outOfBoundsAccess reg ptrKind effOff width size)).withSource loc
  match base.regType with
  | .framePtr ptrOff =>
    if StackState.checkBounds (ptrOff + offset) width then none
    else some (outOfBounds "stack" (ptrOff + offset) STACK_SIZE)
  | .mapValuePtr _ ptrOff size _ =>
    if regionOk (ptrOff + offset) width (size.setWidth 64) then none
    else some ((outOfBounds "map value" (ptrOff + offset) (size.setWidth 64)).withOrigin origin)
  | .ctxPtr ptrOff =>
    if regionOk (ptrOff + offset) width CTX_SIZE then none
    else some (outOfBounds "context" (ptrOff + offset) CTX_SIZE)
  | .ringBufPtr _ ptrOff size _ =>
    if regionOk (ptrOff + offset) width (size.setWidth 64) then none
    else some ((outOfBounds "ring buffer" (ptrOff + offset) (size.setWidth 64)).withOrigin origin)
  | .kernelPtr => none
  | .dataPtr _ => none
  | .ptrOrNull _ opc _ =>
    some ((VerifyError.new pc
      (.nullPointerDeref reg opc (resolveOrigin opc sourceLocs))).withSource loc)
  | .null => some ((VerifyError.new pc (.nullPointerDeref reg none none)).withSource loc)
  | .scalar =>
    some (((VerifyError.new pc
      (.invalidPointerDeref reg "scalar")).withSource loc).withRegProvenance base.writtenAt)
  | .uninit => some ((VerifyError.new pc (.uninitRegRead reg)).withSource loc)

/-- The state a load leaves in its destination, once the access is accepted. -/
def loadResult (stack : StackState) (base : RegState) (offset : BitVec 64) (width : ℕ) :
    RegState :=
  match base.regType with
  | .framePtr ptrOff =>
    if width = 8 then (stack.getSpill (ptrOff + offset)).getD .scalarUnknown else .scalarUnknown
  | .ctxPtr _ | .kernelPtr => if width = 8 then .kernelPtr else .scalarUnknown
  | _ => .scalarUnknown

/-- A load from the stack must find every byte written. -/
def uninitStackRead (stack : StackState) (base : RegState) (offset : BitVec 64) (width pc : ℕ)
    (loc : Option SourceLoc) : Option VerifyError :=
  match base.regType with
  | .framePtr ptrOff =>
    if stack.checkReadable (ptrOff + offset) width then none
    else some ((VerifyError.new pc (.uninitStackRead (ptrOff + offset) width)).withSource loc)
  | _ => none

/-- Check a load, of the frame for written bytes too, and write what is known of the result. -/
def checkLoad (state : VerifierState) (stack : StackState) (insn : BpfInsn) (width : MemWidth)
    (pc : ℕ) (loc : Option SourceLoc) (sourceLocs : List (Option SourceLoc)) :
    Except VerifyError VerifierState :=
  let base := state.get insn.src
  let bytes := widthBytes width
  match accessError base insn.src insn.off bytes pc loc sourceLocs with
  | some e => .error e
  | none =>
    match uninitStackRead stack base insn.off bytes pc loc with
    | some e => .error e
    | none => .ok (state.setAt insn.dst (loadResult stack base insn.off bytes) pc)

/-- A frame or context pointer must not be stored to untracked memory. -/
def storeLeak (base val : RegType) : Bool :=
  let isBpfPtr :=
    match val with
    | .framePtr _ | .ctxPtr _ => true
    | _ => false
  let dstIsTracked :=
    match base with
    | .framePtr _ | .mapValuePtr .. | .ringBufPtr .. => true
    | _ => false
  isBpfPtr && !dstIsTracked

/-- The stack after an accepted store: 8-byte stores of pointers are spills, every other store
clears the spill at its own offset. -/
def storeStack (stack : StackState) (base : RegState) (val : Option RegState) (offset : BitVec 64)
    (width : ℕ) : StackState :=
  match base.regType with
  | .framePtr ptrOff =>
    let effOff := ptrOff + offset
    let plain := (stack.clearSpill effOff).markWritten effOff width
    match val with
    | some v =>
      if width = 8 ∧ (v.regType.isPtr ∨ v.regType.isPtrOrNull) then stack.spill effOff v else plain
    | none => plain
  | _ => stack

/-- Check a store and record it in the frame; `val` is the stored register of an STX, and absent for
an ST. -/
def checkStore (state : VerifierState) (stack : StackState) (insn : BpfInsn) (width : MemWidth)
    (val : Option RegState) (pc : ℕ) (loc : Option SourceLoc)
    (sourceLocs : List (Option SourceLoc)) : Except VerifyError StackState :=
  let base := state.get insn.dst
  let bytes := widthBytes width
  match val.bind fun v => if storeLeak base.regType v.regType then some v else none with
  | some v => .error ((VerifyError.new pc (.ptrLeak insn.src v.regType.typeName)).withSource loc)
  | none =>
    match accessError base insn.dst insn.off bytes pc loc sourceLocs with
    | some e => .error e
    | none => .ok (storeStack stack base val insn.off bytes)

end BpfVerifier
