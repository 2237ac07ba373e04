import BpfVerifier.Bpf.Instruction

/-!
# Bpf/Helpers — the helper table

Every helper a programme may call, with its argument and return types, and the lookup by id.
-/

namespace BpfVerifier

/-- What a helper returns in r0. -/
inductive HelperReturn where
  | scalar | mapPtr | ringBufPtr | errorCode | kernelPtr
  deriving DecidableEq, Repr

/-- Expected type for a helper argument register. -/
inductive ArgType where
  | any | scalar | ptrToStack | mapPtr | ptrToMapKey | ptrToMapValue | size | ptrToRingBuf
  | flags | ptrToMem | ptrToReadonlyMem
  deriving DecidableEq, Repr

/-- The wording an argument type has in a diagnostic. -/
def ArgType.description : ArgType → String
  | .any => "any"
  | .scalar => "scalar"
  | .ptrToStack => "pointer to stack"
  | .mapPtr => "map pointer"
  | .ptrToMapKey => "pointer to map key"
  | .ptrToMapValue => "pointer to map value"
  | .size => "size (scalar)"
  | .ptrToRingBuf => "pointer to ring buffer"
  | .flags => "flags (scalar)"
  | .ptrToMem => "pointer to memory"
  | .ptrToReadonlyMem => "pointer to readable memory"

/-- One row of the helper table. -/
structure HelperSpec where
  id : BitVec 32
  name : String
  retType : HelperReturn
  /-- Expected types for arguments r1-r5; `none` means the argument is unused. -/
  args : List (Option ArgType)
  deriving DecidableEq, Repr

def HELPERS : List HelperSpec := [
  ⟨1, "MAP_LOOKUP_ELEM", .mapPtr, [some .mapPtr, some .ptrToMapKey, none, none, none]⟩,
  ⟨2, "MAP_UPDATE_ELEM", .errorCode,
    [some .mapPtr, some .ptrToMapKey, some .ptrToMapValue, some .flags, none]⟩,
  ⟨3, "MAP_DELETE_ELEM", .errorCode, [some .mapPtr, some .ptrToMapKey, none, none, none]⟩,
  ⟨4, "PROBE_READ", .errorCode, [some .ptrToMem, some .size, some .scalar, none, none]⟩,
  ⟨5, "KTIME_GET_NS", .scalar, [none, none, none, none, none]⟩,
  ⟨6, "TRACE_PRINTK", .errorCode, [some .ptrToReadonlyMem, some .size, none, none, none]⟩,
  ⟨7, "GET_PRANDOM_U32", .scalar, [none, none, none, none, none]⟩,
  ⟨14, "GET_CURRENT_PID_TGID", .scalar, [none, none, none, none, none]⟩,
  ⟨15, "GET_CURRENT_UID_GID", .scalar, [none, none, none, none, none]⟩,
  ⟨16, "GET_CURRENT_COMM", .errorCode, [some .ptrToMem, some .size, none, none, none]⟩,
  ⟨35, "GET_CURRENT_TASK", .kernelPtr, [none, none, none, none, none]⟩,
  ⟨45, "PROBE_READ_STR", .errorCode, [some .ptrToMem, some .size, some .any, none, none]⟩,
  ⟨112, "PROBE_READ_USER", .errorCode, [some .ptrToMem, some .size, some .scalar, none, none]⟩,
  ⟨113, "PROBE_READ_KERNEL", .errorCode, [some .ptrToMem, some .size, some .scalar, none, none]⟩,
  ⟨115, "PROBE_READ_KERNEL_STR", .errorCode,
    [some .ptrToMem, some .size, some .scalar, none, none]⟩,
  ⟨125, "KTIME_GET_BOOT_NS", .scalar, [none, none, none, none, none]⟩,
  ⟨131, "RINGBUF_RESERVE", .ringBufPtr, [some .mapPtr, some .size, some .flags, none, none]⟩,
  ⟨132, "RINGBUF_SUBMIT", .errorCode, [some .ptrToRingBuf, some .flags, none, none, none]⟩,
  ⟨133, "RINGBUF_DISCARD", .errorCode, [some .ptrToRingBuf, some .flags, none, none, none]⟩,
  ⟨147, "D_PATH", .errorCode, [some .scalar, some .ptrToMem, some .size, none, none]⟩,
  ⟨158, "GET_CURRENT_TASK_BTF", .kernelPtr, [none, none, none, none, none]⟩,
  ⟨181, "LOOP", .scalar, [some .scalar, some .any, some .any, some .flags, none]⟩]

/-- Look a helper up by id. -/
def getHelper (id : BitVec 32) : Option HelperSpec :=
  HELPERS.find? fun h => h.id = id

theorem mem_helpers_of_getHelper {id : BitVec 32} {h : HelperSpec} (hg : getHelper id = some h) :
    h ∈ HELPERS := List.mem_of_find?_eq_some hg

/-- The registers arguments are passed in. -/
def argRegs : List Reg := [.r1, .r2, .r3, .r4, .r5]

/-- Every row of the table lists one entry for each argument register. -/
theorem length_args {h : HelperSpec} (hm : h ∈ HELPERS) : h.args.length = argRegs.length := by
  revert h
  decide

/-- A table row whose first argument is an output buffer takes its length second. -/
theorem size_of_ptrToMem {h : HelperSpec} (hm : h ∈ HELPERS)
    (h₀ : h.args[0]? = some (some .ptrToMem)) : h.args[1]? = some (some .size) := by
  revert h
  decide

/-- No helper's first argument is declared as a stack buffer of known size. -/
theorem args_head_ne_ptrToStack {h : HelperSpec} (hm : h ∈ HELPERS) :
    h.args[0]? ≠ some (some .ptrToStack) := by
  revert h
  decide

end BpfVerifier
