import BpfVerifier.Fstar.State

/-!
# Fstar/Helpers — `BPF.Helpers`, helper calls of the F* layer

Every helper is a `HelperSpec`: the registers it reads, the kind of its result and its side effect.
`execHelper` runs it; `execHelperSafe` is the copy the guarded executor uses.
-/

namespace BpfVerifier.Fstar

/-- What a helper returns in r0. -/
inductive HelperRet where
  | RetScalar | RetMapPtr | RetRingBufPtr | RetErrorCode
  deriving DecidableEq, Repr

/-- What a helper does besides setting r0. -/
inductive HelperEffect where
  | NoEffect | WriteMapValue | ReadIntoPtr
  deriving DecidableEq, Repr

structure HelperSpec where
  argsUsed : List Reg
  retType : HelperRet
  sideEffect : HelperEffect
  deriving DecidableEq, Repr

/-- `get_helper_spec`; an unknown helper has none. -/
def getHelperSpec : HelperId → Option HelperSpec
  | .MAP_LOOKUP_ELEM => some ⟨[.r1, .r2], .RetMapPtr, .NoEffect⟩
  | .MAP_UPDATE_ELEM => some ⟨[.r1, .r2, .r3, .r4], .RetErrorCode, .WriteMapValue⟩
  | .MAP_DELETE_ELEM => some ⟨[.r1, .r2], .RetErrorCode, .WriteMapValue⟩
  | .PROBE_READ => some ⟨[.r1, .r2, .r3], .RetErrorCode, .ReadIntoPtr⟩
  | .PROBE_READ_STR => some ⟨[.r1, .r2, .r3], .RetErrorCode, .ReadIntoPtr⟩
  | .PROBE_READ_USER => some ⟨[.r1, .r2, .r3], .RetErrorCode, .ReadIntoPtr⟩
  | .PROBE_READ_KERNEL => some ⟨[.r1, .r2, .r3], .RetErrorCode, .ReadIntoPtr⟩
  | .PROBE_READ_KERNEL_STR => some ⟨[.r1, .r2, .r3], .RetErrorCode, .ReadIntoPtr⟩
  | .D_PATH => some ⟨[.r1, .r2, .r3], .RetErrorCode, .ReadIntoPtr⟩
  | .GET_CURRENT_COMM => some ⟨[.r1, .r2], .RetErrorCode, .ReadIntoPtr⟩
  | .KTIME_GET_NS => some ⟨[], .RetScalar, .NoEffect⟩
  | .KTIME_GET_BOOT_NS => some ⟨[], .RetScalar, .NoEffect⟩
  | .GET_PRANDOM_U32 => some ⟨[], .RetScalar, .NoEffect⟩
  | .GET_CURRENT_PID_TGID => some ⟨[], .RetScalar, .NoEffect⟩
  | .GET_CURRENT_UID_GID => some ⟨[], .RetScalar, .NoEffect⟩
  | .GET_CURRENT_TASK => some ⟨[], .RetScalar, .NoEffect⟩
  | .GET_CURRENT_TASK_BTF => some ⟨[], .RetScalar, .NoEffect⟩
  | .TRACE_PRINTK => some ⟨[.r1, .r2], .RetErrorCode, .NoEffect⟩
  | .RINGBUF_RESERVE => some ⟨[.r1, .r2, .r3], .RetRingBufPtr, .NoEffect⟩
  | .RINGBUF_SUBMIT => some ⟨[.r1, .r2], .RetErrorCode, .NoEffect⟩
  | .RINGBUF_DISCARD => some ⟨[.r1, .r2], .RetErrorCode, .NoEffect⟩
  | .UNKNOWN_HELPER _ => none

/-- A helper that fills a buffer leaves a zero of eight bytes where r1 points, if that is in the
frame. -/
def applyHelperEffect (st₀ : BpfState) (eff : HelperEffect) : BpfState :=
  match eff with
  | .ReadIntoPtr =>
    match st₀.regs .r1 with
    | .framePtr off => { st₀ with stack := stackWrite st₀.stack off .dw 0 }
    | _ => st₀
  | _ => st₀

namespace BpfState

variable (st : BpfState)

/-- r0 := v, and on to the next instruction. -/
def returns (v : RegVal) : BpfState :=
  { st with regs := Fstar.setReg st.regs .r0 v, pc := st.pc + 1, regOrigins := st.originsAt .r0 }

/-- r0 := a fresh map-value pointer, whose value is modelled as zero. -/
def returnsMapPtr : BpfState :=
  { st with regs := Fstar.setReg st.regs .r0 (.mapValuePtr st.nextMapId)
            mapValues := (st.nextMapId, 0) :: st.mapValues
            pc := st.pc + 1
            nextMapId := st.nextMapId + 1
            regOrigins := st.originsAt .r0 }

/-- r0 := a fresh map-value pointer, without a value behind it. -/
def returnsMapPtrUnread : BpfState :=
  { st with regs := Fstar.setReg st.regs .r0 (.mapValuePtr st.nextMapId)
            pc := st.pc + 1
            nextMapId := st.nextMapId + 1
            regOrigins := st.originsAt .r0 }

/-- r0 := a fresh ring-buffer pointer. -/
def returnsRingBufPtr : BpfState :=
  { st with regs := Fstar.setReg st.regs .r0 (.ringBufPtr st.nextMapId)
            pc := st.pc + 1
            nextMapId := st.nextMapId + 1
            regOrigins := st.originsAt .r0 }

end BpfState

/-- `exec_helper`: the side effect, then r0 by the kind of result. -/
def execHelper (st₀ : BpfState) (spec : HelperSpec) : Option BpfState :=
  let st := applyHelperEffect st₀ spec.sideEffect
  match spec.retType with
  | .RetMapPtr => some st.returnsMapPtr
  | .RetRingBufPtr => some st.returnsRingBufPtr
  | .RetScalar => some (st.returns (.scalar 0))
  | .RetErrorCode => some (st.returns (.scalar 0))

/-- `exec_helper_safe`: the value of a looked-up element is there only with null evidence. -/
def execHelperSafe (st₀ : BpfState) (spec : HelperSpec) (nullSafe : Bool) : Option BpfState :=
  let st := applyHelperEffect st₀ spec.sideEffect
  match spec.retType with
  | .RetMapPtr => if nullSafe then some st.returnsMapPtr else some st.returnsMapPtrUnread
  | .RetRingBufPtr => some st.returnsRingBufPtr
  | .RetScalar => some (st.returns (.scalar 0))
  | .RetErrorCode => some (st.returns (.scalar 0))

/-! ## What a side effect changes -/

/-- **A side effect writes the stack or nothing.** -/
theorem applyHelperEffect_eq (st : BpfState) (eff : HelperEffect) :
    ∃ stack, applyHelperEffect st eff = { st with stack := stack } := by
  unfold applyHelperEffect
  split
  · split
    · exact ⟨_, rfl⟩
    · exact ⟨st.stack, rfl⟩
  · exact ⟨st.stack, rfl⟩

section

variable (st : BpfState) (eff : HelperEffect)

@[simp] theorem applyHelperEffect_regs : (applyHelperEffect st eff).regs = st.regs := by
  obtain ⟨stack, h⟩ := applyHelperEffect_eq st eff
  rw [h]

@[simp] theorem applyHelperEffect_pc : (applyHelperEffect st eff).pc = st.pc := by
  obtain ⟨stack, h⟩ := applyHelperEffect_eq st eff
  rw [h]

@[simp] theorem applyHelperEffect_mapValues :
    (applyHelperEffect st eff).mapValues = st.mapValues := by
  obtain ⟨stack, h⟩ := applyHelperEffect_eq st eff
  rw [h]

@[simp] theorem applyHelperEffect_ringbuf : (applyHelperEffect st eff).ringbuf = st.ringbuf := by
  obtain ⟨stack, h⟩ := applyHelperEffect_eq st eff
  rw [h]

@[simp] theorem applyHelperEffect_nextMapId :
    (applyHelperEffect st eff).nextMapId = st.nextMapId := by
  obtain ⟨stack, h⟩ := applyHelperEffect_eq st eff
  rw [h]

@[simp] theorem applyHelperEffect_originsAt (r : Reg) :
    (applyHelperEffect st eff).originsAt r = st.originsAt r := by
  obtain ⟨stack, h⟩ := applyHelperEffect_eq st eff
  rw [h]
  rfl

end

/-- The helpers that may return null: those whose result is a pointer. -/
def HelperSpec.nullable (spec : HelperSpec) : Bool :=
  match spec.retType with
  | .RetMapPtr | .RetRingBufPtr => true
  | .RetScalar | .RetErrorCode => false

end BpfVerifier.Fstar
