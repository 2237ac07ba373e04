import BpfVerifier.Bpf.Instruction

/-!
# Fstar/State — `BPF.State`, the machine state of the F* layer

Registers hold typed values, the stack is a list of `(offset, width, value)` slots in which a load
looks for the first slot of its own offset and width, and every nullable lookup is known by the id
it was given.
-/

namespace BpfVerifier.Fstar

/-- What a register holds. -/
inductive RegVal where
  | scalar (n : BitVec 64)
  /-- A pointer into the frame, as an offset from r10. -/
  | framePtr (off : Int)
  | mapValuePtr (id : ℕ)
  | ringBufPtr (id : ℕ)
  | ctxPtr (off : Int)
  | null
  deriving DecidableEq, Repr

/-- `reg_file`. -/
abbrev RegFile := Reg → RegVal

def setReg (regs : RegFile) (r : Reg) (v : RegVal) : RegFile :=
  fun i => if i = r then v else regs i

/-- The number in a register, when it holds one. -/
def scalarVal : RegVal → Option (BitVec 64)
  | .scalar n => some n
  | _ => none

/-! ## Stack memory -/

def stackSize : Int := 512

structure StackSlot where
  offset : Int
  width : MemWidth
  value : BitVec 64
  deriving DecidableEq, Repr

abbrev StackMem := List StackSlot

def stackOffsetValid (offset : Int) (width : MemWidth) : Bool :=
  let idx := stackSize + offset
  0 ≤ idx && idx + widthBytes width ≤ stackSize

def stackRead : StackMem → Int → MemWidth → Option (BitVec 64)
  | [], _, _ => none
  | slot :: rest, offset, width =>
    if slot.offset = offset ∧ slot.width = width then some slot.value
    else stackRead rest offset width

def stackWrite (stack : StackMem) (offset : Int) (width : MemWidth) (v : BitVec 64) : StackMem :=
  ⟨offset, width, v⟩ :: stack

/-! ## Map values and ring buffer -/

/-- The value behind each lookup id. -/
abbrev MapValueMem := List (ℕ × BitVec 64)

def mapValueRead : MapValueMem → ℕ → Option (BitVec 64)
  | [], _ => none
  | (mid, v) :: rest, id => if mid = id then some v else mapValueRead rest id

structure RingbufSlot where
  rbId : ℕ
  rbOffset : Int
  rbWidth : MemWidth
  rbValue : BitVec 64
  deriving DecidableEq, Repr

abbrev RingbufMem := List RingbufSlot

def ringbufRead : RingbufMem → ℕ → Int → MemWidth → Option (BitVec 64)
  | [], _, _, _ => none
  | slot :: rest, id, offset, width =>
    if slot.rbId = id ∧ slot.rbOffset = offset ∧ slot.rbWidth = width then some slot.rbValue
    else ringbufRead rest id offset width

/-- `ringbuf_read_any`: the record apart. -/
def ringbufReadAny : RingbufMem → Int → MemWidth → Option (BitVec 64)
  | [], _, _ => none
  | slot :: rest, offset, width =>
    if slot.rbOffset = offset ∧ slot.rbWidth = width then some slot.rbValue
    else ringbufReadAny rest offset width

def ringbufWriteCount (mem : RingbufMem) : ℕ := mem.length

def ringbufWrite (mem : RingbufMem) (id : ℕ) (offset : Int) (width : MemWidth) (v : BitVec 64) :
    RingbufMem :=
  ⟨id, offset, width, v⟩ :: mem

/-! ## Machine state -/

/-- `bpf_state`. -/
structure BpfState where
  regs : RegFile
  pc : Int
  stack : StackMem
  mapValues : MapValueMem
  ringbuf : RingbufMem
  nextMapId : ℕ
  /-- The instruction that last wrote each register. -/
  regOrigins : Reg → ℕ

namespace BpfState

/-- A state with zero in every register and nothing in memory. -/
def blank : BpfState := ⟨fun _ => .scalar 0, 0, [], [], [], 0, fun _ => 0⟩

variable (st : BpfState)

/-- The origin a write at the current instruction records. -/
def origin : ℕ := if 0 ≤ st.pc then st.pc.toNat else 0

/-- `reg_origins` after a write of `r`. -/
def originsAt (r : Reg) : Reg → ℕ := fun i => if i = r then st.origin else st.regOrigins i

/-- `state_set_reg`: write a register and go to the next instruction. -/
def setReg (r : Reg) (v : RegVal) : BpfState :=
  { st with regs := Fstar.setReg st.regs r v, pc := st.pc + 1, regOrigins := st.originsAt r }

def stackLoad (offset : Int) (width : MemWidth) : Option (BitVec 64) :=
  if !stackOffsetValid offset width then none else stackRead st.stack offset width

def stackStore (offset : Int) (width : MemWidth) (v : BitVec 64) : Option BpfState :=
  if !stackOffsetValid offset width then none
  else some { st with stack := stackWrite st.stack offset width v, pc := st.pc + 1 }

/-- `{ st with pc = pc }`. -/
def jump (pc : Int) : BpfState := { st with pc := pc }

/-- The frame and context pointers a programme is entered with. -/
def entry : BpfState :=
  { st with pc := 0
            regs := Fstar.setReg (Fstar.setReg st.regs .r10 (.framePtr 0)) .r1 (.ctxPtr 0) }

end BpfState

/-! ## What a write changes -/

@[simp] theorem setReg_self (regs : RegFile) (r : Reg) (v : RegVal) : setReg regs r v r = v := by
  simp [setReg]

theorem setReg_of_ne (regs : RegFile) {r i : Reg} (v : RegVal) (h : i ≠ r) :
    setReg regs r v i = regs i := by
  simp [setReg, h]

/-- A register file determines what was written into it. -/
theorem setReg_inj {regs : RegFile} {r : Reg} {v v' : RegVal} :
    setReg regs r v = setReg regs r v' ↔ v = v' := by
  constructor
  · intro h
    simpa using congrFun h r
  · rintro rfl
    rfl

theorem scalarVal_eq_some {v : RegVal} {n : BitVec 64} :
    scalarVal v = some n ↔ v = .scalar n := by
  cases v <;> simp [scalarVal]

namespace BpfState

variable (st : BpfState) (r : Reg) (v : RegVal)

@[simp] theorem setReg_regs : (st.setReg r v).regs = Fstar.setReg st.regs r v := rfl
@[simp] theorem setReg_pc : (st.setReg r v).pc = st.pc + 1 := rfl
@[simp] theorem setReg_stack : (st.setReg r v).stack = st.stack := rfl
@[simp] theorem setReg_mapValues : (st.setReg r v).mapValues = st.mapValues := rfl
@[simp] theorem setReg_ringbuf : (st.setReg r v).ringbuf = st.ringbuf := rfl
@[simp] theorem setReg_nextMapId : (st.setReg r v).nextMapId = st.nextMapId := rfl

@[simp] theorem jump_regs (pc : Int) : (st.jump pc).regs = st.regs := rfl
@[simp] theorem jump_pc (pc : Int) : (st.jump pc).pc = pc := rfl
@[simp] theorem jump_mapValues (pc : Int) : (st.jump pc).mapValues = st.mapValues := rfl

@[simp] theorem entry_pc : st.entry.pc = 0 := rfl
@[simp] theorem entry_mapValues : st.entry.mapValues = st.mapValues := rfl

variable {st}

/-- A store that succeeds is in bounds and writes one slot. -/
theorem stackStore_eq_some {st' : BpfState} {offset : Int} {width : MemWidth} {n : BitVec 64} :
    st.stackStore offset width n = some st' ↔ stackOffsetValid offset width = true ∧
      st' = { st with stack := stackWrite st.stack offset width n, pc := st.pc + 1 } := by
  unfold stackStore
  cases stackOffsetValid offset width <;> simp [eq_comm]

/-- A load that succeeds is in bounds and finds a slot. -/
theorem stackLoad_eq_some {offset : Int} {width : MemWidth} {n : BitVec 64} :
    st.stackLoad offset width = some n ↔ stackOffsetValid offset width = true ∧
      stackRead st.stack offset width = some n := by
  unfold stackLoad
  cases stackOffsetValid offset width <;> simp

end BpfState

/-! ## What is known of the registers -/

section

variable {A : Type} {D : A → RegVal → Prop} {abs : Reg → A} {regs : RegFile}

/-- What is known of each register is true of it. -/
def Described (D : A → RegVal → Prop) (abs : Reg → A) (regs : RegFile) : Prop :=
  ∀ r, D (abs r) (regs r)

theorem Described.set (h : Described D abs regs) (dst : Reg) {a : A} {v : RegVal} (hv : D a v) :
    Described D (fun r => if r = dst then a else abs r) (setReg regs dst v) := by
  intro r
  by_cases heq : r = dst
  · simpa [setReg, heq] using hv
  · simpa [setReg, heq] using h r

/-- A register may be forgotten. -/
theorem Described.forget (h : Described D abs regs) (dst : Reg) {a : A} (ha : D a (regs dst)) :
    Described D (fun r => if r = dst then a else abs r) regs := by
  intro r
  dsimp only
  split
  · next heq => exact heq ▸ ha
  · exact h r

end

/-! ## Memory is read by searching for a slot -/

theorem stackRead_eq (stack : StackMem) (offset : Int) (width : MemWidth) :
    stackRead stack offset width =
      (stack.find? fun slot => slot.offset = offset ∧ slot.width = width).map (·.value) := by
  induction stack with
  | nil => rfl
  | cons slot rest ih =>
    rw [stackRead, List.find?_cons, ih]
    by_cases h : slot.offset = offset ∧ slot.width = width
    · rw [if_pos h, decide_eq_true h]
      rfl
    · rw [if_neg h, decide_eq_false h]

theorem mapValueRead_eq (mem : MapValueMem) (id : ℕ) :
    mapValueRead mem id = (mem.find? fun entry => entry.1 = id).map (·.2) := by
  induction mem with
  | nil => rfl
  | cons entry rest ih =>
    rw [mapValueRead, List.find?_cons, ih]
    by_cases h : entry.1 = id
    · rw [if_pos h, decide_eq_true h]
      rfl
    · rw [if_neg h, decide_eq_false h]

theorem ringbufRead_eq (mem : RingbufMem) (id : ℕ) (offset : Int) (width : MemWidth) :
    ringbufRead mem id offset width =
      (mem.find? fun slot => slot.rbId = id ∧ slot.rbOffset = offset ∧ slot.rbWidth = width).map
        (·.rbValue) := by
  induction mem with
  | nil => rfl
  | cons slot rest ih =>
    rw [ringbufRead, List.find?_cons, ih]
    by_cases h : slot.rbId = id ∧ slot.rbOffset = offset ∧ slot.rbWidth = width
    · rw [if_pos h, decide_eq_true h]
      rfl
    · rw [if_neg h, decide_eq_false h]

theorem ringbufReadAny_eq (mem : RingbufMem) (offset : Int) (width : MemWidth) :
    ringbufReadAny mem offset width =
      (mem.find? fun slot => slot.rbOffset = offset ∧ slot.rbWidth = width).map (·.rbValue) := by
  induction mem with
  | nil => rfl
  | cons slot rest ih =>
    rw [ringbufReadAny, List.find?_cons, ih]
    by_cases h : slot.rbOffset = offset ∧ slot.rbWidth = width
    · rw [if_pos h, decide_eq_true h]
      rfl
    · rw [if_neg h, decide_eq_false h]

/-! ## Helpers by name -/

/-- `helper_id`. -/
inductive HelperId where
  | MAP_LOOKUP_ELEM | MAP_UPDATE_ELEM | MAP_DELETE_ELEM | PROBE_READ | KTIME_GET_NS
  | TRACE_PRINTK | GET_PRANDOM_U32 | GET_CURRENT_PID_TGID | GET_CURRENT_UID_GID
  | GET_CURRENT_COMM | GET_CURRENT_TASK | PROBE_READ_STR | PROBE_READ_USER | PROBE_READ_KERNEL
  | PROBE_READ_KERNEL_STR | KTIME_GET_BOOT_NS | RINGBUF_RESERVE | RINGBUF_SUBMIT
  | RINGBUF_DISCARD | D_PATH | GET_CURRENT_TASK_BTF
  | UNKNOWN_HELPER (id : ℕ)
  deriving DecidableEq, Repr

end BpfVerifier.Fstar
