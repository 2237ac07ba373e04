import BpfVerifier.Kverify.Worklist

/-!
# Concrete/Machine — running a programme

The machine the verifier's promises are about.  A value is a word with its provenance: which object
it points into, when the programme derived it from a pointer by moves, additions and subtractions
(and spills).  Everything outside the programme — what memory holds, what a helper returns, whether
a lookup misses — is an `Oracle`, one for each step.

Map, ring-buffer and data memory may hand back an 8-byte value stored there before (`stored`);
context and kernel memory hand back numbers and kernel pointers.  A value put together from pieces
of different stores is a number.
-/

namespace BpfVerifier

/-! ## Values -/

/-- What a value was derived from. -/
inductive Prov where
  | number
  | frame
  | ctx
  | mapValue (call : ℕ)
  | ringBuf (call pc : ℕ) (reserved : BitVec 64)
  | kernel
  | data (name : String)
  /-- The null result of a nullable helper. -/
  | null (call : ℕ)
  deriving DecidableEq, Repr

/-- The provenances of pointers. -/
def Prov.isPtr : Prov → Bool
  | .number | .null _ => false
  | .frame | .ctx | .mapValue _ | .ringBuf .. | .kernel | .data _ => true

/-- A word with its provenance. -/
structure Val where
  bits : BitVec 64
  prov : Prov
  deriving DecidableEq, Repr

namespace Val

def number (bits : BitVec 64) : Val := ⟨bits, .number⟩

/-- The value points into some object. -/
def isPtr (v : Val) : Bool := v.prov.isPtr

/-- The value is the null result of a nullable helper. -/
def IsNull (v : Val) : Prop := ∃ call, v = ⟨0, .null call⟩

end Val

/-- Where the objects of a run lie. -/
structure Layout where
  frameTop : BitVec 64
  ctxBase : BitVec 64
  /-- The value a lookup, and the record a reservation, made by the given call finds. -/
  mapBase : ℕ → BitVec 64
  ringBase : ℕ → BitVec 64
  dataBase : String → BitVec 64
  mapBase_ne_zero : ∀ call, mapBase call ≠ 0
  ringBase_ne_zero : ∀ call, ringBase call ≠ 0

/-- The address offsets into an object count from. -/
def Layout.base (L : Layout) : Prov → BitVec 64
  | .frame => L.frameTop
  | .ctx => L.ctxBase
  | .mapValue call => L.mapBase call
  | .ringBuf call _ _ => L.ringBase call
  | .data name => L.dataBase name
  | .number | .kernel | .null _ => 0

/-- The offset an access through `v` lands at, in the object `v` points into. -/
def Layout.offset (L : Layout) (v : Val) (off : BitVec 64) : BitVec 64 :=
  v.bits + off - L.base v.prov

/-! ## Arithmetic -/

/-- ALU operations on `n`-bit words: division by zero gives zero, modulo by zero keeps the
dividend, shift amounts are masked. -/
def aluWord {n : ℕ} (op : AluOp) (x y : BitVec n) : BitVec n :=
  match op with
  | .add => x + y
  | .sub => x - y
  | .mul => x * y
  | .div => x / y
  | .mod => x % y
  | .or => x ||| y
  | .and => x &&& y
  | .xor => x ^^^ y
  | .lsh => x <<< (y.toNat % n)
  | .rsh => x >>> (y.toNat % n)
  | .arsh => x.sshiftRight (y.toNat % n)
  | .neg => -x
  | .mov => y

/-- 32-bit operations read the low halves and clear the upper half of the result. -/
def aluBits (is64 : Bool) (op : AluOp) (x y : BitVec 64) : BitVec 64 :=
  if is64 then aluWord op x y
  else (aluWord op (x.setWidth 32) (y.setWidth 32)).setWidth 64

/-- A move hands the provenance on, a pointer plus or minus a number is derived from the pointer,
and any other operation derives a pointer only by reproducing one of its operands. -/
def aluProv (op : AluOp) (dst src : Val) (bits : BitVec 64) : Prov :=
  match op with
  | .mov => if bits = src.bits then src.prov else .number
  | .neg => .number
  | .add =>
    match dst.isPtr, src.isPtr with
    | true, false => dst.prov
    | false, true => src.prov
    | _, _ => .number
  | .sub => if dst.isPtr && !src.isPtr then dst.prov else .number
  | _ =>
    if dst.isPtr && bits = dst.bits then dst.prov
    else if src.isPtr && bits = src.bits then src.prov
    else .number

def aluVal (is64 : Bool) (op : AluOp) (dst src : Val) : Val :=
  let bits := aluBits is64 op dst.bits src.bits
  ⟨bits, aluProv op dst src bits⟩

/-- The comparison of a conditional jump. -/
def compare {n : ℕ} (op : JmpOp) (x y : BitVec n) : Bool :=
  match op with
  | .ja => true
  | .jeq => x = y
  | .jne => x ≠ y
  | .jgt => y.ult x
  | .jge => y.ule x
  | .jlt => x.ult y
  | .jle => x.ule y
  | .jset => x &&& y ≠ 0
  | .jsgt => y.slt x
  | .jsge => y.sle x
  | .jslt => x.slt y
  | .jsle => x.sle y

/-- A 32-bit jump compares the low halves. -/
def jumpTaken (is32 : Bool) (op : JmpOp) (x y : BitVec 64) : Bool :=
  if is32 then compare op (x.setWidth 32) (y.setWidth 32) else compare op x y

/-! ## The frame -/

/-- One byte of the frame: the byte `idx` of a stored value. -/
structure Frag where
  val : Val
  idx : ℕ
  deriving DecidableEq, Repr

def Frag.byte (f : Frag) : BitVec 8 := (f.val.bits >>> (8 * f.idx)).setWidth 8

/-- A byte of plain data. -/
def Frag.plain (b : BitVec 8) : Frag := ⟨.number (b.setWidth 64), 0⟩

/-- The eight bytes from `o` on are the bytes of one value, in order. -/
def wholeAt (frame : BitVec 64 → Frag) (o : BitVec 64) : Bool :=
  (List.range 8).all fun i => frame (o + BitVec.ofNat 64 i) = ⟨(frame o).val, i⟩

/-- The `width` bytes from `o` on as a little-endian word. -/
def assemble (frame : BitVec 64 → Frag) (o : BitVec 64) (width : ℕ) : BitVec 64 :=
  (List.range width).foldl
    (fun acc i => acc ||| ((frame (o + BitVec.ofNat 64 i)).byte.setWidth 64 <<< (8 * i))) 0

/-- Read the frame at offset `o`: a stored value comes back whole or as a number. -/
def readFrame (frame : BitVec 64 → Frag) (o : BitVec 64) (width : MemWidth) : Val :=
  if width = .dw && wholeAt frame o then (frame o).val
  else .number (assemble frame o (widthBytes width))

/-- The bytes of a store: a full store carries its value, a narrower one the bytes of a number. -/
def storeFrag (v : Val) (width : MemWidth) (i : ℕ) : Frag :=
  ⟨if width = .dw then v else .number v.bits, i⟩

/-- Replace the `n` bytes from `o` on. -/
def overwrite {α : Type*} (f : BitVec 64 → α) (o : BitVec 64) (n : ℕ) (new : ℕ → α)
    (k : BitVec 64) : α :=
  if (k - o).toNat < n then new (k - o).toNat else f k

/-! ## States and steps -/

/-- What the outside world decides at one step. -/
structure Oracle where
  /-- The word a load, a helper or a relocation produces. -/
  bits : BitVec 64
  /-- Whether a word loaded from context or kernel memory is a kernel pointer. -/
  kernel : Bool
  /-- Which value stored outside the frame a load hands back, if any. -/
  reload : Option ℕ
  /-- Whether a nullable helper returns null. -/
  null : Bool
  /-- The bytes a helper writes to its output buffer. -/
  bytes : ℕ → BitVec 8
  /-- What a helper leaves in r1–r5. -/
  scratch : Reg → Val

/-- A state of the machine. -/
structure MState where
  pc : ℕ
  regs : Reg → Val
  /-- The bytes of the frame, by offset from the frame top. -/
  frame : BitVec 64 → Frag
  /-- Frame bytes written on this run, by a store or by a helper through r1. -/
  written : BitVec 64 → Bool
  /-- The 8-byte values stored to map, ring-buffer and data memory. -/
  stored : List Val
  /-- Calls made so far. -/
  calls : ℕ

namespace MState

variable (L : Layout) (ω : Oracle) (s : MState)

/-- Go on to the next instruction with a new value in `dst`. -/
def advance (dst : Reg) (v : Val) : MState :=
  { s with pc := s.pc + 1, regs := Function.update s.regs dst v }

theorem regs_advance (dst : Reg) (v : Val) (r : Reg) :
    (s.advance dst v).regs r = if r = dst then v else s.regs r :=
  Function.update_apply s.regs dst v r

/-- The second operand of an instruction. -/
def operand (insn : BpfInsn) (src : Source) (is64 : Bool) : Val :=
  match src with
  | .imm => .number (insn.immOf is64)
  | .reg => s.regs insn.src

/-- A word of the given width, zero-extended. -/
def truncate (width : MemWidth) (bits : BitVec 64) : BitVec 64 :=
  (bits.setWidth (8 * widthBytes width)).setWidth 64

/-- The value a load through `base` reads. -/
def loadVal (base : Val) (off : BitVec 64) (width : MemWidth) : Val :=
  match base.prov with
  | .frame => readFrame s.frame (L.offset base off) width
  | .mapValue _ | .ringBuf .. | .data _ =>
    if width = .dw then
      ((ω.reload.bind fun i => s.stored[i]?).getD (.number ω.bits))
    else .number (truncate width ω.bits)
  | .ctx | .kernel | .number | .null _ =>
    if width = .dw && ω.kernel then ⟨ω.bits, .kernel⟩ else .number (truncate width ω.bits)

/-- The memory after a store through `base`. -/
def storeVal (base : Val) (off : BitVec 64) (width : MemWidth) (v : Val) : MState :=
  match base.prov with
  | .frame =>
    { s with
      frame := overwrite s.frame (L.offset base off) (widthBytes width) (storeFrag v width)
      written := overwrite s.written (L.offset base off) (widthBytes width) fun _ => true }
  | .mapValue _ | .ringBuf .. | .data _ =>
    if width = .dw then { s with stored := s.stored ++ [v] } else s
  | .ctx | .kernel | .number | .null _ => s

/-- The output buffer of a helper: its pointer and its size. -/
def outBuffer (helper : HelperSpec) : Option (Val × BitVec 64) :=
  if helper.args[0]? = some (some .ptrToMem) then some (s.regs .r1, (s.regs .r2).bits)
  else if helper.args[1]? = some (some .ptrToMem) then some (s.regs .r2, (s.regs .r3).bits)
  else none

/-- The helper fills its output buffer.  Bytes written through r1 count as initialised. -/
def fillBuffer (helper : HelperSpec) : MState :=
  match s.outBuffer helper with
  | some (ptr, size) =>
    if ptr.prov = .frame then
      { s with
        frame := overwrite s.frame (L.offset ptr 0) size.toNat fun i => .plain (ω.bytes i)
        written :=
          if helper.args[0]? = some (some .ptrToMem) then
            overwrite s.written (L.offset ptr 0) size.toNat fun _ => true
          else s.written }
    else s
  | none => s

/-- What a helper returns. -/
def returned (ret : HelperReturn) : Val :=
  match ret with
  | .scalar | .errorCode => .number ω.bits
  | .kernelPtr => ⟨ω.bits, .kernel⟩
  | .mapPtr =>
    if ω.null then ⟨0, .null s.calls⟩ else ⟨L.mapBase s.calls, .mapValue s.calls⟩
  | .ringBufPtr =>
    if ω.null then ⟨0, .null s.calls⟩
    else ⟨L.ringBase s.calls, .ringBuf s.calls s.pc (s.regs .r2).bits⟩

/-- A helper call: r0 is the result, r1–r5 are lost. -/
def callHelper (helper : HelperSpec) : MState :=
  { s.fillBuffer L ω helper with
    pc := s.pc + 1
    regs := fun r =>
      if r = .r0 then s.returned L ω helper.retType
      else if r ∈ argRegs then ω.scratch r else s.regs r
    calls := s.calls + 1 }

/-- The value LD_IMM64 loads, after relocation. -/
def immediate (p : Program) (insn : BpfInsn) : Val :=
  match p.relocations.get s.pc with
  | some (.map _) => .number ω.bits
  | some (.data name) => ⟨L.dataBase name, .data name⟩
  | some .coreFieldOffset => .number ω.bits
  | none => .number insn.ldValue

/-- A conditional jump. -/
def branch (p : Program) (insn : BpfInsn) (op : JmpOp) (src : Source) (is32 : Bool) :
    Option MState :=
  if jumpTaken is32 op (s.regs insn.dst).bits (s.operand insn src (!is32)).bits then
    (p.target s.pc insn).map fun t => { s with pc := t }
  else some { s with pc := s.pc + 1 }

/-- Execute one instruction; there is no next state at EXIT, or where the instruction makes no
sense. -/
def execute (p : Program) (insn : BpfInsn) : Option MState :=
  match insn.opcode with
  | .unknown _ | .exit => none
  | .alu64 op src =>
    some (s.advance insn.dst (aluVal true op (s.regs insn.dst) (s.operand insn src true)))
  | .alu32 op src =>
    some (s.advance insn.dst (aluVal false op (s.regs insn.dst) (s.operand insn src false)))
  | .ldx width => some (s.advance insn.dst (s.loadVal L ω (s.regs insn.src) insn.off width))
  | .stx width =>
    some { s.storeVal L (s.regs insn.dst) insn.off width (s.regs insn.src) with pc := s.pc + 1 }
  | .st width =>
    some { s.storeVal L (s.regs insn.dst) insn.off width (.number insn.immS) with pc := s.pc + 1 }
  | .jmp64 op src => s.branch p insn op src false
  | .jmp32 op src => s.branch p insn op src true
  | .jmpJa => (p.target s.pc insn).map fun t => { s with pc := t }
  | .call => (getHelper insn.imm).map fun helper => s.callHelper L ω helper
  | .ldImm64 => some (s.advance insn.dst (s.immediate L ω p insn))

/-- **One step of the machine.** -/
def step (p : Program) : Option MState :=
  p.instructions[s.pc]?.bind fun insn => s.execute L ω p insn

end MState

/-- The state after `n` steps from `s₀`, in the world `env`. -/
def exec (p : Program) (L : Layout) (env : ℕ → Oracle) (s₀ : MState) : ℕ → Option MState
  | 0 => some s₀
  | n + 1 => (exec p L env s₀ n).bind fun s => s.step L (env n) p

/-- **Entry**: r1 points to the context, r10 to the frame top; nothing has been written, and no
other pointer is around. -/
structure MState.Entry (L : Layout) (s : MState) : Prop where
  pc_eq : s.pc = 0
  r1_eq : s.regs .r1 = ⟨L.ctxBase, .ctx⟩
  r10_eq : s.regs .r10 = ⟨L.frameTop, .frame⟩
  written_eq : ∀ o, s.written o = false
  frame_number : ∀ o, (s.frame o).val.isPtr = false
  stored_eq : s.stored = []

/-- The instruction a state is about to execute. -/
def MState.At (s : MState) (p : Program) (insn : BpfInsn) : Prop :=
  p.instructions[s.pc]? = some insn

theorem MState.step_eq {L : Layout} {ω : Oracle} {s : MState} {p : Program} {insn : BpfInsn}
    (h : s.At p insn) : s.step L ω p = s.execute L ω p insn := by
  rw [step, show p.instructions[s.pc]? = some insn from h, Option.bind_some]

/-- A step executes an instruction of the list. -/
theorem MState.exists_at_of_step {L : Layout} {ω : Oracle} {s s' : MState} {p : Program}
    (h : s.step L ω p = some s') : ∃ insn, s.At p insn ∧ s.execute L ω p insn = some s' :=
  Option.bind_eq_some_iff.mp h

/-! ## What a step does -/

section Steps

variable {L : Layout} {ω : Oracle} {s s' : MState} {p : Program} {insn : BpfInsn}

/-- **A conditional jump goes to its target or falls through**, and changes nothing else. -/
theorem MState.of_branch {op : JmpOp} {src : Source} {is32 : Bool}
    (h : s.branch p insn op src is32 = some s') :
    (jumpTaken is32 op (s.regs insn.dst).bits (s.operand insn src (!is32)).bits = true ∧
        ∃ t, p.target s.pc insn = some t ∧ s' = { s with pc := t }) ∨
      jumpTaken is32 op (s.regs insn.dst).bits (s.operand insn src (!is32)).bits = false ∧
        s' = { s with pc := s.pc + 1 } := by
  unfold branch at h
  split at h
  · next hjump =>
    obtain ⟨t, ht, rfl⟩ := Option.map_eq_some_iff.mp h
    exact Or.inl ⟨hjump, t, ht, rfl⟩
  · next hjump => exact Or.inr ⟨Bool.eq_false_iff.mpr hjump, (Option.some.inj h).symm⟩

theorem MState.execute_jmp {op : JmpOp} {src : Source} {is32 : Bool}
    (hop : insn.opcode = if is32 then .jmp32 op src else .jmp64 op src) :
    s.execute L ω p insn = s.branch p insn op src is32 := by
  cases is32 <;> simp only [execute, hop, Bool.false_eq_true, if_false, if_true]

theorem MState.execute_alu {op : AluOp} {src : Source} {is64 : Bool}
    (hop : insn.opcode = if is64 then .alu64 op src else .alu32 op src) :
    s.execute L ω p insn
      = some (s.advance insn.dst (aluVal is64 op (s.regs insn.dst) (s.operand insn src is64))) := by
  cases is64 <;> simp only [execute, hop, Bool.false_eq_true, if_false, if_true]

end Steps

/-! ## A world to run in -/

/-- Objects at fixed addresses. -/
def Layout.flat : Layout where
  frameTop := 0x10000
  ctxBase := 0x20000
  mapBase _ := 0x30000
  ringBase _ := 0x40000
  dataBase _ := 0x50000
  mapBase_ne_zero _ := by decide
  ringBase_ne_zero _ := by decide

/-- An outside world that produces the given word and, if asked, null results. -/
def Oracle.quiet (bits : BitVec 64) (null : Bool) : Oracle where
  bits := bits
  kernel := false
  reload := none
  null := null
  bytes _ := 0
  scratch _ := .number 0

/-- The entry state with every other register and the frame zeroed. -/
def MState.fresh (L : Layout) : MState where
  pc := 0
  regs
    | .r1 => ⟨L.ctxBase, .ctx⟩
    | .r10 => ⟨L.frameTop, .frame⟩
    | _ => .number 0
  frame _ := .plain 0
  written _ := false
  stored := []
  calls := 0

theorem MState.entry_fresh (L : Layout) : (MState.fresh L).Entry L where
  pc_eq := rfl
  r1_eq := rfl
  r10_eq := rfl
  written_eq _ := rfl
  frame_number _ := rfl
  stored_eq := rfl

end BpfVerifier
