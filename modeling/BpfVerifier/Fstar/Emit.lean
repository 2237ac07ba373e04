import BpfVerifier.Bpf.Helpers
import BpfVerifier.Fstar.Semantics

/-!
# Fstar/Emit — the programme handed to F\*

`BpfInsn.toFstar` is the constructor `BpfInsn::to_fstar` writes for a decoded instruction; `emit`
writes a whole list.  What it writes for an undecoded opcode, for `LOOP` and for a negative helper
id is no constructor of `bpf_insn`.  Entry `k` of the list is entry `k` of the programme: an
`LD_IMM64` is one entry in both.
-/

namespace BpfVerifier

open Fstar

/-- The `helper_id` of a name. -/
def Fstar.HelperId.ofName : String → Option HelperId
  | "MAP_LOOKUP_ELEM" => some .MAP_LOOKUP_ELEM
  | "MAP_UPDATE_ELEM" => some .MAP_UPDATE_ELEM
  | "MAP_DELETE_ELEM" => some .MAP_DELETE_ELEM
  | "PROBE_READ" => some .PROBE_READ
  | "KTIME_GET_NS" => some .KTIME_GET_NS
  | "TRACE_PRINTK" => some .TRACE_PRINTK
  | "GET_PRANDOM_U32" => some .GET_PRANDOM_U32
  | "GET_CURRENT_PID_TGID" => some .GET_CURRENT_PID_TGID
  | "GET_CURRENT_UID_GID" => some .GET_CURRENT_UID_GID
  | "GET_CURRENT_COMM" => some .GET_CURRENT_COMM
  | "GET_CURRENT_TASK" => some .GET_CURRENT_TASK
  | "PROBE_READ_STR" => some .PROBE_READ_STR
  | "PROBE_READ_USER" => some .PROBE_READ_USER
  | "PROBE_READ_KERNEL" => some .PROBE_READ_KERNEL
  | "PROBE_READ_KERNEL_STR" => some .PROBE_READ_KERNEL_STR
  | "KTIME_GET_BOOT_NS" => some .KTIME_GET_BOOT_NS
  | "RINGBUF_RESERVE" => some .RINGBUF_RESERVE
  | "RINGBUF_SUBMIT" => some .RINGBUF_SUBMIT
  | "RINGBUF_DISCARD" => some .RINGBUF_DISCARD
  | "D_PATH" => some .D_PATH
  | "GET_CURRENT_TASK_BTF" => some .GET_CURRENT_TASK_BTF
  | _ => none

namespace BpfInsn

variable (insn : BpfInsn)

/-- The helper a CALL names: a table row by its name, any other id as a number. -/
def fstarHelper : Option HelperId :=
  match getHelper insn.imm with
  | some spec => HelperId.ofName spec.name
  | none => if insn.imm.toInt < 0 then none else some (.UNKNOWN_HELPER insn.imm.toNat)

/-- **`to_fstar`**: the F\* constructor for an instruction, if there is one. -/
def toFstar : Option Insn :=
  match insn.opcode with
  | .alu64 op .reg => some (.alu64Reg op insn.dst insn.src)
  | .alu64 op .imm => some (.alu64Imm op insn.dst insn.imm)
  | .alu32 op .reg => some (.alu32Reg op insn.dst insn.src)
  | .alu32 op .imm => some (.alu32Imm op insn.dst insn.imm)
  | .ldx width => some (.ldx width insn.dst insn.src (insn.offset.signExtend 32))
  | .stx width => some (.stx width insn.dst insn.src (insn.offset.signExtend 32))
  | .st width => some (.st width insn.dst (insn.offset.signExtend 32) insn.imm)
  | .jmp64 op .reg => some (.jmp64Reg op insn.dst insn.src insn.offset.toInt)
  | .jmp64 op .imm => some (.jmp64Imm op insn.dst insn.imm insn.offset.toInt)
  | .jmp32 op .reg => some (.jmp32Reg op insn.dst insn.src insn.offset.toInt)
  | .jmp32 op .imm => some (.jmp32Imm op insn.dst insn.imm insn.offset.toInt)
  | .jmpJa => some (.jmpJa insn.offset.toInt)
  | .call => insn.fstarHelper.map .call
  | .ldImm64 => some (.ldImm64 insn.dst insn.ldValue)
  | .exit => some .exit
  | .unknown _ => none

end BpfInsn

/-- The programme written for a list of instructions that all have a constructor. -/
def emit (instructions : List BpfInsn) : Option BpfProgram := instructions.mapM BpfInsn.toFstar

theorem emit_cons {insn : BpfInsn} {rest : List BpfInsn} {prog : BpfProgram} :
    emit (insn :: rest) = some prog ↔ ∃ finsn prog', insn.toFstar = some finsn ∧
      emit rest = some prog' ∧ prog = finsn :: prog' := by
  simp only [emit, List.mapM_cons, Option.bind_eq_bind, Option.bind_eq_some_iff, Option.pure_def,
    Option.some.injEq]
  constructor
  · rintro ⟨finsn, hinsn, prog', hrest, rfl⟩
    exact ⟨finsn, prog', hinsn, hrest, rfl⟩
  · rintro ⟨finsn, prog', hinsn, hrest, rfl⟩
    exact ⟨finsn, hinsn, prog', hrest, rfl⟩

theorem emit_eq_some {instructions : List BpfInsn} {prog : BpfProgram} :
    emit instructions = some prog ↔ instructions.map BpfInsn.toFstar = prog.map some := by
  induction instructions generalizing prog with
  | nil => cases prog <;> simp [emit]
  | cons insn rest ih =>
    rw [emit_cons]
    cases prog with
    | nil => simp
    | cons finsn prog => simp [ih]

theorem length_of_emit {instructions : List BpfInsn} {prog : BpfProgram}
    (h : emit instructions = some prog) : prog.length = instructions.length := by
  simpa using (congrArg List.length (emit_eq_some.mp h)).symm

/-- **Entry for entry**: what stands at an index of the programme is written for the instruction at
that index. -/
theorem toFstar_of_emit {instructions : List BpfInsn} {prog : BpfProgram}
    (h : emit instructions = some prog) {k : ℕ} {insn : BpfInsn}
    (hk : instructions[k]? = some insn) : ∃ finsn, prog[k]? = some finsn ∧
      insn.toFstar = some finsn := by
  have hget := congrArg (fun l => l[k]?) (emit_eq_some.mp h)
  simp only [List.getElem?_map, hk, Option.map_some] at hget
  cases hp : prog[k]? with
  | none => simp [hp] at hget
  | some finsn =>
    rw [hp] at hget
    exact ⟨finsn, rfl, Option.some.inj hget⟩

/-- **A jump is written with its offset**, and nothing else is written as a jump. -/
theorem branchOffset_of_toFstar {insn : BpfInsn} {finsn : Insn} (h : insn.toFstar = some finsn) :
    finsn.branchOffset = if insn.jumps then some insn.offset.toInt else none := by
  unfold BpfInsn.toFstar at h
  unfold BpfInsn.jumps
  split at h <;> rename_i hop <;> simp only [hop, Option.some.injEq, Option.map_eq_some_iff] at h ⊢
  all_goals first
    | (subst h; rfl)
    | (obtain ⟨hid, -, rfl⟩ := h; rfl)
    | cases h

/-- Only an EXIT is written as one. -/
theorem opcode_of_toFstar_exit {insn : BpfInsn} (h : insn.toFstar = some .exit) :
    insn.opcode = .exit := by
  unfold BpfInsn.toFstar at h
  split at h <;> simp_all

end BpfVerifier
