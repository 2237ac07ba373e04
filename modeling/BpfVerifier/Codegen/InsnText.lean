import BpfVerifier.Fstar.Emit
import BpfVerifier.Machinery.Words

/-!
# Codegen/InsnText — an instruction as it is written

`BpfInsn.text` is `to_fstar` to the letter, and `readInsn` reads the notation of F\*: the name of a
constructor of `bpf_insn` and its arguments.  What is read off the text of an instruction is what
`BpfInsn.toFstar` says is written (`readInsn_text`), which is nothing for what is no constructor.
-/

namespace BpfVerifier

open Fstar (Insn HelperId)
open Reader (Reads oneOf apply₁ apply₂ apply₃ apply₄)
open Text (unwords)

/-! ## Texts -/

def Reg.display (r : Reg) : Text := 'r' :: (toString r.index).toList

def MemWidth.display : MemWidth → String
  | .b => "W8"
  | .h => "W16"
  | .w => "W32"
  | .dw => "W64"

def JmpOp.display : JmpOp → String
  | .ja => "JA"
  | .jeq => "JEQ"
  | .jgt => "JGT"
  | .jge => "JGE"
  | .jset => "JSET"
  | .jne => "JNE"
  | .jlt => "JLT"
  | .jle => "JLE"
  | .jsgt => "JSGT"
  | .jsge => "JSGE"
  | .jslt => "JSLT"
  | .jsle => "JSLE"

/-- `({}l)`. -/
def int32Text {w : ℕ} (v : BitVec w) : Text :=
  "(".toList ++ (toString v.toInt).toList ++ "l)".toList

/-- `({})`. -/
def jumpText {w : ℕ} (v : BitVec w) : Text :=
  "(".toList ++ (toString v.toInt).toList ++ ")".toList

/-- `{:02x}`. -/
def hexText (v : BitVec 8) : Text :=
  let digits := Nat.toDigits 16 v.toNat
  List.replicate (2 - digits.length) '0' ++ digits

namespace BpfInsn

variable (insn : BpfInsn)

/-- The words `to_fstar` writes, a constructor and its arguments. -/
def fstarWords : List Text :=
  match insn.opcode with
  | .alu64 op .reg =>
    ["BPF_ALU64_REG".toList, op.display.toList, insn.dst.display, insn.src.display]
  | .alu64 op .imm =>
    ["BPF_ALU64_IMM".toList, op.display.toList, insn.dst.display, int32Text insn.imm]
  | .alu32 op .reg =>
    ["BPF_ALU32_REG".toList, op.display.toList, insn.dst.display, insn.src.display]
  | .alu32 op .imm =>
    ["BPF_ALU32_IMM".toList, op.display.toList, insn.dst.display, int32Text insn.imm]
  | .ldx width =>
    ["BPF_LDX".toList, width.display.toList, insn.dst.display, insn.src.display,
      int32Text insn.offset]
  | .stx width =>
    ["BPF_STX".toList, width.display.toList, insn.dst.display, insn.src.display,
      int32Text insn.offset]
  | .st width =>
    ["BPF_ST".toList, width.display.toList, insn.dst.display, int32Text insn.offset,
      int32Text insn.imm]
  | .jmp64 op .reg =>
    ["BPF_JMP64_REG".toList, op.display.toList, insn.dst.display, insn.src.display,
      jumpText insn.offset]
  | .jmp64 op .imm =>
    ["BPF_JMP64_IMM".toList, op.display.toList, insn.dst.display, int32Text insn.imm,
      jumpText insn.offset]
  | .jmp32 op .reg =>
    ["BPF_JMP32_REG".toList, op.display.toList, insn.dst.display, insn.src.display,
      jumpText insn.offset]
  | .jmp32 op .imm =>
    ["BPF_JMP32_IMM".toList, op.display.toList, insn.dst.display, int32Text insn.imm,
      jumpText insn.offset]
  | .jmpJa => ["BPF_JMP_JA".toList, jumpText insn.offset]
  | .call =>
    match getHelper insn.imm with
    | some spec => ["BPF_CALL".toList, spec.name.toList]
    | none => ["BPF_CALL".toList, "(UNKNOWN_HELPER".toList,
        (toString insn.imm.toInt).toList ++ ")".toList]
  | .ldImm64 =>
    ["BPF_LD_IMM64".toList, insn.dst.display,
      (toString insn.ldValue.toNat).toList ++ "uL".toList]
  | .exit => ["BPF_EXIT".toList]
  | .unknown raw => ["BPF_UNKNOWN".toList, "0x".toList ++ hexText raw]

/-- **`to_fstar`**, to the letter. -/
def text : Text := unwords insn.fstarWords

end BpfInsn

example : (BpfInsn.aluImm .add .r0 42).text = "BPF_ALU64_IMM ADD r0 (42l)".toList := by
  decide +kernel

/-! ## Reading -/

def readRegister : Text → Option Reg := oneOf (Reg.all.map fun r => (r.display, r))

def readAluOp : Text → Option AluOp :=
  oneOf ([.add, .sub, .mul, .div, .or, .and, .lsh, .rsh, .neg, .mod, .xor, .mov, .arsh].map
    fun op : AluOp => (op.display.toList, op))

def readJmpOp : Text → Option JmpOp :=
  oneOf ([.ja, .jeq, .jgt, .jge, .jset, .jne, .jlt, .jle, .jsgt, .jsge, .jslt, .jsle].map
    fun op : JmpOp => (op.display.toList, op))

def readWidth : Text → Option MemWidth :=
  oneOf ([.b, .h, .w, .dw].map fun width : MemWidth => (width.display.toList, width))

/-- `(5l)`, in the range of an `Int32`. -/
def readInt32 (t : Text) : Option (BitVec 32) :=
  (Reader.readAll (Reader.after "(".toList (Reader.upTo "l)".toList Reader.int)) t).bind fun z =>
    if (BitVec.ofInt 32 z).toInt = z then some (BitVec.ofInt 32 z) else none

/-- `(5)`. -/
def readJump : Text → Option Int :=
  Reader.readAll (Reader.after "(".toList (Reader.upTo ")".toList Reader.int))

/-- `5uL`, in the range of a `UInt64`. -/
def readUInt64 (t : Text) : Option (BitVec 64) :=
  (Reader.readAll (Reader.upTo "uL".toList Reader.nat) t).bind fun n =>
    if n < 2 ^ 64 then some (BitVec.ofNat 64 n) else none

/-- `5)`. -/
def readUnknown : Text → Option HelperId :=
  fun t => (Reader.readAll (Reader.upTo ")".toList Reader.nat) t).map .UNKNOWN_HELPER

/-- A `helper_id`, by its name or as a number. -/
def readHelper : List Text → Option HelperId
  | [name] => HelperId.ofName (String.ofList name)
  | [name, id] => if name = "(UNKNOWN_HELPER".toList then readUnknown id else none
  | _ => none

/-- The constructors of `bpf_insn`. -/
def constructors : List (Text × (List Text → Option Insn)) := [
  ("BPF_ALU64_REG".toList, apply₃ .alu64Reg readAluOp readRegister readRegister),
  ("BPF_ALU64_IMM".toList, apply₃ .alu64Imm readAluOp readRegister readInt32),
  ("BPF_ALU32_REG".toList, apply₃ .alu32Reg readAluOp readRegister readRegister),
  ("BPF_ALU32_IMM".toList, apply₃ .alu32Imm readAluOp readRegister readInt32),
  ("BPF_LDX".toList, apply₄ .ldx readWidth readRegister readRegister readInt32),
  ("BPF_STX".toList, apply₄ .stx readWidth readRegister readRegister readInt32),
  ("BPF_ST".toList, apply₄ .st readWidth readRegister readInt32 readInt32),
  ("BPF_JMP64_REG".toList, apply₄ .jmp64Reg readJmpOp readRegister readRegister readJump),
  ("BPF_JMP64_IMM".toList, apply₄ .jmp64Imm readJmpOp readRegister readInt32 readJump),
  ("BPF_JMP32_REG".toList, apply₄ .jmp32Reg readJmpOp readRegister readRegister readJump),
  ("BPF_JMP32_IMM".toList, apply₄ .jmp32Imm readJmpOp readRegister readInt32 readJump),
  ("BPF_JMP_JA".toList, apply₁ .jmpJa readJump),
  ("BPF_CALL".toList, fun args => (readHelper args).map .call),
  ("BPF_LD_IMM64".toList, apply₂ .ldImm64 readRegister readUInt64),
  ("BPF_EXIT".toList, fun args => if args = [] then some .exit else none)]

/-- The constructor a text writes. -/
def readInsn (s : Text) : Option Insn :=
  match s.words with
  | [] => none
  | name :: args => (oneOf constructors name).bind fun read => read args

/-! ## Words -/

/-- A character of a token: a letter, a digit, an underscore, a parenthesis or a minus sign. -/
def isTokenChar (c : Char) : Bool := c.isAlphanum || c = '_' || c = '(' || c = ')' || c = '-'

def IsToken (w : Text) : Prop := ∀ c ∈ w, isTokenChar c = true

instance (w : Text) : Decidable (IsToken w) :=
  decidable_of_iff (w.all isTokenChar = true) List.all_eq_true

theorem IsToken.append {w v : Text} (hw : IsToken w) (hv : IsToken v) : IsToken (w ++ v) :=
  fun c hc => (List.mem_append.mp hc).elim (hw c) (hv c)

theorem isToken_nat (n : ℕ) : IsToken (toString n).toList := by
  have htext : (toString n).toList = Nat.toDigits 10 n := Nat.toList_repr
  intro c hc
  rw [htext] at hc
  have hdigit : c.isDigit = true := Nat.isDigit_of_mem_toDigits (by decide) (by decide) hc
  simp [isTokenChar, Char.isAlphanum, hdigit]

theorem isToken_int (z : Int) : IsToken (toString z).toList := by
  rw [Int.toString_eq_repr, Int.repr_eq_if]
  split
  · exact isToken_nat z.toNat
  · rw [String.toList_append]
    exact IsToken.append (by decide) (isToken_nat (-z).toNat)

theorem isToken_reg (r : Reg) : IsToken r.display :=
  IsToken.append (by decide : IsToken ['r']) (isToken_nat r.index)

theorem isToken_aluOp (op : AluOp) : IsToken op.display.toList := by cases op <;> decide

theorem isToken_jmpOp (op : JmpOp) : IsToken op.display.toList := by cases op <;> decide

theorem isToken_width (width : MemWidth) : IsToken width.display.toList := by cases width <;> decide

theorem isToken_int32Text {w : ℕ} (v : BitVec w) : IsToken (int32Text v) :=
  (IsToken.append (by decide) (isToken_int v.toInt)).append (by decide)

theorem isToken_jumpText {w : ℕ} (v : BitVec w) : IsToken (jumpText v) :=
  (IsToken.append (by decide) (isToken_int v.toInt)).append (by decide)

theorem isToken_hexText (v : BitVec 8) : IsToken (hexText v) := by
  revert v
  decide +kernel

theorem isToken_helper : ∀ spec ∈ HELPERS, IsToken spec.name.toList := by decide +kernel

namespace BpfInsn

variable (insn : BpfInsn)

/-- **What is written for an instruction is words.** -/
theorem isToken_fstarWords : ∀ w ∈ insn.fstarWords, IsToken w := by
  have hvalue : IsToken ((toString insn.ldValue.toNat).toList ++ "uL".toList) :=
    (isToken_nat _).append (by decide)
  have hid : IsToken ((toString insn.imm.toInt).toList ++ ")".toList) :=
    (isToken_int _).append (by decide)
  have hhex (raw : BitVec 8) : IsToken ("0x".toList ++ hexText raw) :=
    IsToken.append (by decide) (isToken_hexText raw)
  unfold fstarWords
  split
  case h_13 =>
    split
    · rename_i spec hspec
      have hhelper := isToken_helper spec (mem_helpers_of_getHelper hspec)
      simp only [List.forall_mem_cons, hhelper]
      decide
    · simp only [List.forall_mem_cons, hid]
      decide
  all_goals
    simp only [List.forall_mem_cons, isToken_aluOp, isToken_jmpOp, isToken_width, isToken_reg,
      isToken_int32Text, isToken_jumpText, hvalue, hhex]
    decide

theorem fstarWords_ne_nil : insn.fstarWords ≠ [] := by
  unfold fstarWords
  split
  case h_13 => split <;> exact List.cons_ne_nil _ _
  all_goals exact List.cons_ne_nil _ _

theorem words_text : insn.text.words = insn.fstarWords :=
  Text.words_unwords insn.fstarWords_ne_nil fun w hw hspace =>
    absurd (insn.isToken_fstarWords w hw ' ' hspace) (by decide)

/-- A text holds the characters of its words and spaces. -/
theorem mem_text {c : Char} (h : c ∈ insn.text) : c = ' ' ∨ isTokenChar c = true := by
  refine (Text.mem_intercalate h).imp List.mem_singleton.mp ?_
  rintro ⟨w, hw, hc⟩
  exact insn.isToken_fstarWords w hw c hc

end BpfInsn

/-! ## Reading back -/

@[simp] theorem readRegister_display (r : Reg) : readRegister r.display = some r :=
  Reader.oneOf_of_mem (by decide +kernel) (List.mem_map_of_mem r.mem_all)

@[simp] theorem readAluOp_display (op : AluOp) : readAluOp op.display.toList = some op :=
  Reader.oneOf_of_mem (by decide +kernel)
    (List.mem_map_of_mem (f := fun op : AluOp => (op.display.toList, op))
      (by cases op <;> decide))

@[simp] theorem readJmpOp_display (op : JmpOp) : readJmpOp op.display.toList = some op :=
  Reader.oneOf_of_mem (by decide +kernel)
    (List.mem_map_of_mem (f := fun op : JmpOp => (op.display.toList, op))
      (by cases op <;> decide))

@[simp] theorem readWidth_display (width : MemWidth) :
    readWidth width.display.toList = some width :=
  Reader.oneOf_of_mem (by decide +kernel)
    (List.mem_map_of_mem (f := fun width : MemWidth => (width.display.toList, width))
      (by cases width <;> decide))

/-- A number in parentheses, with a mark after it. -/
theorem readAll_parenthesised {mark : Text}
    (hmark : ∀ rest, Reader.StopsNumber (mark ++ rest)) (z : Int) :
    Reader.readAll (Reader.after "(".toList (Reader.upTo mark Reader.int))
      ("(".toList ++ (toString z).toList ++ mark) = some z := by
  have hread : Reads (Reader.upTo mark Reader.int) ((toString z).toList ++ mark) z := by
    intro rest _
    rw [List.append_assoc, (Reads.int z).upTo hmark]
  rw [List.append_assoc]
  exact Reader.readAll_of_reads (hread.after _)

theorem readInt32_int32Text {w : ℕ} (hw : w ≤ 32) (v : BitVec w) :
    readInt32 (int32Text v) = some (v.signExtend 32) := by
  have hmark (rest : Text) : Reader.StopsNumber ("l)".toList ++ rest) :=
    Reader.stopsNumber_cons (by decide) _
  have hvalue : BitVec.ofInt 32 v.toInt = v.signExtend 32 := rfl
  rw [readInt32, int32Text, readAll_parenthesised hmark, Option.bind_some, hvalue,
    if_pos (BitVec.toInt_signExtend_of_le hw)]

@[simp] theorem readJump_jumpText {w : ℕ} (v : BitVec w) : readJump (jumpText v) = some v.toInt :=
  readAll_parenthesised (fun _ => Reader.stopsNumber_cons (by decide) _) v.toInt

theorem readUInt64_text (v : BitVec 64) :
    readUInt64 ((toString v.toNat).toList ++ "uL".toList) = some v := by
  have hmark (rest : Text) : Reader.StopsNumber ("uL".toList ++ rest) :=
    Reader.stopsNumber_cons (by decide) _
  have hread : Reads (Reader.upTo "uL".toList Reader.nat)
      ((toString v.toNat).toList ++ "uL".toList) v.toNat := by
    intro rest _
    rw [List.append_assoc, (Reads.nat v.toNat).upTo hmark]
  rw [readUInt64, Reader.readAll_of_reads hread, Option.bind_some, if_pos v.isLt,
    BitVec.ofNat_toNat, BitVec.setWidth_eq]

/-- A helper that is not in the table is read by its number, which has no sign. -/
theorem readUnknown_text (v : BitVec 32) : readUnknown ((toString v.toInt).toList ++ ")".toList) =
    if v.toInt < 0 then none else some (.UNKNOWN_HELPER v.toNat) := by
  split
  · rename_i hneg
    rw [Int.toString_eq_repr, Int.repr_eq_if, if_neg (by omega), String.toList_append]
    rfl
  · rename_i hnonneg
    have hvalue : v.toInt = (v.toNat : ℤ) := by
      rw [BitVec.toInt_eq_toNat_cond] at hnonneg ⊢
      split at hnonneg <;> omega
    have hmark (rest : Text) : Reader.StopsNumber (")".toList ++ rest) :=
      Reader.stopsNumber_cons (by decide) _
    have hread : Reads (Reader.upTo ")".toList Reader.nat)
        ((toString v.toNat).toList ++ ")".toList) v.toNat := by
      intro rest _
      rw [List.append_assoc, (Reads.nat v.toNat).upTo hmark]
    have htext : (toString v.toInt).toList = (toString v.toNat).toList := by
      rw [hvalue]
      rfl
    rw [readUnknown, htext, Reader.readAll_of_reads hread, Option.map_some]

/-- A constructor is found by its name. -/
theorem readInsn_eq {s name : Text} {args : List Text} {read : List Text → Option Insn} (k : ℕ)
    (hs : s.words = name :: args) (hread : constructors[k]? = some (name, read)) :
    readInsn s = read args := by
  rw [readInsn, hs]
  have hnames : (constructors.map Prod.fst).Nodup := by decide +kernel
  simp only [Reader.oneOf_of_mem hnames (List.mem_of_getElem? hread), Option.bind_some]

/-- **An instruction is read back as it was written**: its text as the constructor `to_fstar` means,
and what is no constructor as none. -/
theorem readInsn_text (insn : BpfInsn) : readInsn insn.text = insn.toFstar := by
  have hwords := insn.words_text
  have himm := readInt32_int32Text (Nat.le_refl 32) insn.imm
  have hoff := readInt32_int32Text (by decide) insn.offset
  rw [BitVec.signExtend_eq] at himm
  unfold BpfInsn.fstarWords at hwords
  split at hwords <;> rename_i hop <;> simp only [BpfInsn.toFstar, hop]
  case h_1 => rw [readInsn_eq 0 hwords rfl]; simp [apply₃]
  case h_2 => rw [readInsn_eq 1 hwords rfl]; simp [apply₃, himm]
  case h_3 => rw [readInsn_eq 2 hwords rfl]; simp [apply₃]
  case h_4 => rw [readInsn_eq 3 hwords rfl]; simp [apply₃, himm]
  case h_5 => rw [readInsn_eq 4 hwords rfl]; simp [apply₄, hoff]
  case h_6 => rw [readInsn_eq 5 hwords rfl]; simp [apply₄, hoff]
  case h_7 => rw [readInsn_eq 6 hwords rfl]; simp [apply₄, himm, hoff]
  case h_8 => rw [readInsn_eq 7 hwords rfl]; simp [apply₄]
  case h_9 => rw [readInsn_eq 8 hwords rfl]; simp [apply₄, himm]
  case h_10 => rw [readInsn_eq 9 hwords rfl]; simp [apply₄]
  case h_11 => rw [readInsn_eq 10 hwords rfl]; simp [apply₄, himm]
  case h_12 => rw [readInsn_eq 11 hwords rfl]; simp [apply₁]
  case h_13 =>
    rw [BpfInsn.fstarHelper]
    cases hhelper : getHelper insn.imm with
    | some spec =>
      simp only [hhelper] at hwords
      rw [readInsn_eq 12 hwords rfl, readHelper, String.ofList_toList]
    | none =>
      simp only [hhelper] at hwords
      rw [readInsn_eq 12 hwords rfl, readHelper, if_pos rfl, readUnknown_text]
  case h_14 =>
    have hvalue := readUInt64_text insn.ldValue
    rw [readInsn_eq 13 hwords rfl, apply₂, hvalue, readRegister_display]
    rfl
  case h_15 => rw [readInsn_eq 14 hwords rfl]; rfl
  case h_16 =>
    have hnone : oneOf constructors "BPF_UNKNOWN".toList = none := rfl
    rw [readInsn, hwords]
    exact congrArg (Option.bind · _) hnone

end BpfVerifier
