import BpfVerifier.Ast.ClangAst
import BpfVerifier.Ast.Intermediate
import Mathlib.Data.List.DropRight
import Mathlib.Data.List.Infix

/-!
# Ast/Convert — `convert.rs`, from Clang's nodes to the intermediate tree

A DeclStmt is its first VarDecl, an IfStmt its first three children, and any other kind of
statement is an expression.
-/

namespace BpfVerifier.Ast

open FstarAst (CType IntWidth StructDef)
open FstarAst.CType FstarAst.IntWidth

/-! ## Errors -/

/-- `IntErrorKind` of `str::parse`. -/
inductive IntErrorKind where
  | Empty | InvalidDigit | PosOverflow | NegOverflow
  deriving DecidableEq, Repr

/-- The errors of the conversion, one for each form of message. -/
inductive ConvertError where
  /-- `{what} without {field}` -/
  | without (what field : String)
  /-- `{kind} with no children` -/
  | noChildren (kind : String)
  /-- `{kind} with fewer than {n} children` -/
  | fewerChildren (kind : String) (n : ℕ)
  /-- `unrecognised {what}: '{text}'` -/
  | unrecognised (what text : String)
  /-- `unrecognised expression kind: '{kind}' (type: {ty:?})` -/
  | unrecognisedKind (kind : String) (ty : Option String)
  /-- `parsing integer literal`, because of `e` -/
  | integerLiteral (e : IntErrorKind)
  deriving DecidableEq, Repr

/-- A computation that succeeds has succeeded in each step. -/
theorem ok_of_bind {ε α β : Type} {x : Except ε α} {k : α → Except ε β} {b : β}
    (h : x >>= k = .ok b) : ∃ a, x = .ok a ∧ k a = .ok b := by
  cases x with
  | error e => cases h
  | ok a => exact ⟨a, rfl, h⟩

/-! ## Text -/

/-- `char::is_whitespace`, Unicode's `White_Space`. -/
def isWhitespace (c : Char) : Bool :=
  let n := c.toNat
  0x9 ≤ n && n ≤ 0xD || n = 0x20 || n = 0x85 || n = 0xA0 || n = 0x1680
    || 0x2000 ≤ n && n ≤ 0x200A || n = 0x2028 || n = 0x2029 || n = 0x202F || n = 0x205F
    || n = 0x3000

/-- `str::trim`. -/
def trim (s : List Char) : List Char := (s.dropWhile isWhitespace).rdropWhile isWhitespace

/-- `str::strip_prefix` with the text itself where the prefix is missing. -/
def dropPrefix (p s : List Char) : List Char := if p <+: s then s.drop p.length else s

/-- `str::strip_suffix` with the text itself where the suffix is missing. -/
def dropSuffix (p s : List Char) : List Char := if p <:+ s then s.take (s.length - p.length) else s

theorem length_trim_le (s : List Char) : (trim s).length ≤ s.length :=
  ((List.rdropWhile_prefix isWhitespace _).length_le).trans (List.length_dropWhile_le _ _)

theorem length_dropPrefix_le (p s : List Char) : (dropPrefix p s).length ≤ s.length := by
  unfold dropPrefix
  split
  · exact (List.drop_sublist _ _).length_le
  · exact le_rfl

theorem length_dropSuffix_le (p s : List Char) : (dropSuffix p s).length ≤ s.length := by
  unfold dropSuffix
  split
  · exact List.length_take_le' _ _
  · exact le_rfl

/-- `str::contains`. -/
def containsText (s p : String) : Bool := p.toList <:+: s.toList

/-- `str::starts_with`. -/
def startsWith (s p : String) : Bool := p.toList <+: s.toList

/-- `str::ends_with`. -/
def endsWith (s p : String) : Bool := p.toList <:+ s.toList

def i64Min : ℤ := -2 ^ 63
def i64Max : ℤ := 2 ^ 63 - 1

/-- The digits of `from_str_radix` for radix ten, added or subtracted one at a time. -/
def parseDigits (negative : Bool) : ℤ → List Char → Except IntErrorKind ℤ
  | acc, [] => .ok acc
  | acc, c :: cs =>
    if c.isDigit then
      let digit : ℕ := c.toNat - 48
      let next := if negative then acc * 10 - digit else acc * 10 + digit
      if next < i64Min then .error .NegOverflow
      else if next > i64Max then .error .PosOverflow
      else parseDigits negative next cs
    else .error .InvalidDigit

/-- `str::parse::<i64>`. -/
def parseI64 (s : String) : Except IntErrorKind ℤ :=
  match s.toList with
  | [] => .error .Empty
  | ['+'] | ['-'] => .error .InvalidDigit
  | '+' :: digits => parseDigits false 0 digits
  | '-' :: digits => parseDigits true 0 digits
  | digits => parseDigits false 0 digits

/-! ## Types -/

/-- `context_struct_fields`. -/
def contextStructFields (structName : String) : List (String × CType) :=
  match structName with
  | "__sk_buff" =>
    [("len", CUInt W32), ("protocol", CUInt W32), ("data", CUInt W32), ("data_end", CUInt W32)]
  | "xdp_md" =>
    [("data", CUInt W32), ("data_end", CUInt W32), ("data_meta", CUInt W32),
      ("ingress_ifindex", CUInt W32), ("rx_queue_index", CUInt W32)]
  | "pt_regs" =>
    [("di", CUInt W64), ("si", CUInt W64), ("dx", CUInt W64), ("cx", CUInt W64),
      ("r8", CUInt W64), ("r9", CUInt W64), ("ax", CUInt W64), ("sp", CUInt W64),
      ("ip", CUInt W64)]
  | _ => []

/-- The types `parse_c_type` knows that are no pointers. -/
def parseBasicType (s : String) : Except ConvertError CType :=
  match s with
  | "void" => .ok CVoid
  | "_Bool" | "bool" => .ok CBool
  | "unsigned char" | "__u8" | "uint8_t" | "u8" => .ok (CUInt W8)
  | "unsigned short" | "__u16" | "uint16_t" | "u16" => .ok (CUInt W16)
  | "unsigned int" | "__u32" | "uint32_t" | "u32" => .ok (CUInt W32)
  | "unsigned long" | "unsigned long long" | "__u64" | "uint64_t" | "u64" => .ok (CUInt W64)
  | "signed char" | "__s8" | "int8_t" | "s8" => .ok (CInt W8)
  | "short" | "__s16" | "int16_t" | "s16" => .ok (CInt W16)
  | "int" | "__s32" | "int32_t" | "s32" => .ok (CInt W32)
  | "long" | "long long" | "__s64" | "int64_t" | "s64" => .ok (CInt W64)
  | s =>
    if startsWith s "struct " then
      let structName := String.ofList (trim (dropPrefix "struct ".toList s.toList))
      .ok (CStruct (.mk structName (contextStructFields structName)))
    else .error (.unrecognised "C type" s)

/-- The text of a type without the spaces and the `const` around it. -/
def stripConst (s : List Char) : List Char :=
  dropSuffix " const".toList (dropPrefix "const ".toList (trim s))

/-- `parse_c_type`, for a text of at most `fuel` stars. -/
def parseCTypeFuel : ℕ → List Char → Except ConvertError CType
  | fuel, text =>
    let s := stripConst text
    if "*".toList <:+ s then
      match fuel with
      | 0 => .error (.unrecognised "C type" (String.ofList s))
      | fuel + 1 => CPtr <$> parseCTypeFuel fuel (trim s.dropLast)
    else parseBasicType (String.ofList s)

/-- `parse_c_type`. -/
def parseCType (typeStr : String) : Except ConvertError CType :=
  parseCTypeFuel typeStr.toList.length typeStr.toList

theorem length_stripConst_le (s : List Char) : (stripConst s).length ≤ s.length :=
  (length_dropSuffix_le _ _).trans ((length_dropPrefix_le _ _).trans (length_trim_le s))

/-- A text that ends in a star gets shorter. -/
theorem length_pointee_lt {s : List Char} (h : "*".toList <:+ stripConst s) :
    (trim (stripConst s).dropLast).length < s.length := by
  have hlen := length_stripConst_le s
  have hpos := h.length_le
  have htrim := length_trim_le (stripConst s).dropLast
  rw [List.length_dropLast] at htrim
  have hone : "*".toList.length = 1 := rfl
  omega

/-- **Any fuel from the text's length on is enough.** -/
theorem parseCTypeFuel_eq (fuel₁ fuel₂ : ℕ) (s : List Char) (h₁ : s.length ≤ fuel₁)
    (h₂ : s.length ≤ fuel₂) : parseCTypeFuel fuel₁ s = parseCTypeFuel fuel₂ s := by
  induction fuel₁ generalizing fuel₂ s with
  | zero =>
    have hstar : ¬ "*".toList <:+ stripConst s := fun h =>
      absurd (length_pointee_lt h) (by omega)
    rw [parseCTypeFuel.eq_def, parseCTypeFuel.eq_def fuel₂]
    simp only [hstar, if_false]
  | succ fuel₁ ih =>
    rw [parseCTypeFuel.eq_def, parseCTypeFuel.eq_def fuel₂]
    by_cases hstar : "*".toList <:+ stripConst s
    · have hlt := length_pointee_lt hstar
      obtain ⟨fuel₂, rfl⟩ := Nat.exists_eq_add_one.mpr (Nat.zero_lt_of_lt (hlt.trans_le h₂))
      simp only [hstar, if_true]
      rw [ih fuel₂ _ (by omega) (by omega)]
    · simp only [hstar, if_false]

/-- `parse_c_type`, as the source has it. -/
theorem parseCType_eq (typeStr : String) :
    parseCType typeStr =
      if "*".toList <:+ stripConst typeStr.toList then
        CPtr <$> parseCType (String.ofList (trim (stripConst typeStr.toList).dropLast))
      else parseBasicType (String.ofList (stripConst typeStr.toList)) := by
  unfold parseCType
  rw [parseCTypeFuel.eq_def]
  by_cases hstar : "*".toList <:+ stripConst typeStr.toList
  · have hlt := length_pointee_lt hstar
    obtain ⟨fuel, hfuel⟩ := Nat.exists_eq_add_one.mpr (Nat.zero_lt_of_lt hlt)
    simp only [hstar, if_true, hfuel, String.toList_ofList]
    rw [parseCTypeFuel_eq fuel _ _ (by omega) le_rfl]
  · simp only [hstar, if_false]

/-- `type_to_int_width`. -/
def typeToIntWidth (typeStr : String) : IntWidth :=
  if containsText typeStr "64" || containsText typeStr "long long" then W64
  else if containsText typeStr "16" || containsText typeStr "short" then W16
  else if containsText typeStr "8" || containsText typeStr "char" then W8
  else W32

/-- The type of a node, `default` where it has none. -/
def typeOr (default : CType) (n : Node) : Except ConvertError CType :=
  match n.qualType with
  | none => .ok default
  | some t => parseCType t

/-! ## Expressions -/

/-- `parse_binop`. -/
def parseBinop (op : String) : Except ConvertError BinOp :=
  match op with
  | "+" => .ok .Add
  | "-" => .ok .Sub
  | "*" => .ok .Mul
  | "/" => .ok .Div
  | "%" => .ok .Mod
  | "&" => .ok .BitAnd
  | "|" => .ok .BitOr
  | "^" => .ok .BitXor
  | "<<" => .ok .ShiftL
  | ">>" => .ok .ShiftR
  | "==" => .ok .Eq
  | "!=" => .ok .Ne
  | "<" => .ok .Lt
  | "<=" => .ok .Le
  | ">" => .ok .Gt
  | ">=" => .ok .Ge
  | "&&" => .ok .LAnd
  | "||" => .ok .LOr
  | _ => .error (.unrecognised "binary operator" op)

/-- The constructor of a unary operator. -/
def parseUnop (op : String) : Except ConvertError (Expr → Expr) :=
  match op with
  | "*" => .ok .Deref
  | "&" => .ok .AddrOf
  | "-" => .ok (.UnaryOp .Neg)
  | "~" => .ok (.UnaryOp .BitNot)
  | "!" => .ok (.UnaryOp .LNot)
  | _ => .error (.unrecognised "unary operator" op)

/-- `extract_call_name`. -/
def extractCallName (n : Node) : Option String :=
  match n with
  | { kind, inner, .. } =>
    match kind with
    | "DeclRefExpr" => n.refName
    | "ImplicitCastExpr" =>
      match inner with
      | c :: _ => extractCallName c
      | [] => none
    | _ => none

/-- `base_type`. -/
def baseType : Expr → Option CType
  | .VarRef _ ty => some ty
  | .Deref ptr =>
    match baseType ptr with
    | some (CPtr ty) => some ty
    | _ => none
  | .Cast _ ty => some ty
  | _ => none

/-- The `IntegerLiteral` case of `convert_expr`. -/
def convertIntegerLiteral (n : Node) : Except ConvertError Expr := do
  let value ← n.value.elim (.error (.without "IntegerLiteral" "value")) .ok
  let val ← (parseI64 value).mapError .integerLiteral
  let typeStr := n.qualType.getD "int"
  let width := typeToIntWidth typeStr
  if containsText typeStr "unsigned" || startsWith typeStr "__u" || startsWith typeStr "uint" then
    .ok (.UIntLit (val % 2 ^ 64).toNat width)
  else .ok (.IntLit val width)

mutual

/-- **`convert_expr`.** -/
def convertExpr (n : Node) : Except ConvertError Expr :=
  match n with
  | { kind, inner, .. } =>
    match kind with
    | "IntegerLiteral" => convertIntegerLiteral n
    | "DeclRefExpr" => do
      let name ← n.refName.elim (.error (.without "DeclRefExpr" "referenced decl")) .ok
      let ty ← typeOr (CInt W32) n
      .ok (.VarRef name ty)
    | "BinaryOperator" => do
      let op ← n.opcode.elim (.error (.without "BinaryOperator" "opcode")) .ok
      let op ← parseBinop op
      match inner with
      | l :: r :: _ => do
        let lhs ← convertExpr l
        let rhs ← convertExpr r
        .ok (.BinOp op lhs rhs)
      | _ => .error (.fewerChildren "BinaryOperator" 2)
    | "UnaryOperator" => do
      let op ← n.opcode.elim (.error (.without "UnaryOperator" "opcode")) .ok
      match inner with
      | c :: _ => do
        let build ← parseUnop op
        let operand ← convertExpr c
        .ok (build operand)
      | [] => .error (.noChildren "UnaryOperator")
    | "CallExpr" =>
      match inner with
      | f :: args => do
        let funcName := (extractCallName f).getD "<unknown>"
        let args ← convertExprs args
        .ok (.Call funcName args)
      | [] => .error (.noChildren "CallExpr")
    | "ConditionalOperator" =>
      match inner with
      | c :: t :: e :: _ => do
        let cond ← convertExpr c
        let thenExpr ← convertExpr t
        let elseExpr ← convertExpr e
        .ok (.Ternary cond thenExpr elseExpr)
      | _ => .error (.fewerChildren "ConditionalOperator" 3)
    | "ImplicitCastExpr" =>
      match inner with
      | c :: _ => convertExpr c
      | [] => .error (.noChildren "ImplicitCastExpr")
    | "CStyleCastExpr" =>
      match inner with
      | c :: _ => do
        let operand ← convertExpr c
        match n.qualType with
        | some t => do
          let ty ← parseCType t
          .ok (.Cast operand ty)
        | none => .ok operand
      | [] => .error (.noChildren "CStyleCastExpr")
    | "ParenExpr" =>
      match inner with
      | c :: _ => convertExpr c
      | [] => .error (.noChildren "ParenExpr")
    | "MemberExpr" =>
      match inner with
      | c :: _ => do
        let base ← convertExpr c
        let field := n.name.getD "?"
        match baseType base with
        | some (CPtr _) => .ok (.FieldAccess (.Deref base) field)
        | _ => .ok (.FieldAccess base field)
      | [] => .error (.noChildren "MemberExpr")
    | _ => .error (.unrecognisedKind kind n.qualType)

def convertExprs : List Node → Except ConvertError (List Expr)
  | [] => .ok []
  | n :: ns => do
    let e ← convertExpr n
    let es ← convertExprs ns
    .ok (e :: es)

end

/-! ## Statements -/

/-- `map(convert_expr).transpose()`. -/
def convertOptional : Option Node → Except ConvertError (Option Expr)
  | none => .ok none
  | some n => some <$> convertExpr n

/-- The initialiser of a VarDecl, its last child that is no type. -/
def initialiser (varDecl : Node) : Option Node :=
  (varDecl.inner.filter fun n => !endsWith n.kind "Type" && n.kind != "BuiltinType").getLast?

/-- The `DeclStmt` case of `convert_stmt`. -/
def convertDeclStmt (n : Node) : Except ConvertError Stmt :=
  match n.firstChildOfKind "VarDecl" with
  | none => .error (.without "DeclStmt" "VarDecl")
  | some varDecl => do
    let ty ← typeOr (CInt W32) varDecl
    let init ← convertOptional (initialiser varDecl)
    .ok (.Declare (varDecl.name.getD "?") ty init)

/-- The `ReturnStmt` case of `convert_stmt`. -/
def convertReturnStmt (n : Node) : Except ConvertError Stmt := do
  let value ← convertOptional n.inner.head?
  .ok (.Return value)

mutual

/-- **`convert_stmt`.** -/
def convertStmt (n : Node) : Except ConvertError Stmt :=
  match n with
  | { kind, inner, .. } =>
    match kind with
    | "DeclStmt" => convertDeclStmt n
    | "ReturnStmt" => convertReturnStmt n
    | "IfStmt" =>
      match inner with
      | c :: t :: e :: _ => do
        let cond ← convertExpr c
        let thenBranch ← convertStmt t
        let elseBranch ← convertStmt e
        .ok (.If cond thenBranch.arm elseBranch.arm)
      | [c, t] => do
        let cond ← convertExpr c
        let thenBranch ← convertStmt t
        .ok (.If cond thenBranch.arm [])
      | _ => .error (.fewerChildren "IfStmt" 2)
    | "CompoundStmt" => do
      let stmts ← convertStmts inner
      .ok (.Compound stmts)
    | _ => do
      let expr ← convertExpr n
      .ok (.ExprStmt expr)

def convertStmts : List Node → Except ConvertError (List Stmt)
  | [] => .ok []
  | n :: ns => do
    let s ← convertStmt n
    let ss ← convertStmts ns
    .ok (s :: ss)

end

/-- **`convert_compound_stmt`.** -/
def convertCompoundStmt (n : Node) : Except ConvertError (List Stmt) := convertStmts n.inner

end BpfVerifier.Ast
