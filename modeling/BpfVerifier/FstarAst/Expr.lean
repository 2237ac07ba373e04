import BpfVerifier.FstarAst.VarCtx

/-!
# FstarAst/Expr — `BPF.AST.Expr`, expressions typed in a context

An `Expr ctx t` reads the variables of `ctx` and has the C type `t`.  The side conditions of the
constructors are its typing rules.
-/

namespace BpfVerifier.FstarAst

open CType

/-- `binop`. -/
inductive Binop where
  | Add | Sub | Mul | Div | Mod
  | BitAnd | BitOr | BitXor
  | ShiftL | ShiftR
  | Eq | Ne
  | Lt | Le | Gt | Ge
  | SLt | SLe | SGt | SGe
  | LAnd | LOr
  deriving DecidableEq, Repr

/-- `unaryop`. -/
inductive Unaryop where
  | Neg | BitNot | LNot
  deriving DecidableEq, Repr

/-- `binop_result_type`. -/
def binopResultType (op : Binop) (t₁ t₂ : CType) : Option CType :=
  match op with
  | .Add | .Sub | .Mul | .Div | .Mod | .BitAnd | .BitOr | .BitXor =>
    match t₁, t₂ with
    | CUInt w₁, CUInt w₂ => if w₁ = w₂ then some (CUInt w₁) else none
    | CInt w₁, CInt w₂ => if w₁ = w₂ then some (CInt w₁) else none
    | _, _ => none
  | .ShiftL | .ShiftR =>
    match t₁, t₂ with
    | CUInt w₁, CUInt _ => some (CUInt w₁)
    | CInt w₁, CUInt _ => some (CInt w₁)
    | _, _ => none
  | .Eq | .Ne | .Lt | .Le | .Gt | .Ge | .SLt | .SLe | .SGt | .SGe =>
    if isNumeric t₁ && isNumeric t₂ then some CBool
    else if isPtr t₁ && isPtr t₂ then some CBool
    else none
  | .LAnd | .LOr =>
    match t₁, t₂ with
    | CBool, CBool => some CBool
    | _, _ => none

/-- `unaryop_result_type`. -/
def unaryopResultType (op : Unaryop) (t : CType) : Option CType :=
  match op with
  | .Neg | .BitNot =>
    match t with
    | CInt w => some (CInt w)
    | CUInt w => some (CUInt w)
    | _ => none
  | .LNot =>
    match t with
    | CBool => some CBool
    | _ => none

/-- A variable that pointer arithmetic may be done on. -/
def VarCtx.AllowsArithmetic (ctx : VarCtx) (name : String) : Prop :=
  ∃ h : ctx.isDeclared name = true, allowsArithmetic (ctx.getClass name h) = true

/-- `expr`. -/
inductive Expr : VarCtx → CType → Type
  | IntLit {ctx : VarCtx} (v : ℤ) (w : IntWidth) : Expr ctx (CInt w)
  | UIntLit {ctx : VarCtx} (v : ℕ) (w : IntWidth) : Expr ctx (CUInt w)
  | BoolLit {ctx : VarCtx} (v : Bool) : Expr ctx CBool
  | VarRef {ctx : VarCtx} (name : String) (t : CType) : ctx.isReadable name = true →
      ctx.varTypeCompatible name t = true → Expr ctx t
  | BinOp {ctx : VarCtx} {t₁ t₂ tr : CType} (op : Binop) (lhs : Expr ctx t₁) (rhs : Expr ctx t₂) :
      binopResultType op t₁ t₂ = some tr → Expr ctx tr
  | UnaryOp {ctx : VarCtx} {t tr : CType} (op : Unaryop) (operand : Expr ctx t) :
      unaryopResultType op t = some tr → Expr ctx tr
  /-- Only a pointer that is not null can be dereferenced. -/
  | Deref {ctx : VarCtx} {t : CType} (ptr : Expr ctx (CPtr t)) : Expr ctx t
  | AddrOf {ctx : VarCtx} {t : CType} (inner : Expr ctx t) : Expr ctx (CPtr t)
  | FieldAccess {ctx : VarCtx} {sd : StructDef} (obj : Expr ctx (CStruct sd)) (field : String)
      (h : hasField sd field = true) : Expr ctx (getFieldType sd field h)
  | Cast {ctx : VarCtx} {tFrom : CType} (tTo : CType) (inner : Expr ctx tFrom) :
      isNumeric tFrom = true → isNumeric tTo = true → Expr ctx tTo
  | ArrayIndex {ctx : VarCtx} {elemT : CType} {n : ℕ} (arr : Expr ctx (CArray elemT n))
      (idx : Expr ctx (CUInt .W64)) : Expr ctx elemT
  | PtrAdd {ctx : VarCtx} {t : CType} (ptrVar : String) : ctx.isReadable ptrVar = true →
      ctx.AllowsArithmetic ptrVar → Expr ctx (CUInt .W64) → Expr ctx (CPtr t)
  | PtrSub {ctx : VarCtx} {t : CType} (ptrVar : String) : ctx.isReadable ptrVar = true →
      ctx.AllowsArithmetic ptrVar → Expr ctx (CUInt .W64) → Expr ctx (CPtr t)
  | SizeOf {ctx : VarCtx} (t : CType) : Expr ctx (CUInt .W64)

end BpfVerifier.FstarAst
