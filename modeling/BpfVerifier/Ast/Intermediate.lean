import BpfVerifier.FstarAst.Types

/-!
# Ast/Intermediate — `fstar_ast.rs`, the tree between the conversion and the emission

Statements and expressions without the contexts of `FstarAst/Stmt`.  The C types are those of
`FstarAst/Types`.
-/

namespace BpfVerifier.Ast

open FstarAst (CType IntWidth)

/-- `BinOp`. -/
inductive BinOp where
  | Add | Sub | Mul | Div | Mod
  | BitAnd | BitOr | BitXor
  | ShiftL | ShiftR
  | Eq | Ne
  | Lt | Le | Gt | Ge
  | LAnd | LOr
  deriving DecidableEq, Repr

/-- `UnaryOp`. -/
inductive UnaryOp where
  | Neg | BitNot | LNot
  deriving DecidableEq, Repr

/-- `Expr`. -/
inductive Expr where
  /-- An `i64`. -/
  | IntLit (v : ℤ) (w : IntWidth)
  /-- A `u64`. -/
  | UIntLit (v : ℕ) (w : IntWidth)
  | BoolLit (b : Bool)
  | VarRef (name : String) (ty : CType)
  | BinOp (op : Ast.BinOp) (lhs rhs : Expr)
  | UnaryOp (op : Ast.UnaryOp) (operand : Expr)
  | Deref (ptr : Expr)
  | AddrOf (operand : Expr)
  | FieldAccess (base : Expr) (field : String)
  | Cast (operand : Expr) (ty : CType)
  | Call (name : String) (args : List Expr)
  | Ternary (cond thenExpr elseExpr : Expr)

/-- `Stmt`. -/
inductive Stmt where
  | Declare (name : String) (ty : CType) (init : Option Expr)
  | Assign (name : String) (value : Expr)
  | If (cond : Expr) (thenStmts elseStmts : List Stmt)
  | Return (value : Option Expr)
  /-- An expression in statement position. -/
  | ExprStmt (expr : Expr)
  | Compound (stmts : List Stmt)

/-- An arm of a conditional: a block is its statements. -/
def Stmt.arm : Stmt → List Stmt
  | .Compound stmts => stmts
  | s => [s]

end BpfVerifier.Ast
