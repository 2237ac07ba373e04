import BpfVerifier.FstarAst.Stmt
import BpfVerifier.Machinery.Monitor

/-!
# FstarAst/Accesses — which variables a path through a statement reads and writes

A path gives a list of accesses: declarations, assignments, and the variables its expressions and
null checks read.  `Accesses` derives the list of each path.
-/

namespace BpfVerifier.FstarAst

open VarCtx

inductive Access where
  | declare (name : String)
  | assign (name : String)
  | read (name : String)
  deriving DecidableEq, Repr

/-- The variables an expression reads; pointer arithmetic names its pointer. -/
def Expr.reads {ctx : VarCtx} : ∀ {t : CType}, Expr ctx t → List String
  | _, .VarRef name _ _ _ => [name]
  | _, .PtrAdd ptrVar _ _ offset => ptrVar :: offset.reads
  | _, .PtrSub ptrVar _ _ offset => ptrVar :: offset.reads
  | _, .Deref ptr => ptr.reads
  | _, .BinOp _ lhs rhs _ => lhs.reads ++ rhs.reads
  | _, .UnaryOp _ operand _ => operand.reads
  | _, .AddrOf inner => inner.reads
  | _, .FieldAccess obj _ _ => obj.reads
  | _, .Cast _ inner _ _ => inner.reads
  | _, .ArrayIndex arr idx => arr.reads ++ idx.reads
  | _, .IntLit _ _ | _, .UIntLit _ _ | _, .BoolLit _ | _, .SizeOf _ => []

/-- The accesses of evaluating an expression. -/
def Expr.accesses {ctx : VarCtx} {t : CType} (e : Expr ctx t) : List Access := e.reads.map .read

/-- **The accesses of a path through a statement**, and whether it ends in a Return. -/
inductive Accesses : ∀ {pt : BpfProgType} {ctx ctx' : VarCtx}, Stmt pt ctx ctx' → List Access →
    Bool → Prop
  | declare {pt : BpfProgType} {ctx : VarCtx} {name : String} {t : CType} :
      Accesses (.Declare name t : Stmt pt ctx _) [.declare name] false
  | assign {pt : BpfProgType} {ctx : VarCtx} {t : CType} {name : String} {value : Expr ctx t}
      {vc : ValClass} (hread : vc.isReadable = true) (hcompat : valClassCompatible vc t = true) :
      Accesses (.Assign name value vc hread hcompat : Stmt pt ctx _)
        (value.accesses ++ [.assign name]) false
  | seq {pt : BpfProgType} {ctx₁ ctx₂ ctx₃ : VarCtx} {first : Stmt pt ctx₁ ctx₂}
      {second : Stmt pt ctx₂ ctx₃} {accesses later : List Access} {returned : Bool} :
      Accesses first accesses false → Accesses second later returned →
      Accesses (.Seq first second) (accesses ++ later) returned
  | seqReturn {pt : BpfProgType} {ctx₁ ctx₂ ctx₃ : VarCtx} {first : Stmt pt ctx₁ ctx₂}
      {second : Stmt pt ctx₂ ctx₃} {accesses : List Access} : Accesses first accesses true →
      Accesses (.Seq first second) accesses true
  | ifThen {pt : BpfProgType} {ctx ctxThen ctxElse : VarCtx} {cond : Expr ctx .CBool}
      {thenBranch : Stmt pt ctx ctxThen} {elseBranch : Stmt pt ctx ctxElse}
      {accesses : List Access} {returned : Bool} : Accesses thenBranch accesses returned →
      Accesses (.If cond thenBranch elseBranch) (cond.accesses ++ accesses) returned
  | ifElse {pt : BpfProgType} {ctx ctxThen ctxElse : VarCtx} {cond : Expr ctx .CBool}
      {thenBranch : Stmt pt ctx ctxThen} {elseBranch : Stmt pt ctx ctxElse}
      {accesses : List Access} {returned : Bool} : Accesses elseBranch accesses returned →
      Accesses (.If cond thenBranch elseBranch) (cond.accesses ++ accesses) returned
  | ifNotNull {pt : BpfProgType} {ctx ctxNotNull ctxIsNull ctxThen ctxElse : VarCtx}
      {checkedVar : String} {hnot : ctx.refineNotNull checkedVar = some ctxNotNull}
      {hnull : ctx.refineIsNull checkedVar = some ctxIsNull}
      {thenBranch : Stmt pt ctxNotNull ctxThen} {elseBranch : Stmt pt ctxIsNull ctxElse}
      {accesses : List Access} {returned : Bool} : Accesses thenBranch accesses returned →
      Accesses (.IfNull checkedVar hnot hnull thenBranch elseBranch)
        (.read checkedVar :: accesses) returned
  | ifIsNull {pt : BpfProgType} {ctx ctxNotNull ctxIsNull ctxThen ctxElse : VarCtx}
      {checkedVar : String} {hnot : ctx.refineNotNull checkedVar = some ctxNotNull}
      {hnull : ctx.refineIsNull checkedVar = some ctxIsNull}
      {thenBranch : Stmt pt ctxNotNull ctxThen} {elseBranch : Stmt pt ctxIsNull ctxElse}
      {accesses : List Access} {returned : Bool} : Accesses elseBranch accesses returned →
      Accesses (.IfNull checkedVar hnot hnull thenBranch elseBranch)
        (.read checkedVar :: accesses) returned
  | loopDone {pt : BpfProgType} {ctx : VarCtx} {bound : ℕ} {hbound : 0 < bound}
      {cond : Expr ctx .CBool} {body : Stmt pt ctx ctx} :
      Accesses (.BoundedLoop bound hbound cond body) cond.accesses false
  | loopMore {pt : BpfProgType} {ctx : VarCtx} {bound : ℕ} {hbound : 0 < bound}
      {cond : Expr ctx .CBool} {body : Stmt pt ctx ctx} {accesses later : List Access}
      {returned : Bool} : Accesses body accesses false →
      Accesses (.BoundedLoop bound hbound cond body) later returned →
      Accesses (.BoundedLoop bound hbound cond body) (cond.accesses ++ accesses ++ later) returned
  | loopReturn {pt : BpfProgType} {ctx : VarCtx} {bound : ℕ} {hbound : 0 < bound}
      {cond : Expr ctx .CBool} {body : Stmt pt ctx ctx} {accesses : List Access} :
      Accesses body accesses true →
      Accesses (.BoundedLoop bound hbound cond body) (cond.accesses ++ accesses) true
  | return {pt : BpfProgType} {ctx : VarCtx} {value : Expr ctx cBpfReturn}
      (hrefs : ctx.allRefsReleased = true) :
      Accesses (.Return value hrefs : Stmt pt ctx []) value.accesses true
  | nop {pt : BpfProgType} {ctx : VarCtx} : Accesses (.Nop : Stmt pt ctx ctx) [] false
  | callAssign {pt : BpfProgType} {ctx : VarCtx} {name : String} {helper : HelperDesc}
      {args : List CType} (hargs : argsMatchHelper helper.hArgs args = true)
      (havail : helperAvailableFor helper pt = true) {retVc : ValClass}
      (hread : retVc.isReadable = true) :
      Accesses (.CallAssign name helper args hargs havail retVc hread : Stmt pt ctx _)
        [.assign name] false

/-! ## One variable along a path -/

/-- The variables that are assigned, and not declared anew since. -/
abbrev Assigned := String → Bool

/-- What an access changes about a variable. -/
def Assigned.step (s : Assigned) : Access → Assigned
  | .declare name => fun other => if other = name then false else s other
  | .assign name => fun other => if other = name then true else s other
  | .read _ => s

/-- At the entry there is the context of the programme. -/
def Assigned.entry : Assigned := fun name => decide (name = "ctx")

end BpfVerifier.FstarAst
