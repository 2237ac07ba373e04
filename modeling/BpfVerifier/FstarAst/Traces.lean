import BpfVerifier.FstarAst.Stmt
import BpfVerifier.Machinery.Monitor

/-!
# FstarAst/Traces — what happens to variables on a path through a statement

A path gives a list of events: assignments, then branches of null checks entered and left, and
dereferences of variables.  `Trace` derives the events of each path; `Tracked` is what they say of
one variable.
-/

namespace BpfVerifier.FstarAst

open VarCtx

inductive Event where
  /-- A variable is assigned, by a helper that may return null or otherwise, with a class. -/
  | assign (name : String) (nullable : Bool) (vc : ValClass)
  /-- The then branch of a null check is entered. -/
  | enter (checkedVar : String)
  /-- The then branch is left; the class is the variable's after the merge. -/
  | leave (checkedVar : String) (vc : Option ValClass)
  /-- `Deref (VarRef name)` is evaluated. -/
  | deref (name : String)

/-- The helper may return null. -/
def HelperDesc.isNullable (h : HelperDesc) : Bool :=
  match h.hReturn with
  | .RetNullablePtr _ => true
  | .RetScalar _ | .RetVoid => false

/-- The variable an expression refers to. -/
def Expr.varName {ctx : VarCtx} {t : CType} : Expr ctx t → Option String
  | .VarRef name _ _ _ => some name
  | _ => none

/-- The variables dereferenced in an expression. -/
def Expr.derefs {ctx : VarCtx} : ∀ {t : CType}, Expr ctx t → List String
  | _, .Deref ptr => ptr.derefs ++ ptr.varName.toList
  | _, .BinOp _ lhs rhs _ => lhs.derefs ++ rhs.derefs
  | _, .UnaryOp _ operand _ => operand.derefs
  | _, .AddrOf inner => inner.derefs
  | _, .FieldAccess obj _ _ => obj.derefs
  | _, .Cast _ inner _ _ => inner.derefs
  | _, .ArrayIndex arr idx => arr.derefs ++ idx.derefs
  | _, .PtrAdd _ _ _ offset => offset.derefs
  | _, .PtrSub _ _ _ offset => offset.derefs
  | _, .IntLit _ _ | _, .UIntLit _ _ | _, .BoolLit _ | _, .VarRef _ _ _ _ | _, .SizeOf _ => []

/-- The events of evaluating an expression. -/
def Expr.events {ctx : VarCtx} {t : CType} (e : Expr ctx t) : List Event := e.derefs.map .deref

/-- **The events of a path through a statement**, and whether it ends in a Return. -/
inductive Trace : ∀ {pt : BpfProgType} {ctx ctx' : VarCtx}, Stmt pt ctx ctx' → List Event → Bool →
    Prop
  | declare {pt : BpfProgType} {ctx : VarCtx} {name : String} {t : CType} :
      Trace (.Declare name t : Stmt pt ctx _) [] false
  | assign {pt : BpfProgType} {ctx : VarCtx} {t : CType} {name : String} {value : Expr ctx t}
      {vc : ValClass} (hread : vc.isReadable = true) (hcompat : valClassCompatible vc t = true) :
      Trace (.Assign name value vc hread hcompat : Stmt pt ctx _)
        (value.events ++ [.assign name false vc]) false
  | seq {pt : BpfProgType} {ctx₁ ctx₂ ctx₃ : VarCtx} {first : Stmt pt ctx₁ ctx₂}
      {second : Stmt pt ctx₂ ctx₃} {events later : List Event} {returned : Bool} :
      Trace first events false → Trace second later returned →
      Trace (.Seq first second) (events ++ later) returned
  | seqReturn {pt : BpfProgType} {ctx₁ ctx₂ ctx₃ : VarCtx} {first : Stmt pt ctx₁ ctx₂}
      {second : Stmt pt ctx₂ ctx₃} {events : List Event} : Trace first events true →
      Trace (.Seq first second) events true
  | ifThen {pt : BpfProgType} {ctx ctxThen ctxElse : VarCtx} {cond : Expr ctx .CBool}
      {thenBranch : Stmt pt ctx ctxThen} {elseBranch : Stmt pt ctx ctxElse} {events : List Event}
      {returned : Bool} : Trace thenBranch events returned →
      Trace (.If cond thenBranch elseBranch) (cond.events ++ events) returned
  | ifElse {pt : BpfProgType} {ctx ctxThen ctxElse : VarCtx} {cond : Expr ctx .CBool}
      {thenBranch : Stmt pt ctx ctxThen} {elseBranch : Stmt pt ctx ctxElse} {events : List Event}
      {returned : Bool} : Trace elseBranch events returned →
      Trace (.If cond thenBranch elseBranch) (cond.events ++ events) returned
  | ifNotNull {pt : BpfProgType} {ctx ctxNotNull ctxIsNull ctxThen ctxElse : VarCtx}
      {checkedVar : String} {hnot : ctx.refineNotNull checkedVar = some ctxNotNull}
      {hnull : ctx.refineIsNull checkedVar = some ctxIsNull}
      {thenBranch : Stmt pt ctxNotNull ctxThen} {elseBranch : Stmt pt ctxIsNull ctxElse}
      {events : List Event} : Trace thenBranch events false →
      Trace (.IfNull checkedVar hnot hnull thenBranch elseBranch)
        (.enter checkedVar :: events ++
          [.leave checkedVar ((joinCtx ctxThen ctxElse).lookup checkedVar)]) false
  | ifNotNullReturn {pt : BpfProgType} {ctx ctxNotNull ctxIsNull ctxThen ctxElse : VarCtx}
      {checkedVar : String} {hnot : ctx.refineNotNull checkedVar = some ctxNotNull}
      {hnull : ctx.refineIsNull checkedVar = some ctxIsNull}
      {thenBranch : Stmt pt ctxNotNull ctxThen} {elseBranch : Stmt pt ctxIsNull ctxElse}
      {events : List Event} : Trace thenBranch events true →
      Trace (.IfNull checkedVar hnot hnull thenBranch elseBranch) (.enter checkedVar :: events) true
  | ifIsNull {pt : BpfProgType} {ctx ctxNotNull ctxIsNull ctxThen ctxElse : VarCtx}
      {checkedVar : String} {hnot : ctx.refineNotNull checkedVar = some ctxNotNull}
      {hnull : ctx.refineIsNull checkedVar = some ctxIsNull}
      {thenBranch : Stmt pt ctxNotNull ctxThen} {elseBranch : Stmt pt ctxIsNull ctxElse}
      {events : List Event} {returned : Bool} : Trace elseBranch events returned →
      Trace (.IfNull checkedVar hnot hnull thenBranch elseBranch) events returned
  | loopDone {pt : BpfProgType} {ctx : VarCtx} {bound : ℕ} {hbound : 0 < bound}
      {cond : Expr ctx .CBool} {body : Stmt pt ctx ctx} :
      Trace (.BoundedLoop bound hbound cond body) cond.events false
  | loopMore {pt : BpfProgType} {ctx : VarCtx} {bound : ℕ} {hbound : 0 < bound}
      {cond : Expr ctx .CBool} {body : Stmt pt ctx ctx} {events later : List Event}
      {returned : Bool} : Trace body events false →
      Trace (.BoundedLoop bound hbound cond body) later returned →
      Trace (.BoundedLoop bound hbound cond body) (cond.events ++ events ++ later) returned
  | loopReturn {pt : BpfProgType} {ctx : VarCtx} {bound : ℕ} {hbound : 0 < bound}
      {cond : Expr ctx .CBool} {body : Stmt pt ctx ctx} {events : List Event} :
      Trace body events true →
      Trace (.BoundedLoop bound hbound cond body) (cond.events ++ events) true
  | return {pt : BpfProgType} {ctx : VarCtx} {value : Expr ctx cBpfReturn}
      (hrefs : ctx.allRefsReleased = true) :
      Trace (.Return value hrefs : Stmt pt ctx []) value.events true
  | nop {pt : BpfProgType} {ctx : VarCtx} : Trace (.Nop : Stmt pt ctx ctx) [] false
  | callAssign {pt : BpfProgType} {ctx : VarCtx} {name : String} {helper : HelperDesc}
      {args : List CType} (hargs : argsMatchHelper helper.hArgs args = true)
      (havail : helperAvailableFor helper pt = true) {retVc : ValClass}
      (hread : retVc.isReadable = true) :
      Trace (.CallAssign name helper args hargs havail retVc hread : Stmt pt ctx _)
        [.assign name helper.isNullable retVc] false

/-! ## One variable along a path -/

/-- What a path says of a variable so far. -/
structure Tracked where
  /-- It was last assigned by a helper that may return null. -/
  nullable : Bool
  /-- The then branches of its null checks the path is in, the innermost first, and whether it was
  not assigned since each was entered. -/
  checks : List Bool

/-- What an event changes about a variable. -/
def Tracked.step (name : String) (s : Tracked) : Event → Tracked
  | .assign name' nullable _ => if name' = name then ⟨nullable, s.checks.map fun _ => false⟩ else s
  | .enter name' => if name' = name then { s with checks := true :: s.checks } else s
  | .leave name' _ => if name' = name then { s with checks := s.checks.tail } else s
  | .deref _ => s

/-- What a path says of every variable. -/
abbrev Tracking := String → Tracked

def Tracking.step (s : Tracking) (e : Event) : Tracking := fun name => (s name).step name e

/-- Before the first event. -/
def Tracking.start : Tracking := fun _ => ⟨false, []⟩

end BpfVerifier.FstarAst
