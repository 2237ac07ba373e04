import BpfVerifier.FstarAst.Expr
import BpfVerifier.FstarAst.Helpers

/-!
# FstarAst/Stmt — `BPF.AST.Stmt`, statements typed by the contexts before and after them

A conditional is typed with the join of its arms' contexts and a Return with the empty context.
`Passes` and `ReturnsWith` follow one path through a statement with the context of that path alone,
which is never joined with another.
-/

namespace BpfVerifier.FstarAst

open VarCtx

/-- **`stmt`.** -/
inductive Stmt : BpfProgType → VarCtx → VarCtx → Type
  | Declare {pt : BpfProgType} {ctx : VarCtx} (name : String) (t : CType) :
      Stmt pt ctx (ctx.declare name)
  | Assign {pt : BpfProgType} {ctx : VarCtx} {t : CType} (name : String) (value : Expr ctx t)
      (vc : ValClass) : vc.isReadable = true → valClassCompatible vc t = true →
      Stmt pt ctx (ctx.assign name vc)
  | Seq {pt : BpfProgType} {ctx₁ ctx₂ ctx₃ : VarCtx} (first : Stmt pt ctx₁ ctx₂)
      (second : Stmt pt ctx₂ ctx₃) : Stmt pt ctx₁ ctx₃
  | If {pt : BpfProgType} {ctx ctxThen ctxElse : VarCtx} (cond : Expr ctx .CBool)
      (thenBranch : Stmt pt ctx ctxThen) (elseBranch : Stmt pt ctx ctxElse) :
      Stmt pt ctx (joinCtx ctxThen ctxElse)
  | IfNull {pt : BpfProgType} {ctx ctxNotNull ctxIsNull ctxThen ctxElse : VarCtx}
      (checkedVar : String) : ctx.refineNotNull checkedVar = some ctxNotNull →
      ctx.refineIsNull checkedVar = some ctxIsNull → (thenBranch : Stmt pt ctxNotNull ctxThen) →
      (elseBranch : Stmt pt ctxIsNull ctxElse) → Stmt pt ctx (joinCtx ctxThen ctxElse)
  | BoundedLoop {pt : BpfProgType} {ctx : VarCtx} (bound : ℕ) : 0 < bound →
      (cond : Expr ctx .CBool) → (body : Stmt pt ctx ctx) → Stmt pt ctx ctx
  | Return {pt : BpfProgType} {ctx : VarCtx} (value : Expr ctx cBpfReturn) :
      ctx.allRefsReleased = true → Stmt pt ctx []
  | Nop {pt : BpfProgType} {ctx : VarCtx} : Stmt pt ctx ctx
  | CallAssign {pt : BpfProgType} {ctx : VarCtx} (name : String) (helper : HelperDesc)
      (args : List CType) : argsMatchHelper helper.hArgs args = true →
      helperAvailableFor helper pt = true → (retVc : ValClass) → retVc.isReadable = true →
      Stmt pt ctx (ctx.assign name retVc)

/-- `initial_ctx`: the context of a programme's entry. -/
def initialCtx : VarCtx := [("ctx", .PtrToCtx 0)]

/-- `bpf_prog`, its type and body. -/
structure BpfProg where
  progType : BpfProgType
  progBody : Stmt progType initialCtx []

/-! ## Paths -/

/-- A path through a statement to its end, with the contexts of the path. -/
inductive Passes : ∀ {pt : BpfProgType} {ctx ctx' : VarCtx}, Stmt pt ctx ctx' → VarCtx → VarCtx →
    Prop
  | declare {pt : BpfProgType} {ctx p : VarCtx} {name : String} {t : CType} :
      Passes (.Declare name t : Stmt pt ctx _) p (p.declare name)
  | assign {pt : BpfProgType} {ctx p : VarCtx} {t : CType} {name : String} {value : Expr ctx t}
      {vc : ValClass} (hread : vc.isReadable = true) (hcompat : valClassCompatible vc t = true) :
      Passes (.Assign name value vc hread hcompat : Stmt pt ctx _) p (p.assign name vc)
  | seq {pt : BpfProgType} {ctx₁ ctx₂ ctx₃ p q r : VarCtx} {first : Stmt pt ctx₁ ctx₂}
      {second : Stmt pt ctx₂ ctx₃} : Passes first p q → Passes second q r →
      Passes (.Seq first second) p r
  | ifThen {pt : BpfProgType} {ctx ctxThen ctxElse p q : VarCtx} {cond : Expr ctx .CBool}
      {thenBranch : Stmt pt ctx ctxThen} {elseBranch : Stmt pt ctx ctxElse} :
      Passes thenBranch p q → Passes (.If cond thenBranch elseBranch) p q
  | ifElse {pt : BpfProgType} {ctx ctxThen ctxElse p q : VarCtx} {cond : Expr ctx .CBool}
      {thenBranch : Stmt pt ctx ctxThen} {elseBranch : Stmt pt ctx ctxElse} :
      Passes elseBranch p q → Passes (.If cond thenBranch elseBranch) p q
  | ifNotNull {pt : BpfProgType} {ctx ctxNotNull ctxIsNull ctxThen ctxElse p p' q : VarCtx}
      {checkedVar : String} {hnot : ctx.refineNotNull checkedVar = some ctxNotNull}
      {hnull : ctx.refineIsNull checkedVar = some ctxIsNull}
      {thenBranch : Stmt pt ctxNotNull ctxThen} {elseBranch : Stmt pt ctxIsNull ctxElse} :
      p.refineNotNull checkedVar = some p' → Passes thenBranch p' q →
      Passes (.IfNull checkedVar hnot hnull thenBranch elseBranch) p q
  | ifIsNull {pt : BpfProgType} {ctx ctxNotNull ctxIsNull ctxThen ctxElse p p' q : VarCtx}
      {checkedVar : String} {hnot : ctx.refineNotNull checkedVar = some ctxNotNull}
      {hnull : ctx.refineIsNull checkedVar = some ctxIsNull}
      {thenBranch : Stmt pt ctxNotNull ctxThen} {elseBranch : Stmt pt ctxIsNull ctxElse} :
      p.refineIsNull checkedVar = some p' → Passes elseBranch p' q →
      Passes (.IfNull checkedVar hnot hnull thenBranch elseBranch) p q
  | loopDone {pt : BpfProgType} {ctx p : VarCtx} {bound : ℕ} {hbound : 0 < bound}
      {cond : Expr ctx .CBool} {body : Stmt pt ctx ctx} :
      Passes (.BoundedLoop bound hbound cond body) p p
  | loopMore {pt : BpfProgType} {ctx p q r : VarCtx} {bound : ℕ} {hbound : 0 < bound}
      {cond : Expr ctx .CBool} {body : Stmt pt ctx ctx} : Passes body p q →
      Passes (.BoundedLoop bound hbound cond body) q r →
      Passes (.BoundedLoop bound hbound cond body) p r
  | nop {pt : BpfProgType} {ctx p : VarCtx} : Passes (.Nop : Stmt pt ctx ctx) p p
  | callAssign {pt : BpfProgType} {ctx p : VarCtx} {name : String} {helper : HelperDesc}
      {args : List CType} (hargs : argsMatchHelper helper.hArgs args = true)
      (havail : helperAvailableFor helper pt = true) {retVc : ValClass}
      (hread : retVc.isReadable = true) :
      Passes (.CallAssign name helper args hargs havail retVc hread : Stmt pt ctx _) p
        (p.assign name retVc)

/-- A path through a statement to a Return in it, with the context there. -/
inductive ReturnsWith : ∀ {pt : BpfProgType} {ctx ctx' : VarCtx}, Stmt pt ctx ctx' → VarCtx →
    VarCtx → Prop
  | return {pt : BpfProgType} {ctx p : VarCtx} {value : Expr ctx cBpfReturn}
      (hrefs : ctx.allRefsReleased = true) :
      ReturnsWith (.Return value hrefs : Stmt pt ctx []) p p
  | seqFirst {pt : BpfProgType} {ctx₁ ctx₂ ctx₃ p q : VarCtx} {first : Stmt pt ctx₁ ctx₂}
      {second : Stmt pt ctx₂ ctx₃} : ReturnsWith first p q → ReturnsWith (.Seq first second) p q
  | seqSecond {pt : BpfProgType} {ctx₁ ctx₂ ctx₃ p q r : VarCtx} {first : Stmt pt ctx₁ ctx₂}
      {second : Stmt pt ctx₂ ctx₃} : Passes first p q → ReturnsWith second q r →
      ReturnsWith (.Seq first second) p r
  | ifThen {pt : BpfProgType} {ctx ctxThen ctxElse p q : VarCtx} {cond : Expr ctx .CBool}
      {thenBranch : Stmt pt ctx ctxThen} {elseBranch : Stmt pt ctx ctxElse} :
      ReturnsWith thenBranch p q → ReturnsWith (.If cond thenBranch elseBranch) p q
  | ifElse {pt : BpfProgType} {ctx ctxThen ctxElse p q : VarCtx} {cond : Expr ctx .CBool}
      {thenBranch : Stmt pt ctx ctxThen} {elseBranch : Stmt pt ctx ctxElse} :
      ReturnsWith elseBranch p q → ReturnsWith (.If cond thenBranch elseBranch) p q
  | ifNotNull {pt : BpfProgType} {ctx ctxNotNull ctxIsNull ctxThen ctxElse p p' q : VarCtx}
      {checkedVar : String} {hnot : ctx.refineNotNull checkedVar = some ctxNotNull}
      {hnull : ctx.refineIsNull checkedVar = some ctxIsNull}
      {thenBranch : Stmt pt ctxNotNull ctxThen} {elseBranch : Stmt pt ctxIsNull ctxElse} :
      p.refineNotNull checkedVar = some p' → ReturnsWith thenBranch p' q →
      ReturnsWith (.IfNull checkedVar hnot hnull thenBranch elseBranch) p q
  | ifIsNull {pt : BpfProgType} {ctx ctxNotNull ctxIsNull ctxThen ctxElse p p' q : VarCtx}
      {checkedVar : String} {hnot : ctx.refineNotNull checkedVar = some ctxNotNull}
      {hnull : ctx.refineIsNull checkedVar = some ctxIsNull}
      {thenBranch : Stmt pt ctxNotNull ctxThen} {elseBranch : Stmt pt ctxIsNull ctxElse} :
      p.refineIsNull checkedVar = some p' → ReturnsWith elseBranch p' q →
      ReturnsWith (.IfNull checkedVar hnot hnull thenBranch elseBranch) p q
  | loop {pt : BpfProgType} {ctx p q r : VarCtx} {bound : ℕ} {hbound : 0 < bound}
      {cond : Expr ctx .CBool} {body : Stmt pt ctx ctx} :
      Passes (.BoundedLoop bound hbound cond body) p q → ReturnsWith body q r →
      ReturnsWith (.BoundedLoop bound hbound cond body) p r

end BpfVerifier.FstarAst
