import BpfVerifier.FstarAst.Accesses

/-!
# Properties/DefiniteAssignment — no path of a typed programme reads an unassigned variable

A variable that a context classes as readable has been assigned on every path to it
(`Accesses.assigned`), merges included: what a join keeps readable both arms have assigned.  So each
read of a programme finds its variable assigned earlier on the path and not declared anew since
(`reads_assigned`).
-/

namespace BpfVerifier.FstarAst

open VarCtx Monitor

/-! ## Contexts -/

theorem isReadable_update (ctx : VarCtx) (name other : String) (vc : ValClass) :
    (ctx.update name vc).isReadable other =
      if other = name then vc.isReadable else ctx.isReadable other := by
  unfold VarCtx.isReadable
  by_cases heq : other = name
  · rw [heq, lookup_update, if_pos rfl]
  · rw [lookup_update_of_ne ctx vc heq, if_neg heq]

/-- A class joined of two is readable only if both are. -/
theorem isReadable_of_join {a b c : ValClass} (hjoin : joinValClass a b = some c)
    (h : c.isReadable = true) : a.isReadable = true ∧ b.isReadable = true := by
  cases a with
  | Uninit =>
    cases b with
    | Uninit =>
      obtain rfl := Option.some.inj hjoin
      cases h
    | _ => cases hjoin
  | _ =>
    cases b with
    | Uninit => cases hjoin
    | _ => exact ⟨rfl, rfl⟩

/-- **What a join keeps readable is readable in both contexts.** -/
theorem isReadable_of_joinCtx {a b : VarCtx} {name : String}
    (h : (joinCtx a b).isReadable name = true) :
    a.isReadable name = true ∧ b.isReadable name = true := by
  unfold VarCtx.isReadable at h ⊢
  rw [lookup_joinCtx] at h
  cases ha : a.lookup name with
  | none => simp [ha] at h
  | some va =>
    cases hb : b.lookup name with
    | none => simp [ha, hb] at h
    | some vb =>
      cases hjoin : joinValClass va vb with
      | none => simp [ha, hb, hjoin, ValClass.isReadable] at h
      | some c =>
        simp only [ha, hb, hjoin, Option.bind_some, Option.map_some, Option.getD_some] at h
        exact isReadable_of_join hjoin h

theorem isReadable_of_needsNullCheck {vc : ValClass} (h : needsNullCheck vc = true) :
    vc.isReadable = true := by
  cases vc <;> first | rfl | cases h

/-! ## The invariant -/

/-- **A readable variable is assigned.** -/
def Covers (ctx : VarCtx) (s : Assigned) : Prop :=
  ∀ name, ctx.isReadable name = true → s name = true

/-- A variable read is assigned. -/
def ReadAssigned (s : Assigned) : Access → Prop
  | .read name => s name = true
  | .declare _ | .assign _ => True

section

variable {ctx : VarCtx} {s : Assigned}

theorem Covers.declare (h : Covers ctx s) (name : String) :
    Covers (ctx.declare name) (s.step (.declare name)) := by
  intro other hread
  rw [VarCtx.declare, isReadable_update] at hread
  by_cases heq : other = name
  · rw [if_pos heq] at hread
    cases hread
  · rw [if_neg heq] at hread
    exact (if_neg heq).trans (h other hread)

theorem Covers.assign (h : Covers ctx s) (name : String) (vc : ValClass) :
    Covers (ctx.assign name vc) (s.step (.assign name)) := by
  intro other hread
  rw [VarCtx.assign, isReadable_update] at hread
  by_cases heq : other = name
  · exact if_pos heq
  · rw [if_neg heq] at hread
    exact (if_neg heq).trans (h other hread)

/-- A new class for a variable that is readable as it is. -/
theorem Covers.update (h : Covers ctx s) {name : String} (hread : ctx.isReadable name = true)
    (vc : ValClass) : Covers (ctx.update name vc) s := by
  intro other hother
  rw [isReadable_update] at hother
  by_cases heq : other = name
  · rw [heq]
    exact h name hread
  · rw [if_neg heq] at hother
    exact h other hother

/-- A null check reads its variable, and gives it another class. -/
theorem Covers.check (h : Covers ctx s) {name : String} {vc : ValClass}
    (hlookup : ctx.lookup name = some vc) (hcheck : needsNullCheck vc = true)
    (refined : ValClass) : s name = true ∧ Covers (ctx.update name refined) s := by
  have hread : ctx.isReadable name = true := by
    unfold VarCtx.isReadable
    rw [hlookup]
    exact isReadable_of_needsNullCheck hcheck
  exact ⟨h name hread, h.update hread refined⟩

theorem Covers.refineNotNull (h : Covers ctx s) {ctx' : VarCtx} {name : String}
    (href : ctx.refineNotNull name = some ctx') : s name = true ∧ Covers ctx' s := by
  obtain ⟨vc, hlookup, hcheck, rfl⟩ := refineNotNull_eq_some.mp href
  exact h.check hlookup hcheck _

theorem Covers.refineIsNull (h : Covers ctx s) {ctx' : VarCtx} {name : String}
    (href : ctx.refineIsNull name = some ctx') : s name = true ∧ Covers ctx' s := by
  obtain ⟨vc, hlookup, hcheck, rfl⟩ := refineIsNull_eq_some.mp href
  exact h.check hlookup hcheck _

theorem Covers.joinLeft (h : Covers ctx s) (other : VarCtx) : Covers (joinCtx ctx other) s :=
  fun name hread => h name (isReadable_of_joinCtx hread).1

theorem Covers.joinRight (h : Covers ctx s) (other : VarCtx) : Covers (joinCtx other ctx) s :=
  fun name hread => h name (isReadable_of_joinCtx hread).2

/-! ## Expressions -/

/-- A variable an expression reads is readable. -/
theorem isReadable_of_mem_reads {t : CType} (e : Expr ctx t) {name : String}
    (hmem : name ∈ e.reads) : ctx.isReadable name = true := by
  induction e with
  | IntLit | UIntLit | BoolLit | SizeOf => simp [Expr.reads] at hmem
  | VarRef name' t hread hcompat =>
    rw [Expr.reads, List.mem_singleton] at hmem
    rw [hmem]
    exact hread
  | BinOp op lhs rhs hop ihl ihr =>
    rw [Expr.reads, List.mem_append] at hmem
    exact hmem.elim ihl ihr
  | UnaryOp op operand hop ih => exact ih (by simpa [Expr.reads] using hmem)
  | Deref ptr ih => exact ih (by simpa [Expr.reads] using hmem)
  | AddrOf inner ih => exact ih (by simpa [Expr.reads] using hmem)
  | FieldAccess obj field hfield ih => exact ih (by simpa [Expr.reads] using hmem)
  | Cast tTo inner hfrom hto ih => exact ih (by simpa [Expr.reads] using hmem)
  | ArrayIndex arr idx iha ihi =>
    rw [Expr.reads, List.mem_append] at hmem
    exact hmem.elim iha ihi
  | PtrAdd ptrVar hread harith offset ih =>
    rw [Expr.reads, List.mem_cons] at hmem
    exact hmem.elim (fun heq => heq ▸ hread) ih
  | PtrSub ptrVar hread harith offset ih =>
    rw [Expr.reads, List.mem_cons] at hmem
    exact hmem.elim (fun heq => heq ▸ hread) ih

/-- **Evaluating an expression reads assigned variables only**, and assigns none. -/
theorem Covers.accesses (h : Covers ctx s) {t : CType} (e : Expr ctx t) :
    Along Assigned.step ReadAssigned s e.accesses ∧ run Assigned.step s e.accesses = s := by
  have hfixed : ∀ access ∈ e.accesses, s.step access = s := by
    intro access haccess
    obtain ⟨name, -, rfl⟩ := List.mem_map.mp haccess
    rfl
  refine ⟨(along_of_fixed hfixed).mpr fun access haccess => ?_, run_of_fixed hfixed⟩
  obtain ⟨name, hname, rfl⟩ := List.mem_map.mp haccess
  exact h name (isReadable_of_mem_reads e hname)

end

/-! ## Paths -/

/-- **One path**: from a context whose readable variables are assigned it reads assigned variables
only, and it ends in such a context unless it returns. -/
theorem Accesses.assigned {pt : BpfProgType} {ctx ctx' : VarCtx} {stmt : Stmt pt ctx ctx'}
    {accesses : List Access} {returned : Bool} (h : Accesses stmt accesses returned)
    {s : Assigned} (hcovers : Covers ctx s) :
    Along Assigned.step ReadAssigned s accesses ∧
      (returned = false → Covers ctx' (run Assigned.step s accesses)) := by
  induction h generalizing s with
  | declare => exact ⟨⟨trivial, trivial⟩, fun _ => hcovers.declare _⟩
  | @assign ctx t name value vc hread hcompat =>
    obtain ⟨hvalue, hrun⟩ := hcovers.accesses value
    rw [along_append, hrun, run_append, hrun]
    exact ⟨⟨hvalue, trivial, trivial⟩, fun _ => hcovers.assign name vc⟩
  | seq first second ih₁ ih₂ =>
    obtain ⟨hreads₁, hmiddle⟩ := ih₁ hcovers
    obtain ⟨hreads₂, hend⟩ := ih₂ (hmiddle rfl)
    exact ⟨along_append.mpr ⟨hreads₁, hreads₂⟩, by rwa [run_append]⟩
  | seqReturn first ih => exact ⟨(ih hcovers).1, fun h => nomatch h⟩
  | @ifThen ctx ctxThen ctxElse cond thenBranch elseBranch accesses returned hpath ih =>
    obtain ⟨hcond, hrun⟩ := hcovers.accesses cond
    obtain ⟨hreads, hend⟩ := ih hcovers
    rw [along_append, hrun, run_append, hrun]
    exact ⟨⟨hcond, hreads⟩, fun hreturned => (hend hreturned).joinLeft ctxElse⟩
  | @ifElse ctx ctxThen ctxElse cond thenBranch elseBranch accesses returned hpath ih =>
    obtain ⟨hcond, hrun⟩ := hcovers.accesses cond
    obtain ⟨hreads, hend⟩ := ih hcovers
    rw [along_append, hrun, run_append, hrun]
    exact ⟨⟨hcond, hreads⟩, fun hreturned => (hend hreturned).joinRight ctxThen⟩
  | @ifNotNull ctx ctxNotNull ctxIsNull ctxThen ctxElse checkedVar hnot hnull thenBranch
      elseBranch accesses returned hpath ih =>
    obtain ⟨hchecked, hbranch⟩ := hcovers.refineNotNull hnot
    obtain ⟨hreads, hend⟩ := ih hbranch
    exact ⟨⟨hchecked, hreads⟩, fun hreturned => (hend hreturned).joinLeft ctxElse⟩
  | @ifIsNull ctx ctxNotNull ctxIsNull ctxThen ctxElse checkedVar hnot hnull thenBranch
      elseBranch accesses returned hpath ih =>
    obtain ⟨hchecked, hbranch⟩ := hcovers.refineIsNull hnull
    obtain ⟨hreads, hend⟩ := ih hbranch
    exact ⟨⟨hchecked, hreads⟩, fun hreturned => (hend hreturned).joinRight ctxThen⟩
  | @loopDone ctx bound hbound cond body =>
    obtain ⟨hcond, hrun⟩ := hcovers.accesses cond
    exact ⟨hcond, fun _ => by rwa [hrun]⟩
  | @loopMore ctx bound hbound cond body accesses later returned hbody hrest ihb ihr =>
    obtain ⟨hcond, hrun⟩ := hcovers.accesses cond
    obtain ⟨hreadsBody, hmiddle⟩ := ihb hcovers
    obtain ⟨hreadsRest, hend⟩ := ihr (hmiddle rfl)
    simp only [along_append, run_append, hrun]
    exact ⟨⟨⟨hcond, hreadsBody⟩, hreadsRest⟩, hend⟩
  | @loopReturn ctx bound hbound cond body accesses hpath ih =>
    obtain ⟨hcond, hrun⟩ := hcovers.accesses cond
    rw [along_append, hrun]
    exact ⟨⟨hcond, (ih hcovers).1⟩, fun h => nomatch h⟩
  | @«return» ctx value hrefs => exact ⟨(hcovers.accesses value).1, fun h => nomatch h⟩
  | nop => exact ⟨trivial, fun _ => hcovers⟩
  | @callAssign ctx name helper args hargs havail retVc hread =>
    exact ⟨⟨trivial, trivial⟩, fun _ => hcovers.assign name retVc⟩

/-! ## Programmes -/

/-- The last write of a variable assigns it: no declaration follows that assignment. -/
def AssignedLast (name : String) (accesses : List Access) : Prop :=
  ∃ before after, accesses = before ++ .assign name :: after ∧ Access.declare name ∉ after

/-- **What the accesses say of a variable.** -/
theorem assignedLast_of_run {s : Assigned} {name : String} (accesses : List Access)
    (h : run Assigned.step s accesses name = true) :
    AssignedLast name accesses ∨ s name = true ∧ Access.declare name ∉ accesses := by
  induction accesses generalizing s with
  | nil => exact Or.inr ⟨h, List.not_mem_nil⟩
  | cons access accesses ih =>
    rcases ih h with ⟨before, after, rfl, hnot⟩ | ⟨hstart, hnot⟩
    · exact Or.inl ⟨access :: before, after, rfl, hnot⟩
    · -- nothing later writes the variable, so this access decides
      cases access with
      | read other => exact Or.inr ⟨hstart, by simp [hnot]⟩
      | assign other =>
        by_cases heq : name = other
        · subst heq
          exact Or.inl ⟨[], accesses, rfl, hnot⟩
        · exact Or.inr ⟨(if_neg heq).symm.trans hstart, by simp [hnot]⟩
      | declare other =>
        by_cases heq : name = other
        · cases (if_pos heq).symm.trans hstart
        · exact Or.inr ⟨(if_neg heq).symm.trans hstart, by simp [hnot, heq]⟩

theorem covers_entry : Covers initialCtx Assigned.entry := by
  intro name hread
  by_cases heq : name = "ctx"
  · exact decide_eq_true heq
  · simp [VarCtx.isReadable, initialCtx, lookup, Ne.symm heq] at hread

/-- **Uninitialised reads are impossible**: on every path of a programme, a variable read was
assigned earlier and not declared anew since, or it is the context the programme is entered with. -/
theorem reads_assigned (prog : BpfProg) {before after : List Access} {name : String}
    {returned : Bool} (h : Accesses prog.progBody (before ++ .read name :: after) returned) :
    AssignedLast name before ∨ name = "ctx" ∧ Access.declare name ∉ before := by
  obtain ⟨-, hread, -⟩ := along_append.mp (h.assigned covers_entry).1
  rcases assignedLast_of_run before hread with hlast | ⟨hentry, hnot⟩
  · exact Or.inl hlast
  · exact Or.inr ⟨of_decide_eq_true hentry, hnot⟩

/-- `int x; x = 7; return x;`. -/
def returnsLocal : BpfProg where
  progType := .ProgXDP
  progBody :=
    .Seq (.Declare "x" cBpfReturn)
      (.Seq (.Assign "x" (.IntLit 7 .W32) scalarUnknown isReadable_scalarUnknown rfl)
        (.Return (.VarRef "x" cBpfReturn rfl rfl) rfl))

/-- The variable is returned as it was assigned. -/
theorem reads_assigned_returnsLocal :
    AssignedLast "x" [.declare "x", .assign "x"] ∨
      "x" = "ctx" ∧ Access.declare "x" ∉ [.declare "x", .assign "x"] := by
  have hpath : Accesses returnsLocal.progBody
      ([.declare "x"] ++ ([] ++ [.assign "x"] ++ [.read "x"])) true :=
    .seq .declare (.seq (.assign rfl rfl) (.return rfl))
  have hread : Accesses returnsLocal.progBody ([.declare "x", .assign "x"] ++ .read "x" :: [])
      true := hpath
  exact reads_assigned returnsLocal hread

end BpfVerifier.FstarAst
