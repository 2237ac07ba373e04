import BpfVerifier.FstarAst.Traces

/-!
# Properties/NullDerefs — dereferences of results that may be null

A helper call records any readable class for its result, also a pointer's for one that may be null.
Where no call does that, and no merge makes a checked result a pointer for good, every dereference
of such a result stands in the then branch of a null check (`derefsChecked`).
-/

namespace BpfVerifier.FstarAst

open VarCtx Monitor

/-! ## What is to hold, and when -/

/-- A variable dereferenced was not last assigned by a helper that may return null, or the path is
in the then branch of a null check on it, entered since. -/
def DerefChecked (s : Tracking) : Event → Prop
  | .deref name => (s name).nullable = true → true ∈ (s name).checks
  | _ => True

/-- **Every dereference of a path is checked.** -/
def DerefsChecked (events : List Event) : Prop :=
  Along Tracking.step DerefChecked .start events

/-- A class of pointers that are not null. -/
def isPointer (vc : ValClass) : Bool := valClassCompatible vc (.CPtr .CVoid)

/-- A call that may return null records no pointer, and nor does a merge after the then branch of a
null check on the variable of such a call. -/
def KeepsNullable (s : Tracking) : Event → Prop
  | .assign _ nullable vc => nullable = true → isPointer vc = false
  | .leave name (some vc) => (s name).nullable = true → isPointer vc = false
  | _ => True

/-- **Every step of a path keeps what may be null from being a pointer.** -/
def StepsKeepNullable (events : List Event) : Prop :=
  Along Tracking.step KeepsNullable .start events

/-! ## Classes -/

/-- What a pointer points to does not matter. -/
theorem isPointer_of_compatible {vc : ValClass} {t : CType}
    (h : valClassCompatible vc (.CPtr t) = true) : isPointer vc = true := by
  cases vc <;> first | rfl | cases h

/-- A pointer is joined of pointers. -/
theorem isPointer_of_join {a b c : ValClass} (hjoin : joinValClass a b = some c)
    (h : isPointer c = true) : isPointer a = true ∧ isPointer b = true := by
  unfold joinValClass at hjoin
  split at hjoin
  · obtain rfl := Option.some.inj hjoin
    cases h
  · obtain rfl := Option.some.inj hjoin
    cases h
  · exact ⟨rfl, rfl⟩
  · exact ⟨rfl, rfl⟩
  · exact ⟨rfl, rfl⟩
  · cases hjoin

theorem isPointer_of_joinCtx {a b : VarCtx} {name : String} {vc : ValClass}
    (hlookup : (joinCtx a b).lookup name = some vc) (h : isPointer vc = true) :
    (∃ va, a.lookup name = some va ∧ isPointer va = true) ∧
      ∃ vb, b.lookup name = some vb ∧ isPointer vb = true := by
  rw [lookup_joinCtx, Option.bind_eq_some_iff] at hlookup
  obtain ⟨va, ha, hlookup⟩ := hlookup
  obtain ⟨vb, hb, hvc⟩ := Option.map_eq_some_iff.mp hlookup
  cases hjoin : joinValClass va vb with
  | none =>
    rw [hjoin] at hvc
    subst hvc
    cases h
  | some c =>
    rw [hjoin] at hvc
    obtain rfl : c = vc := hvc
    obtain ⟨hpa, hpb⟩ := isPointer_of_join hjoin h
    exact ⟨⟨va, ha, hpa⟩, vb, hb, hpb⟩

/-- The class that `helper_return_val_class` gives what may be null is no pointer. -/
theorem not_isPointer_helperReturnValClass {h : HelperDesc} (hnull : h.isNullable = true)
    (rid : RefId) : isPointer (helperReturnValClass h rid) = false := by
  unfold HelperDesc.isNullable at hnull
  unfold helperReturnValClass
  cases hreturn : h.hReturn with
  | RetNullablePtr pointee => rfl
  | RetScalar t => simp [hreturn] at hnull
  | RetVoid => simp [hreturn] at hnull

/-! ## The invariant -/

/-- **A variable typed as a pointer is checked** if it may be null. -/
def Checked (ctx : VarCtx) (s : Tracking) : Prop :=
  ∀ name vc, ctx.lookup name = some vc → isPointer vc = true → (s name).nullable = true →
    true ∈ (s name).checks

section

variable {ctx : VarCtx} {s : Tracking}

/-- An update of a variable that is no pointer, or not from a helper that may return null. -/
theorem Checked.update (h : Checked ctx s) {s' : Tracking} {name : String} {vc : ValClass}
    (hother : ∀ other, other ≠ name → s' other = s other)
    (hself : isPointer vc = true → (s' name).nullable = true → true ∈ (s' name).checks) :
    Checked (ctx.update name vc) s' := by
  intro other vc' hlookup hpointer hnull
  rw [lookup_update_eq] at hlookup
  split at hlookup
  · next heq =>
    obtain rfl := heq
    obtain rfl := Option.some.inj hlookup
    exact hself hpointer hnull
  · next hne =>
    rw [hother other hne] at hnull ⊢
    exact h other vc' hlookup hpointer hnull

theorem Checked.declare (h : Checked ctx s) (name : String) : Checked (ctx.declare name) s :=
  h.update (fun _ _ => rfl) fun hpointer => nomatch hpointer

theorem step_assign_of_ne {name other : String} (hne : other ≠ name) (nullable : Bool)
    (vc : ValClass) : s.step (.assign name nullable vc) other = s other :=
  if_neg (Ne.symm hne)

theorem step_assign_self (name : String) (nullable : Bool) (vc : ValClass) :
    (s.step (.assign name nullable vc) name).nullable = nullable := by
  simp [Tracking.step, Tracked.step]

theorem Checked.assign (h : Checked ctx s) {name : String} {nullable : Bool} {vc : ValClass}
    (hkeeps : nullable = true → isPointer vc = false) :
    Checked (ctx.assign name vc) (s.step (.assign name nullable vc)) := by
  refine h.update (fun other hne => step_assign_of_ne hne nullable vc) fun hpointer hnull => ?_
  rw [step_assign_self] at hnull
  rw [hkeeps hnull] at hpointer
  cases hpointer

/-- Entering the then branch. -/
theorem Checked.refineNotNull (h : Checked ctx s) {ctx' : VarCtx} {name : String}
    (href : ctx.refineNotNull name = some ctx') : Checked ctx' (s.step (.enter name)) := by
  obtain ⟨vc, -, hcheck, rfl⟩ := refineNotNull_eq_some.mp href
  refine h.update (fun other hne => if_neg (Ne.symm hne)) fun _ _ => ?_
  simp [Tracking.step, Tracked.step]

/-- Entering the else branch. -/
theorem Checked.refineIsNull (h : Checked ctx s) {ctx' : VarCtx} {name : String}
    (href : ctx.refineIsNull name = some ctx') : Checked ctx' s := by
  obtain ⟨vc, -, hcheck, rfl⟩ := refineIsNull_eq_some.mp href
  exact h.update (fun _ _ => rfl) fun hpointer => nomatch hpointer

theorem Checked.joinLeft (h : Checked ctx s) (other : VarCtx) : Checked (joinCtx ctx other) s := by
  intro name vc hlookup hpointer hnull
  obtain ⟨⟨va, ha, hpa⟩, -⟩ := isPointer_of_joinCtx hlookup hpointer
  exact h name va ha hpa hnull

theorem Checked.joinRight (h : Checked ctx s) (other : VarCtx) : Checked (joinCtx other ctx) s := by
  intro name vc hlookup hpointer hnull
  obtain ⟨-, vb, hb, hpb⟩ := isPointer_of_joinCtx hlookup hpointer
  exact h name vb hb hpb hnull

/-- Leaving the then branch. -/
theorem Checked.leave (h : Checked ctx s) {name : String}
    (hkeeps : KeepsNullable s (.leave name (ctx.lookup name))) :
    Checked ctx (s.step (.leave name (ctx.lookup name))) := by
  intro other vc hlookup hpointer hnull
  by_cases heq : name = other
  · obtain rfl := heq
    have hnull' : (s name).nullable = true := by simpa [Tracking.step, Tracked.step] using hnull
    rw [hlookup] at hkeeps
    rw [hkeeps hnull'] at hpointer
    cases hpointer
  · have hsame : s.step (.leave name (ctx.lookup name)) other = s other := if_neg heq
    rw [hsame] at hnull ⊢
    exact h other vc hlookup hpointer hnull

/-! ## Expressions -/

/-- A variable referred to as a pointer is typed as one. -/
theorem isPointer_of_varName {t : CType} {e : Expr ctx (.CPtr t)} {name : String}
    (h : e.varName = some name) : ∃ vc, ctx.lookup name = some vc ∧ isPointer vc = true := by
  unfold Expr.varName at h
  split at h
  · next name' hread hcompat =>
    obtain rfl := Option.some.inj h
    unfold varTypeCompatible at hcompat
    split at hcompat
    · next vc hlookup => exact ⟨vc, hlookup, isPointer_of_compatible hcompat⟩
    · cases hcompat
  · cases h

/-- A variable dereferenced is typed as a pointer. -/
theorem isPointer_of_mem_derefs {t : CType} (e : Expr ctx t) {name : String}
    (hmem : name ∈ e.derefs) : ∃ vc, ctx.lookup name = some vc ∧ isPointer vc = true := by
  induction e with
  | IntLit | UIntLit | BoolLit | VarRef | SizeOf => simp [Expr.derefs] at hmem
  | BinOp op lhs rhs hop ihl ihr =>
    rw [Expr.derefs, List.mem_append] at hmem
    exact hmem.elim ihl ihr
  | UnaryOp op operand hop ih => exact ih (by simpa [Expr.derefs] using hmem)
  | Deref ptr ih =>
    rw [Expr.derefs, List.mem_append, Option.mem_toList] at hmem
    exact hmem.elim ih isPointer_of_varName
  | AddrOf inner ih => exact ih (by simpa [Expr.derefs] using hmem)
  | FieldAccess obj field hfield ih => exact ih (by simpa [Expr.derefs] using hmem)
  | Cast tTo inner hfrom hto ih => exact ih (by simpa [Expr.derefs] using hmem)
  | ArrayIndex arr idx iha ihi =>
    rw [Expr.derefs, List.mem_append] at hmem
    exact hmem.elim iha ihi
  | PtrAdd ptrVar hread harith offset ih => exact ih (by simpa [Expr.derefs] using hmem)
  | PtrSub ptrVar hread harith offset ih => exact ih (by simpa [Expr.derefs] using hmem)

/-- **Evaluating an expression dereferences checked variables only**, and tracks nothing new. -/
theorem Checked.events (h : Checked ctx s) {t : CType} (e : Expr ctx t) :
    Along Tracking.step DerefChecked s e.events ∧ run Tracking.step s e.events = s := by
  have hfixed : ∀ event ∈ e.events, s.step event = s := by
    intro event hevent
    obtain ⟨name, -, rfl⟩ := List.mem_map.mp hevent
    rfl
  refine ⟨(along_of_fixed hfixed).mpr fun event hevent => ?_, run_of_fixed hfixed⟩
  obtain ⟨name, hname, rfl⟩ := List.mem_map.mp hevent
  obtain ⟨vc, hlookup, hpointer⟩ := isPointer_of_mem_derefs e hname
  exact h name vc hlookup hpointer

end

/-! ## Paths -/

/-- **One path**: from a checked context its dereferences are checked, and it ends in a checked
context unless it returns. -/
theorem Trace.checked {pt : BpfProgType} {ctx ctx' : VarCtx} {stmt : Stmt pt ctx ctx'}
    {events : List Event} {returned : Bool} (h : Trace stmt events returned) {s : Tracking}
    (hchecked : Checked ctx s) (hkeeps : Along Tracking.step KeepsNullable s events) :
    Along Tracking.step DerefChecked s events ∧
      (returned = false → Checked ctx' (run Tracking.step s events)) := by
  induction h generalizing s with
  | declare => exact ⟨trivial, fun _ => hchecked.declare _⟩
  | @assign ctx t name value vc hread hcompat =>
    obtain ⟨hvalue, hrun⟩ := hchecked.events value
    rw [along_append, hrun, run_append, hrun]
    exact ⟨⟨hvalue, trivial, trivial⟩, fun _ => hchecked.assign fun hnull => nomatch hnull⟩
  | seq first second ih₁ ih₂ =>
    obtain ⟨hkeeps₁, hkeeps₂⟩ := along_append.mp hkeeps
    obtain ⟨hderef₁, hmiddle⟩ := ih₁ hchecked hkeeps₁
    obtain ⟨hderef₂, hend⟩ := ih₂ (hmiddle rfl) hkeeps₂
    exact ⟨along_append.mpr ⟨hderef₁, hderef₂⟩, by rwa [run_append]⟩
  | seqReturn first ih => exact ⟨(ih hchecked hkeeps).1, fun h => nomatch h⟩
  | @ifThen ctx ctxThen ctxElse cond thenBranch elseBranch events returned htrace ih =>
    obtain ⟨hcond, hrun⟩ := hchecked.events cond
    rw [along_append, hrun] at hkeeps
    obtain ⟨hderef, hend⟩ := ih hchecked hkeeps.2
    rw [along_append, hrun, run_append, hrun]
    exact ⟨⟨hcond, hderef⟩, fun hreturned => (hend hreturned).joinLeft ctxElse⟩
  | @ifElse ctx ctxThen ctxElse cond thenBranch elseBranch events returned htrace ih =>
    obtain ⟨hcond, hrun⟩ := hchecked.events cond
    rw [along_append, hrun] at hkeeps
    obtain ⟨hderef, hend⟩ := ih hchecked hkeeps.2
    rw [along_append, hrun, run_append, hrun]
    exact ⟨⟨hcond, hderef⟩, fun hreturned => (hend hreturned).joinRight ctxThen⟩
  | @ifNotNull ctx ctxNotNull ctxIsNull ctxThen ctxElse checkedVar hnot hnull thenBranch
      elseBranch events htrace ih =>
    obtain ⟨hkeepsThen, hleave, -⟩ := along_append.mp hkeeps
    obtain ⟨hderef, hend⟩ := ih (hchecked.refineNotNull hnot) hkeepsThen.2
    refine ⟨along_append.mpr ⟨⟨trivial, hderef⟩, trivial, trivial⟩, fun _ => ?_⟩
    rw [run_append]
    exact ((hend rfl).joinLeft ctxElse).leave hleave
  | @ifNotNullReturn ctx ctxNotNull ctxIsNull ctxThen ctxElse checkedVar hnot hnull thenBranch
      elseBranch events htrace ih =>
    obtain ⟨hderef, -⟩ := ih (hchecked.refineNotNull hnot) hkeeps.2
    exact ⟨⟨trivial, hderef⟩, fun h => nomatch h⟩
  | @ifIsNull ctx ctxNotNull ctxIsNull ctxThen ctxElse checkedVar hnot hnull thenBranch
      elseBranch events returned htrace ih =>
    obtain ⟨hderef, hend⟩ := ih (hchecked.refineIsNull hnull) hkeeps
    exact ⟨hderef, fun hreturned => (hend hreturned).joinRight ctxThen⟩
  | @loopDone ctx bound hbound cond body =>
    obtain ⟨hcond, hrun⟩ := hchecked.events cond
    exact ⟨hcond, fun _ => by rwa [hrun]⟩
  | @loopMore ctx bound hbound cond body events later returned hbody hrest ihb ihr =>
    obtain ⟨hcond, hrun⟩ := hchecked.events cond
    rw [along_append, along_append, run_append, hrun] at hkeeps
    obtain ⟨⟨-, hkeepsBody⟩, hkeepsRest⟩ := hkeeps
    obtain ⟨hderefBody, hmiddle⟩ := ihb hchecked hkeepsBody
    obtain ⟨hderefRest, hend⟩ := ihr (hmiddle rfl) hkeepsRest
    simp only [along_append, run_append, hrun]
    exact ⟨⟨⟨hcond, hderefBody⟩, hderefRest⟩, hend⟩
  | @loopReturn ctx bound hbound cond body events htrace ih =>
    obtain ⟨hcond, hrun⟩ := hchecked.events cond
    rw [along_append, hrun] at hkeeps
    rw [along_append, hrun]
    exact ⟨⟨hcond, (ih hchecked hkeeps.2).1⟩, fun h => nomatch h⟩
  | @«return» ctx value hrefs => exact ⟨(hchecked.events value).1, fun h => nomatch h⟩
  | nop => exact ⟨trivial, fun _ => hchecked⟩
  | @callAssign ctx name helper args hargs havail retVc hread =>
    exact ⟨⟨trivial, trivial⟩, fun _ => hchecked.assign hkeeps.1⟩

/-- Before the first event every context is checked. -/
theorem checked_start (ctx : VarCtx) : Checked ctx .start := fun _ _ _ _ hnull => nomatch hnull

/-- **On a path whose steps keep what may be null from being a pointer, every dereference is
checked.** -/
theorem derefsChecked {pt : BpfProgType} {ctx ctx' : VarCtx} (stmt : Stmt pt ctx ctx')
    (events : List Event) (returned : Bool) (htrace : Trace stmt events returned)
    (hkeeps : StepsKeepNullable events) : DerefsChecked events :=
  (htrace.checked (checked_start ctx) hkeeps).1

/-! ## A lookup -/

/-- The arguments of a map lookup. -/
def lookupArgs : List CType := [cU64, .CPtr .CVoid]

/-- `p = bpf_map_lookup_elem(..)`, recorded with a class. -/
def lookupInto (ctx : VarCtx) (vc : ValClass) (hread : vc.isReadable = true) :
    Stmt .ProgXDP ctx (ctx.assign "p" vc) :=
  .CallAssign "p" hMapLookupElem lookupArgs rfl rfl vc hread

/-- `x = *p`. -/
def derefInto (ctx : VarCtx) (hread : ctx.isReadable "p" = true)
    (hcompat : ctx.varTypeCompatible "p" (.CPtr cU64) = true) :
    Stmt .ProgXDP ctx (ctx.assign "x" scalarUnknown) :=
  .Assign "x" (.Deref (.VarRef "p" (.CPtr cU64) hread hcompat)) scalarUnknown
    isReadable_scalarUnknown rfl

/-- The lookup recorded with the class of its helper, and a dereference behind a null check. -/
def checkedLookup :=
  Stmt.Seq (lookupInto initialCtx (helperReturnValClass hMapLookupElem 0) rfl)
    (.IfNull "p" rfl rfl (derefInto _ rfl rfl) .Nop)

/-- Its path through the then branch. -/
def checkedPath : List Event :=
  [.assign "p" true (.PtrToMapValueOrNull 0 0), .enter "p", .deref "p",
    .assign "x" false scalarUnknown, .leave "p" (some .Uninit)]

theorem derefsChecked_checkedLookup : DerefsChecked checkedPath :=
  derefsChecked checkedLookup checkedPath false
    (.seq (.callAssign rfl rfl rfl) (.ifNotNull (.assign rfl rfl)))
    ⟨fun _ => @not_isPointer_helperReturnValClass hMapLookupElem rfl 0, trivial, trivial,
      Bool.noConfusion, fun _ => rfl, trivial⟩

/-- The lookup recorded with a pointer's class, and a dereference. -/
def uncheckedLookup :=
  Stmt.Seq (lookupInto initialCtx (.PtrToMapValue 0 0) rfl) (derefInto _ rfl rfl)

/-- **A call can record a pointer for a result that may be null.** -/
theorem not_derefsChecked : ¬∀ (pt : BpfProgType) (ctx ctx' : VarCtx) (stmt : Stmt pt ctx ctx')
    (events : List Event) (returned : Bool), Trace stmt events returned → DerefsChecked events := by
  intro h
  have hderef := h _ _ _ uncheckedLookup _ _ (.seq (.callAssign rfl rfl rfl) (.assign rfl rfl))
  have hchecks : true ∈ ([] : List Bool) := hderef.2.1 rfl
  cases hchecks

end BpfVerifier.FstarAst
