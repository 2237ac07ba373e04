import BpfVerifier.Ast.Convert
import BpfVerifier.Properties.EmitComments

/-!
# Properties/Conversion — which effects of a C body reach the emitted F* statement

`Corresponds` follows a body and its emitted statement down the same blocks and conditionals, and
asks for every declared variable and every helper called in statement position.  They are all there
just when each declaration statement has one variable and each such call is of a helper the emitter
knows, named plainly and not cast (`correspondsAll_iff`).  F* reads that statement in the text just
when the comments in it end where they are closed (`keepsEffects_iff`).
-/

namespace BpfVerifier.Ast

/-! ## Effects of a node -/

/-- The function that a call names, under parentheses, casts and dereferences. -/
def calleeName (n : Node) : Option String :=
  match n with
  | { kind, inner, .. } =>
    match kind with
    | "DeclRefExpr" => n.refName
    | "ParenExpr" | "ImplicitCastExpr" | "CStyleCastExpr" | "UnaryOperator" =>
      match inner with
      | c :: _ => calleeName c
      | [] => none
    | _ => none

/-- The function part of the call that an expression statement is, under parentheses and casts. -/
def calledFunction (n : Node) : Option Node :=
  match n with
  | { kind, inner, .. } =>
    match kind with
    | "CallExpr" => inner.head?
    | "ParenExpr" | "ImplicitCastExpr" | "CStyleCastExpr" =>
      match inner with
      | c :: _ => calledFunction c
      | [] => none
    | _ => none

/-- The variables of a declaration statement. -/
def declaredNames (n : Node) : List String :=
  (n.childrenOfKind "VarDecl").map fun d => d.name.getD "?"

/-! ## Effects of an emitted statement -/

/-- The variables declared, in order. -/
def FStmt.declares : FStmt → List String
  | .Declare name _ => [name]
  | .Seq first second => first.declares ++ second.declares
  | .If _ thenBranch elseBranch | .IfNull _ thenBranch elseBranch =>
    thenBranch.declares ++ elseBranch.declares
  | _ => []

/-- A call of the helper. -/
def FStmt.Calls (helper : String) : FStmt → Prop
  | .CallAssign _ desc _ _ => desc.hName = helper
  | _ => False

/-- A conditional with such arms. -/
def FStmt.HasArms (p q : FStmt → Prop) : FStmt → Prop
  | .If _ thenBranch elseBranch | .IfNull _ thenBranch elseBranch => p thenBranch ∧ q elseBranch
  | _ => False

/-! ## Correspondence -/

section

variable (IsHelper : String → Prop)

mutual

/-- **The emitted statement has the effects of the node**: its variables, its helper call, and those
of its statements in the same order and arms. -/
def Corresponds (n : Node) (f : FStmt) : Prop :=
  match n with
  | { kind, inner, .. } =>
    match kind with
    | "DeclStmt" => f.declares = declaredNames n
    | "ReturnStmt" => True
    | "IfStmt" =>
      match inner with
      | _ :: t :: e :: _ => f.HasArms (Corresponds t) (Corresponds e)
      | [_, t] => f.HasArms (Corresponds t) (· = .Nop)
      | _ => True
    | "CompoundStmt" => CorrespondsAll inner f
    | _ => ∀ callee ∈ calledFunction n, ∀ helper ∈ calleeName callee, IsHelper helper →
      f.Calls helper

def CorrespondsAll (ns : List Node) (f : FStmt) : Prop :=
  match ns with
  | [] => f = .Nop
  | [n] => Corresponds n f
  | n :: rest =>
    match f with
    | .Seq first second => Corresponds n first ∧ CorrespondsAll rest second
    | _ => False

end

/-! ## The bodies that keep their effects -/

/-- A call under parentheses and casts, none of them an explicit cast to a type. -/
def Uncast (n : Node) : Prop :=
  match n with
  | { kind, inner, .. } =>
    match kind with
    | "CallExpr" => True
    | "ParenExpr" | "ImplicitCastExpr" =>
      match inner with
      | c :: _ => Uncast c
      | [] => False
    | "CStyleCastExpr" =>
      match inner with
      | c :: _ => n.ty.isNone = true ∧ Uncast c
      | [] => False
    | _ => False

/-- A function named under implicit casts only. -/
def NamedPlainly (n : Node) : Prop :=
  match n with
  | { kind, inner, .. } =>
    match kind with
    | "DeclRefExpr" => True
    | "ImplicitCastExpr" =>
      match inner with
      | c :: _ => NamedPlainly c
      | [] => False
    | _ => False

mutual

/-- **Declarations of one variable and plain calls of known helpers.**  The emitter takes the helper
it does not know for `bpf_get_current_pid_tgid`. -/
def Faithful (n : Node) : Prop :=
  match n with
  | { kind, inner, .. } =>
    match kind with
    | "DeclStmt" => (n.childrenOfKind "VarDecl").length = 1
    | "ReturnStmt" => True
    | "IfStmt" =>
      match inner with
      | _ :: t :: e :: _ => Faithful t ∧ Faithful e
      | [_, t] => Faithful t
      | _ => True
    | "CompoundStmt" => FaithfulAll inner
    | _ => ∀ callee ∈ calledFunction n, ∀ helper ∈ calleeName callee, IsHelper helper →
      Uncast n ∧ (helper = "bpf_get_current_pid_tgid" ∨
        helper ∈ knownHelpers ∧ NamedPlainly callee)

def FaithfulAll (ns : List Node) : Prop :=
  match ns with
  | [] => True
  | n :: rest => Faithful n ∧ FaithfulAll rest

end

end

/-! ## Declarations -/

theorem declares_emitDeclare (name : String) (ty : FstarAst.CType) (init : Option Expr) :
    (emitDeclare name ty init).declares = [name] := by
  unfold emitDeclare
  split <;> rfl

/-- A declaration statement is its first variable. -/
theorem convertDeclStmt_eq_ok {n : Node} {s : Stmt} (h : convertDeclStmt n = .ok s) :
    ∃ d rest ty init, n.childrenOfKind "VarDecl" = d :: rest ∧
      s = .Declare (d.name.getD "?") ty init := by
  unfold convertDeclStmt at h
  rw [Node.firstChildOfKind_eq_head?] at h
  cases hdecls : n.childrenOfKind "VarDecl" with
  | nil =>
    rw [hdecls] at h
    cases h
  | cons d rest =>
    rw [hdecls] at h
    obtain ⟨ty, -, h⟩ := ok_of_bind h
    obtain ⟨init, -, h⟩ := ok_of_bind h
    exact ⟨d, rest, ty, init, rfl, (Except.ok.inj h).symm⟩

theorem declares_iff {n : Node} {s : Stmt} (h : convertDeclStmt n = .ok s) :
    (emitStmt s).declares = declaredNames n ↔ (n.childrenOfKind "VarDecl").length = 1 := by
  obtain ⟨d, rest, ty, init, hdecls, rfl⟩ := convertDeclStmt_eq_ok h
  simp only [emitStmt, declares_emitDeclare, declaredNames, hdecls]
  simp

/-! ## Calls -/

/-- A plainly named function is the one `extract_call_name` finds, and no other is found. -/
theorem extractCallName_eq (n : Node) :
    (NamedPlainly n ∧ extractCallName n = calleeName n) ∨
      (¬ NamedPlainly n ∧ extractCallName n = none) := by
  induction n using extractCallName.induct with
  | case1 => simp [extractCallName, calleeName, NamedPlainly]
  | case2 _ _ _ _ _ _ c _ ih => simpa [extractCallName, calleeName, NamedPlainly] using ih
  | case3 => simp [extractCallName, NamedPlainly]
  | case4 => simp [extractCallName, NamedPlainly, *]

/-- The call that stays one, and the explicit cast that hides it. -/
theorem convertExpr_of_calledFunction {n callee : Node} {e : Expr} (h : convertExpr n = .ok e)
    (hcallee : calledFunction n = some callee) :
    (Uncast n ∧ ∃ args, e = .Call ((extractCallName callee).getD "<unknown>") args) ∨
      (¬ Uncast n ∧ ∃ operand ty, e = .Cast operand ty) := by
  induction n using calledFunction.induct generalizing e with
  | case1 _ _ _ _ _ _ inner =>
    cases inner with
    | nil => cases hcallee
    | cons f args =>
      obtain rfl : f = callee := Option.some.inj hcallee
      simp only [convertExpr] at h
      obtain ⟨args, -, h⟩ := ok_of_bind h
      exact Or.inl ⟨by simp only [Uncast], args, (Except.ok.inj h).symm⟩
  | case2 _ _ _ _ _ _ c _ ih =>
    simp only [convertExpr, calledFunction] at h hcallee
    simpa only [Uncast] using ih h hcallee
  | case3 => cases hcallee
  | case4 _ _ _ _ _ _ c _ ih =>
    simp only [convertExpr, calledFunction] at h hcallee
    simpa only [Uncast] using ih h hcallee
  | case5 => cases hcallee
  | case6 _ ty _ _ _ _ c _ ih =>
    simp only [convertExpr, calledFunction] at h hcallee
    obtain ⟨operand, hoperand, h⟩ := ok_of_bind h
    cases ty with
    | none =>
      obtain rfl := Except.ok.inj h
      simpa [Uncast] using ih hoperand hcallee
    | some t =>
      obtain ⟨ty, -, h⟩ := ok_of_bind h
      exact Or.inr ⟨by simp [Uncast], operand, ty, (Except.ok.inj h).symm⟩
  | case7 => cases hcallee
  | case8 _ _ _ _ _ _ _ _ hcall hparen himplicit hcast =>
    simp [calledFunction, *] at hcallee

theorem calls_call_iff {name helper : String} {args : List Expr} :
    (emitStmt (.ExprStmt (.Call name args))).Calls helper ↔
      (if name ∈ knownHelpers then name else "bpf_get_current_pid_tgid") = helper := by
  rw [← hName_emitHelperRef]
  rfl

/-- **The helper called by an expression statement is the one emitted** just when it is known and
its call plain. -/
theorem calls_iff {n callee : Node} {e : Expr} {helper : String} (h : convertExpr n = .ok e)
    (hcallee : calledFunction n = some callee) (hname : calleeName callee = some helper) :
    (emitStmt (.ExprStmt e)).Calls helper ↔
      Uncast n ∧ (helper = "bpf_get_current_pid_tgid" ∨
        helper ∈ knownHelpers ∧ NamedPlainly callee) := by
  rcases convertExpr_of_calledFunction h hcallee with
    ⟨huncast, args, rfl⟩ | ⟨hcast, operand, ty, rfl⟩
  · rw [calls_call_iff]
    rcases extractCallName_eq callee with ⟨hplain, heq⟩ | ⟨hplain, heq⟩
    · rw [heq, hname, Option.getD_some]
      by_cases hknown : helper ∈ knownHelpers
      · simp [hknown, huncast, hplain]
      · simp [hknown, huncast, eq_comm]
    · have hunknown : "<unknown>" ∉ knownHelpers := by decide
      rw [heq, Option.getD_none, if_neg hunknown]
      simp [huncast, hplain, eq_comm]
  · exact iff_of_false id fun hplain => hcast hplain.1

/-! ## Bodies -/

section

variable {IsHelper : String → Prop}

theorem hasArms_emitStmt_If {p q : FStmt → Prop} {cond : Expr} {thenStmts elseStmts : List Stmt} :
    (emitStmt (.If cond thenStmts elseStmts)).HasArms p q ↔
      p (emitStmts thenStmts) ∧ q (emitStmts elseStmts) := by
  simp only [emitStmt]
  split <;> exact Iff.rfl

/-- An expression in statement position. -/
theorem corresponds_exprStmt_iff {n : Node} {e : Expr} (h : convertExpr n = .ok e) :
    (∀ callee ∈ calledFunction n, ∀ helper ∈ calleeName callee, IsHelper helper →
        (emitStmt (.ExprStmt e)).Calls helper) ↔
      ∀ callee ∈ calledFunction n, ∀ helper ∈ calleeName callee, IsHelper helper →
        Uncast n ∧ (helper = "bpf_get_current_pid_tgid" ∨
          helper ∈ knownHelpers ∧ NamedPlainly callee) :=
  forall₅_congr fun _ hcallee _ hname _ => calls_iff h hcallee hname

theorem convertStmts_eq_nil {ns : List Node} {ss : List Stmt} (h : convertStmts ns = .ok ss) :
    ns = [] ↔ ss = [] := by
  cases ns with
  | nil =>
    obtain rfl := Except.ok.inj h
    exact iff_of_true rfl rfl
  | cons n ns =>
    simp only [convertStmts] at h
    obtain ⟨s, -, h⟩ := ok_of_bind h
    obtain ⟨rest, -, h⟩ := ok_of_bind h
    obtain rfl := Except.ok.inj h
    exact iff_of_false (List.cons_ne_nil _ _) (List.cons_ne_nil _ _)

/-- A statement before others, also when there are none. -/
theorem correspondsAll_cons {n : Node} {ns : List Node} {s : Stmt} {ss : List Stmt}
    (h : ns = [] ↔ ss = []) :
    CorrespondsAll IsHelper (n :: ns) (emitStmts (s :: ss)) ↔
      Corresponds IsHelper n (emitStmt s) ∧ CorrespondsAll IsHelper ns (emitStmts ss) := by
  cases ns with
  | nil =>
    obtain rfl := h.mp rfl
    simp only [CorrespondsAll, emitStmts, and_true]
  | cons n' ns =>
    cases ss with
    | nil => cases h.mpr rfl
    | cons s' ss => simp only [CorrespondsAll, emitStmts]

/-- The statements of a block, each with its own. -/
theorem correspondsAll_iff {ns : List Node} {ss : List Stmt} (h : convertStmts ns = .ok ss) :
    CorrespondsAll IsHelper ns (emitStmts ss) ↔ FaithfulAll IsHelper ns := by
  refine convertStmts.induct
    (fun n => ∀ s, convertStmt n = .ok s →
      (Corresponds IsHelper n (emitStmt s) ↔ Faithful IsHelper n))
    (fun ns => ∀ ss, convertStmts ns = .ok ss →
      (CorrespondsAll IsHelper ns (emitStmts ss) ↔ FaithfulAll IsHelper ns))
    ?decl ?ret ?ifElse ?ifThen ?ifShort ?compound ?expr ?nil ?cons ns ss h
  case decl =>
    intro _ _ _ _ _ _ _ s h
    simp only [convertStmt, Corresponds, Faithful] at h ⊢
    exact declares_iff h
  case ret =>
    intro _ _ _ _ _ _ _ s h
    simp only [Corresponds, Faithful]
  case ifElse =>
    intro _ _ _ _ _ _ c t e _ ihThen ihElse s h
    simp only [convertStmt] at h
    obtain ⟨cond, -, h⟩ := ok_of_bind h
    obtain ⟨thenBranch, hthen, h⟩ := ok_of_bind h
    obtain ⟨elseBranch, helse, h⟩ := ok_of_bind h
    obtain rfl := Except.ok.inj h
    simp only [Corresponds, Faithful]
    rw [hasArms_emitStmt_If, emitStmts_arm, emitStmts_arm]
    exact and_congr (ihThen _ hthen) (ihElse _ helse)
  case ifThen =>
    intro _ _ _ _ _ _ c t ihThen s h
    simp only [convertStmt] at h
    obtain ⟨cond, -, h⟩ := ok_of_bind h
    obtain ⟨thenBranch, hthen, h⟩ := ok_of_bind h
    obtain rfl := Except.ok.inj h
    simp only [Corresponds, Faithful]
    rw [hasArms_emitStmt_If, emitStmts_arm]
    exact (and_iff_left rfl).trans (ihThen _ hthen)
  case ifShort =>
    intro _ _ _ _ _ _ inner hthree htwo s h
    simp only [convertStmt] at h
    cases h
  case compound =>
    intro _ _ _ _ _ _ inner ih s h
    simp only [convertStmt] at h
    obtain ⟨stmts, hstmts, h⟩ := ok_of_bind h
    obtain rfl := Except.ok.inj h
    simp only [Corresponds, Faithful, emitStmt]
    exact ih _ hstmts
  case expr =>
    intro kind _ _ _ _ _ _ _ hdecl hreturn hif hcompound s h
    simp only [convertStmt] at h
    obtain ⟨e, he, h⟩ := ok_of_bind h
    obtain rfl := Except.ok.inj h
    simp only [Corresponds, Faithful]
    exact corresponds_exprStmt_iff he
  case nil =>
    intro ss h
    obtain rfl := Except.ok.inj h
    simp only [CorrespondsAll, FaithfulAll, emitStmts]
  case cons =>
    intro n ns ih ihs ss h
    simp only [convertStmts] at h
    obtain ⟨s, hs, h⟩ := ok_of_bind h
    obtain ⟨rest, hrest, h⟩ := ok_of_bind h
    obtain rfl := Except.ok.inj h
    rw [correspondsAll_cons (convertStmts_eq_nil hrest)]
    simp only [FaithfulAll]
    exact and_congr (ih _ hs) (ihs _ hrest)

/-- **The emitted text keeps the effects of the body**: F* reads a statement in it, and the
statement has them. -/
def KeepsEffects (IsHelper : String → Prop) (body : Node) (indent : ℕ) (stmts : List Stmt) : Prop :=
  ∃ f, readStmt (emitStmtsText indent stmts) = some f ∧ CorrespondsAll IsHelper body.inner f

/-- A text that can be read keeps the effects just when the body is faithful. -/
theorem keepsEffects_iff_of_readable {body : Node} {stmts : List Stmt}
    (h : convertCompoundStmt body = .ok stmts) (indent : ℕ) (hread : StmtsReadable stmts) :
    KeepsEffects IsHelper body indent stmts ↔ FaithfulAll IsHelper body.inner := by
  rw [KeepsEffects, readStmt_emitStmtsText indent hread, ← correspondsAll_iff h]
  constructor
  · rintro ⟨f, hf, hkeeps⟩
    obtain rfl := Option.some.inj hf
    exact hkeeps
  · exact fun hkeeps => ⟨_, rfl, hkeeps⟩

/-- **The emitted text keeps the effects of the body** just when the body is faithful and the text
can be read: no comment of it opens another.  Names that are not those of C may close one. -/
theorem keepsEffects_iff {body : Node} {stmts : List Stmt}
    (h : convertCompoundStmt body = .ok stmts) (indent : ℕ) :
    (StmtsNamed stmts →
      (KeepsEffects IsHelper body indent stmts ↔
        FaithfulAll IsHelper body.inner ∧ StmtsReadable stmts)) ∧
    (StmtsReadable stmts →
      (KeepsEffects IsHelper body indent stmts ↔ FaithfulAll IsHelper body.inner)) := by
  refine ⟨fun hnamed => ?_, keepsEffects_iff_of_readable h indent⟩
  constructor
  · rintro hkeeps
    obtain ⟨f, hf, hcorresponds⟩ := hkeeps
    have hread := (readStmt_isSome_iff indent hnamed).mp (Option.isSome_of_mem hf)
    exact ⟨(keepsEffects_iff_of_readable h indent hread).mp ⟨f, hf, hcorresponds⟩, hread⟩
  · rintro ⟨hfaithful, hread⟩
    exact (keepsEffects_iff_of_readable h indent hread).mpr hfaithful

end

/-! ## Bodies of each kind -/

/-- `name(args)`, as Clang has it. -/
def callNode (name : String) (args : List Node) : Node where
  kind := "CallExpr"
  inner :=
    { kind := "ImplicitCastExpr"
      castKind := some "FunctionToPointerDecay"
      inner := [{ kind := "DeclRefExpr", referencedDecl := some ⟨some name⟩ }] } :: args

def varNode (name ty : String) : Node where
  kind := "DeclRefExpr"
  ty := some ⟨ty⟩
  referencedDecl := some ⟨some name⟩

def declNode (name ty : String) (init : Node) : Node where
  kind := "VarDecl"
  name := some name
  ty := some ⟨ty⟩
  inner := [init]

/-- `{ __u64 now = bpf_ktime_get_ns(); if (now) { (bpf_get_prandom_u32()); } }` -/
def timedBody : Node where
  kind := "CompoundStmt"
  inner :=
    [{ kind := "DeclStmt", inner := [declNode "now" "__u64" (callNode "bpf_ktime_get_ns" [])] },
      { kind := "IfStmt"
        inner :=
          [varNode "now" "__u64",
            { kind := "CompoundStmt"
              inner := [{ kind := "ParenExpr", inner := [callNode "bpf_get_prandom_u32" []] }] }] }]

/-- `{ __u64 a = bpf_ktime_get_ns(), b = bpf_ktime_get_ns(); }` -/
def twoVariables : Node where
  kind := "CompoundStmt"
  inner :=
    [{ kind := "DeclStmt"
       inner := [declNode "a" "__u64" (callNode "bpf_ktime_get_ns" []),
        declNode "b" "__u64" (callNode "bpf_ktime_get_ns" [])] }]

/-- `{ (void)bpf_ktime_get_ns(); }` -/
def castCall : Node where
  kind := "CompoundStmt"
  inner :=
    [{ kind := "CStyleCastExpr"
       ty := some ⟨"void"⟩
       castKind := some "ToVoid"
       inner := [callNode "bpf_ktime_get_ns" []] }]

/-- `{ -*p; bpf_ktime_get_ns(); }` -/
def negatedLoad : Node where
  kind := "CompoundStmt"
  inner :=
    [{ kind := "UnaryOperator"
       opcode := some "-"
       inner := [{ kind := "UnaryOperator"
                   opcode := some "*"
                   inner := [varNode "p" "int *"] }] },
      callNode "bpf_ktime_get_ns" []]

/-- What `timedBody` is converted to. -/
def timedStmts : List Stmt :=
  [.Declare "now" (.CUInt .W64) (some (.Call "bpf_ktime_get_ns" [])),
    .If (.VarRef "now" (.CUInt .W64)) [.ExprStmt (.Call "bpf_get_prandom_u32" [])] []]

theorem named_timedStmts : StmtsNamed timedStmts := by
  simp [timedStmts, StmtsNamed, StmtNamed, ExprNamed, ExprsNamed, CtypeNamed, IsName, IsLabel,
    Terms.IsLiteral]

theorem readable_timedStmts : StmtsReadable timedStmts := by
  have htime : "bpf_ktime_get_ns" ∈ knownHelpers := by decide
  have hrandom : "bpf_get_prandom_u32" ∈ knownHelpers := by decide
  simp [timedStmts, StmtsReadable, StmtReadable, DeclareReadable, ExprStmtReadable, CallReadable,
    ExprReadable, CtypeReadable, Terms.IsLiteral, htime, hrandom]

theorem keepsEffects_iff_timedBody :
    ∃ stmts, convertCompoundStmt timedBody = .ok stmts ∧
      KeepsEffects (· ∈ knownHelpers) timedBody 2 stmts := by
  refine ⟨timedStmts, rfl, ((keepsEffects_iff rfl 2).1 named_timedStmts).mpr
    ⟨⟨rfl, ⟨?_, trivial⟩, trivial⟩, readable_timedStmts⟩⟩
  rintro callee hcallee helper hhelper -
  obtain rfl := Option.some.inj hcallee
  obtain rfl := Option.some.inj hhelper
  exact ⟨trivial, Or.inr ⟨by decide, trivial⟩⟩

/-- A body converts and its emitted text loses an effect. -/
def LosesEffect (body : Node) : Prop :=
  ∃ stmts, convertCompoundStmt body = .ok stmts ∧
    ¬KeepsEffects (· ∈ knownHelpers) body 2 stmts

/-- **A second variable and a call cast to void are lost, and what follows a comment that opens
another.** -/
theorem losesEffect :
    LosesEffect twoVariables ∧ LosesEffect castCall ∧ LosesEffect negatedLoad := by
  refine ⟨⟨_, rfl, ?_⟩, ⟨_, rfl, ?_⟩, ⟨_, rfl, ?_⟩⟩
  · have htime : "bpf_ktime_get_ns" ∈ knownHelpers := by decide
    have hread : StmtsReadable
        [.Declare "a" (.CUInt .W64) (some (.Call "bpf_ktime_get_ns" []))] := by
      simp [StmtsReadable, StmtReadable, DeclareReadable, CallReadable, CtypeReadable,
        Terms.IsLiteral, htime]
    intro hkeeps
    obtain ⟨hone, -⟩ := (keepsEffects_iff_of_readable rfl 2 hread).mp hkeeps
    exact absurd (show 2 = 1 from hone) (by decide)
  · have hread : StmtsReadable [.ExprStmt (.Cast (.Call "bpf_ktime_get_ns" []) .CVoid)] := by
      simp only [StmtsReadable, StmtReadable, ExprStmtReadable, and_true]
      decide
    intro hkeeps
    obtain ⟨hcall, -⟩ := (keepsEffects_iff_of_readable rfl 2 hread).mp hkeeps
    exact absurd (hcall _ rfl "bpf_ktime_get_ns" rfl (by decide)).1.1 (by decide)
  · rintro ⟨f, hf, -⟩
    have hnone : readStmt (emitStmtsText 2
        [.ExprStmt (.UnaryOp .Neg (.Deref (.VarRef "p" (.CPtr (.CInt .W32))))),
          .ExprStmt (.Call "bpf_ktime_get_ns" [])]) = none :=
      Option.isNone_iff_eq_none.mp (by decide +kernel)
    cases hnone.symm.trans hf

end BpfVerifier.Ast
