import BpfVerifier.Machinery.Comments
import BpfVerifier.Properties.EmitText

/-!
# Properties/EmitComments — a text that is read has comments that close

What `emit_expr_brief` writes closes no comment, but it may open one.  A text with such a comment
never leaves it, so that where F* reads a statement the text is one that can be read
(`readStmt_isSome_iff`).  The names are those of C: no star, no quote and no backslash is in them.
-/

namespace BpfVerifier.Ast

open FstarAst Terms

/-! ## Names -/

/-- A name without a star that fits in a string. -/
def IsLabel (name : String) : Prop := IsLiteral name.toList ∧ '*' ∉ name.toList

instance (name : String) : Decidable (IsLabel name) := inferInstanceAs (Decidable (_ ∧ _))

/-- A label that may stand in parentheses. -/
def IsName (name : String) : Prop :=
  IsLabel name ∧ name.toList ≠ [] ∧ name.toList.head? ≠ some ')'

instance (name : String) : Decidable (IsName name) := inferInstanceAs (Decidable (_ ∧ _ ∧ _))

mutual

/-- The names in a type are labels. -/
def CtypeNamed : CType → Prop
  | .CPtr t => CtypeNamed t
  | .CPtrOrNull t => CtypeNamed t
  | .CArray t _ => CtypeNamed t
  | .CStruct sd => StructNamed sd
  | _ => True

def StructNamed : StructDef → Prop
  | .mk name fields => IsLabel name ∧ FieldsNamed fields

def FieldsNamed : List (String × CType) → Prop
  | [] => True
  | (name, t) :: rest => IsLabel name ∧ CtypeNamed t ∧ FieldsNamed rest

end

mutual

/-- The names in an expression are names of C. -/
def ExprNamed : Expr → Prop
  | .IntLit _ _ => True
  | .UIntLit _ _ => True
  | .BoolLit _ => True
  | .VarRef name ty => IsName name ∧ CtypeNamed ty
  | .BinOp _ lhs rhs => ExprNamed lhs ∧ ExprNamed rhs
  | .UnaryOp _ operand => ExprNamed operand
  | .Deref ptr => ExprNamed ptr
  | .AddrOf operand => ExprNamed operand
  | .FieldAccess base field => ExprNamed base ∧ IsLabel field
  | .Cast operand ty => ExprNamed operand ∧ CtypeNamed ty
  | .Call name args => IsName name ∧ ExprsNamed args
  | .Ternary cond thenExpr elseExpr =>
    ExprNamed cond ∧ ExprNamed thenExpr ∧ ExprNamed elseExpr

def ExprsNamed : List Expr → Prop
  | [] => True
  | e :: rest => ExprNamed e ∧ ExprsNamed rest

end

mutual

/-- The names in a statement are names of C. -/
def StmtNamed : Stmt → Prop
  | .Declare name ty init => IsLabel name ∧ CtypeNamed ty ∧ ∀ e ∈ init, ExprNamed e
  | .Assign name value => IsLabel name ∧ ExprNamed value
  | .Return value => ∀ e ∈ value, ExprNamed e
  | .If cond thenStmts elseStmts =>
    ExprNamed cond ∧ StmtsNamed thenStmts ∧ StmtsNamed elseStmts
  | .ExprStmt expr => ExprNamed expr
  | .Compound stmts => StmtsNamed stmts

/-- **The names in a body are names of C.** -/
def StmtsNamed : List Stmt → Prop
  | [] => True
  | s :: rest => StmtNamed s ∧ StmtsNamed rest

end

/-! ## Briefs -/

theorem isCode_of_isWord {s : Text} (h : IsWord s) : IsCode s := by
  refine ⟨fun hmem => ?_, fun hmem => ?_⟩
  · exact absurd (List.all_eq_true.mp h.2.1 _ hmem) (by decide)
  · exact absurd (List.all_eq_true.mp h.2.1 _ hmem) (by decide)

theorem tame_of_isWord {s : Text} (h : IsWord s) : Tame s :=
  .of_not_mem h.1 (isCode_of_isWord h).1 fun hhead =>
    absurd (List.all_eq_true.mp h.2.1 _ (List.mem_of_mem_head? hhead)) (by decide)

theorem tame_of_isName {name : String} (h : IsName name) : Tame name.toList :=
  .of_not_mem h.2.1 h.1.2 h.2.2

theorem isWord_binop (op : BinOp) : IsWord op.text := by cases op <;> decide

theorem isWord_unaryop (op : UnaryOp) : IsWord op.text := by cases op <;> decide

theorem isWord_boolText (b : Bool) : IsWord (boolText b) := by cases b <;> decide

theorem isWord_widthText (w : IntWidth) : IsWord (widthText w) := by cases w <;> decide

mutual

/-- **What is written in brief closes no comment.** -/
theorem tame_emitExprBrief : ∀ e : Expr, ExprNamed e → Tame (emitExprBrief e)
  | .IntLit v _, _ => tame_of_isWord (isWord_intText v)
  | .UIntLit v _, _ => tame_of_isWord (isWord_natText v)
  | .BoolLit b, _ => tame_of_isWord (isWord_boolText b)
  | .VarRef _ _, h => tame_of_isName h.1
  | .BinOp op lhs rhs, h => by
    have hrhs := tame_emitExprBrief rhs h.2
    rw [← Text.unwords_singleton (emitExprBrief rhs)] at hrhs
    exact (tame_emitExprBrief lhs h.1).unwords ((tame_of_isWord (isWord_binop op)).unwords hrhs)
  | .UnaryOp op operand, h =>
    (tame_of_isWord (isWord_unaryop op)).append (tame_emitExprBrief operand h).paren
  | .Deref ptr, h => (tame_emitExprBrief ptr h).cons (by decide)
  | .AddrOf operand, h => (tame_emitExprBrief operand h).cons (by decide)
  | .FieldAccess base field, h =>
    (tame_emitExprBrief base h.1).append_of_not_mem (by simpa using h.2.2)
  | .Cast operand _, h => tame_emitExprBrief operand h.1
  | .Call name args, h => by
    refine (tame_of_isName h.1).append ?_
    cases args with
    | nil => exact .of_not_mem (by simp [paren]) (by decide) (by decide)
    | cons e args =>
      exact (Tame.join (by decide) (tame_emitExprBriefs (e :: args) h.2)
        (List.cons_ne_nil _ _)).paren
  | .Ternary cond thenExpr elseExpr, h =>
    (((tame_emitExprBrief cond h.1).append_of_not_mem (by decide)).append
      (tame_emitExprBrief thenExpr h.2.1)).append_of_not_mem (by decide) |>.append
        (tame_emitExprBrief elseExpr h.2.2)

theorem tame_emitExprBriefs : ∀ es : List Expr, ExprsNamed es → ∀ s ∈ emitExprBriefs es, Tame s
  | [], _ => fun _ hs => absurd hs List.not_mem_nil
  | e :: rest, h =>
    List.forall_mem_cons.mpr ⟨tame_emitExprBrief e h.1, tame_emitExprBriefs rest h.2⟩

end

/-! ## Types -/

mutual

theorem ctypeReadable_of_named : ∀ t : CType, CtypeNamed t → CtypeReadable t
  | .CInt _, _ | .CUInt _, _ | .CBool, _ | .CVoid, _ => trivial
  | .CPtr t, h => ctypeReadable_of_named t h
  | .CPtrOrNull t, h => ctypeReadable_of_named t h
  | .CArray t _, h => ctypeReadable_of_named t h
  | .CStruct sd, h => structReadable_of_named sd h

theorem structReadable_of_named : ∀ sd : StructDef, StructNamed sd → StructReadable sd
  | .mk _ fields, h => ⟨h.1.1, fieldsReadable_of_named fields h.2⟩

theorem fieldsReadable_of_named : ∀ fields : List (String × CType), FieldsNamed fields →
    FieldsReadable fields
  | [], _ => trivial
  | (_, t) :: rest, h =>
    ⟨h.1.1, ctypeReadable_of_named t h.2.1, fieldsReadable_of_named rest h.2.2⟩

end

theorem remarks_word {s : Text} (h : IsWord s) : Remarks s True := .code (isCode_of_isWord h)

theorem remarks_quoted {name : String} (h : IsLabel name) : Remarks (quoted name.toList) True :=
  .str h.1 h.2

theorem remarks_fieldText (label : String) (hlabel : IsCode label.toList) {s : Text}
    (h : Remarks s True) : Remarks (fieldText label s) True :=
  h.before ⟨by simpa using hlabel.1, by simpa using hlabel.2⟩

mutual

/-- Types are code and strings. -/
theorem remarks_emitCtypeText : ∀ t : CType, CtypeNamed t → Remarks (emitCtypeText t) True
  | .CInt w, _ => (Remarks.apply (by decide) (remarks_word (isWord_widthText w)).last).paren
  | .CUInt w, _ => (Remarks.apply (by decide) (remarks_word (isWord_widthText w)).last).paren
  | .CBool, _ => .code (by decide)
  | .CVoid, _ => .code (by decide)
  | .CPtr t, h => (Remarks.apply (by decide) (remarks_emitCtypeText t h).last).paren
  | .CPtrOrNull t, h => (Remarks.apply (by decide) (remarks_emitCtypeText t h).last).paren
  | .CStruct sd, h => (Remarks.apply (by decide) (remarks_emitStructText sd h).last).paren
  | .CArray t n, h =>
    ((Remarks.apply (by decide) ((remarks_emitCtypeText t h).spaced
      (remarks_word (isWord_natText n)).last)).mono And.left).paren

theorem remarks_emitStructText : ∀ sd : StructDef, StructNamed sd →
    Remarks (emitStructText sd) True
  | .mk _ fields, h => by
    have hname := remarks_fieldText "struct_name" (by decide) (remarks_quoted h.1)
    have hlist : Remarks ("; ".toList.intercalate (emitFieldTexts fields)) True :=
      .join (by decide) (remarks_emitFieldTexts fields h.2)
    have hfields := remarks_fieldText "fields" (by decide) hlist.bracketed
    have hrest := ((hfields.cons (a := ' ') (by decide)).behind (c := [' ']) (by decide)).cons
      (a := ';') (by decide)
    exact ((hname.cons (a := ' ') (by decide)).append hrest).braced.mono And.left

theorem remarks_emitFieldTexts : ∀ fields : List (String × CType), FieldsNamed fields →
    ∀ s ∈ emitFieldTexts fields, Remarks s True
  | [], _ => fun _ hs => absurd hs List.not_mem_nil
  | (_, t) :: rest, h =>
    List.forall_mem_cons.mpr
      ⟨(((remarks_quoted h.1).behind (by decide)).append
        (remarks_emitCtypeText t h.2.1)).paren.mono And.left, remarks_emitFieldTexts rest h.2.2⟩

end

theorem remarks_unitText : Remarks unitText True := .code (by decide)

/-! ## Expressions -/

/-- A word and a brief, as a comment. -/
theorem remarks_commented {label s : Text} (hlabel : Tame label) (hs : Tame s) :
    Remarks (commented (label ++ s)) (isPlain (label ++ s) = true) :=
  .comment (hlabel.append hs).noClose

/-- **An expression that is read can be read.** -/
theorem remarks_emitExprText : ∀ e : Expr, ExprNamed e →
    Remarks (emitExprText e) (ExprReadable e)
  | .IntLit v w, _ =>
    (Remarks.apply (by decide) ((remarks_word (isWord_intText v)).paren.spaced
      (remarks_word (isWord_widthText w)).last)).mono fun _ => trivial
  | .UIntLit v w, _ =>
    (Remarks.apply (by decide) ((remarks_word (isWord_natText v)).spaced
      (remarks_word (isWord_widthText w)).last)).mono fun _ => trivial
  | .BoolLit b, _ => (Remarks.apply (by decide) (remarks_word (isWord_boolText b)).last)
  | .VarRef _ ty, h =>
    (Remarks.apply (by decide) ((remarks_quoted h.1.1).spaced
      ((remarks_emitCtypeText ty h.2).spaced
        (remarks_unitText.spaced remarks_unitText.last)))).mono
          fun _ => ⟨h.1.1.1, ctypeReadable_of_named ty h.2⟩
  | .BinOp op lhs rhs, h =>
    (Remarks.apply (by decide) (.apply (isCode_of_isWord (isWord_binop op))
      ((remarks_emitExprText lhs h.1).paren.spaced
        ((remarks_emitExprText rhs h.2).paren.spaced remarks_unitText.last)))).mono
          fun hread => ⟨hread.1, hread.2.1⟩
  | .UnaryOp op operand, h =>
    (Remarks.apply (by decide) (.apply (isCode_of_isWord (isWord_unaryop op))
      ((remarks_emitExprText operand h).paren.spaced remarks_unitText.last))).mono And.left
  | .Deref ptr, h => .apply (by decide) (remarks_emitExprText ptr h).paren.last
  | .AddrOf operand, h => .apply (by decide) (remarks_emitExprText operand h).paren.last
  | .FieldAccess base _, h =>
    (Remarks.apply (by decide) ((remarks_emitExprText base h.1).paren.spaced
      (remarks_quoted h.2).last)).mono fun hread => ⟨hread.1, h.2.1⟩
  | .Cast operand ty, h =>
    (Remarks.apply (by decide) ((remarks_emitCtypeText ty h.2).spaced
      (remarks_emitExprText operand h.1).paren.last)).mono
        fun hread => ⟨hread.2, ctypeReadable_of_named ty h.2⟩
  | .Call name args, h =>
    remarks_commented (.of_not_mem (by decide) (by decide) (by decide))
      (tame_emitExprBrief (.Call name args) h)
  | .Ternary cond thenExpr elseExpr, h =>
    remarks_commented (.of_not_mem (by decide) (by decide) (by decide))
      (tame_emitExprBrief (.Ternary cond thenExpr elseExpr) h)

theorem argReadable_of_named : ∀ e : Expr, ExprNamed e → ArgReadable e
  | .VarRef _ ty, h => ctypeReadable_of_named ty h.2
  | .AddrOf operand, h => argReadable_of_named operand h
  | .IntLit _ _, _ | .UIntLit _ _, _ | .BoolLit _, _ | .BinOp _ _ _, _ | .UnaryOp _ _, _
  | .Deref _, _ | .FieldAccess _ _, _ | .Cast _ _, _ | .Call _ _, _ | .Ternary _ _ _, _ => trivial

theorem remarks_emitCtypeOfExprText : ∀ e : Expr, ExprNamed e →
    Remarks (emitCtypeOfExprText e) True
  | .VarRef _ ty, h => remarks_emitCtypeText ty h.2
  | .AddrOf operand, h =>
    (Remarks.apply (by decide) (remarks_emitCtypeOfExprText operand h).last).paren
  | .IntLit _ w, _ => remarks_emitCtypeText (.CInt w) trivial
  | .UIntLit _ w, _ => remarks_emitCtypeText (.CUInt w) trivial
  | .BoolLit _, _ | .BinOp _ _ _, _ | .UnaryOp _ _, _ | .Deref _, _ | .FieldAccess _ _, _
  | .Cast _ _, _ | .Call _ _, _ | .Ternary _ _ _, _ => remarks_emitCtypeText .CVoid trivial

theorem named_of_mem : ∀ {es : List Expr}, ExprsNamed es → ∀ e ∈ es, ExprNamed e
  | [], _ => fun _ he => absurd he List.not_mem_nil
  | _ :: _, h => List.forall_mem_cons.mpr ⟨h.1, named_of_mem h.2⟩

/-! ## Calls -/

/-- A helper that is not known is named in a comment. -/
theorem remarks_emitHelperRefText {func : String} (h : IsName func) :
    Remarks (emitHelperRefText func)
      (func ∈ knownHelpers ∨ isPlain ("unknown helper: ".toList ++ func.toList) = true) := by
  have hcode : ∀ r ∈ helperIdents, IsCode r.2.toList := by decide
  have hnames : helperIdents.map Prod.fst = knownHelpers := rfl
  unfold emitHelperRefText
  cases hfind : helperIdents.find? fun r => r.1 = func with
  | some r =>
    have hmem := List.mem_of_find?_eq_some hfind
    have hname : r.1 = func := by simpa using List.find?_some hfind
    have hknown : func ∈ knownHelpers := hname ▸ hnames ▸ List.mem_map_of_mem hmem
    exact (Remarks.code (hcode r hmem)).mono fun _ => Or.inl hknown
  | none =>
    exact ((remarks_commented (.of_not_mem (by decide) (by decide) (by decide))
      (tame_of_isName h)).behind (by decide)).mono Or.inr

theorem isCode_emitValClassForHelperText (func : String) :
    IsCode (emitValClassForHelperText func) := by
  unfold emitValClassForHelperText
  split_ifs <;> decide

theorem remarks_callAssignText {name func : String} {args : List Expr} {s : Text}
    (hname : IsLabel name) (hcall : ExprNamed (.Call func args)) (hs : IsCode s) :
    Remarks (callAssignText name func args s) (CallReadable func args) := by
  have hargs : ∀ t ∈ args.map emitCtypeOfExprText, Remarks t True :=
    List.forall_mem_map.mpr fun arg harg =>
      remarks_emitCtypeOfExprText arg (named_of_mem hcall.2 arg harg)
  have hreadable : ∀ arg ∈ args, ArgReadable arg := fun arg harg =>
    argReadable_of_named arg (named_of_mem hcall.2 arg harg)
  exact (Remarks.apply (by decide) ((remarks_quoted hname).spaced
    ((remarks_emitHelperRefText hcall.1).spaced
      ((Remarks.join (by decide) hargs).bracketed.spaced
        (remarks_unitText.spaced (Remarks.code hs).last))))).mono
          fun hread => ⟨hread.2.1, hreadable⟩

/-! ## Statements -/

theorem isCode_padding (indent : ℕ) : IsCode (padding indent) := by
  refine ⟨fun hmem => ?_, fun hmem => ?_⟩
  · exact absurd (List.eq_of_mem_replicate hmem) (by decide)
  · exact absurd (List.eq_of_mem_replicate hmem) (by decide)

theorem remarks_below {s : Text} {Q : Prop} (indent : ℕ) (h : Remarks s Q) :
    Remarks (below indent s) Q :=
  (h.before (isCode_padding indent)).cons (by decide)

/-- An expression in parentheses, on the next line. -/
theorem remarks_parenBelow {s : Text} {Q : Prop} (h : Remarks s Q) :
    Remarks (paren ('\n' :: s)) Q :=
  (h.cons (by decide)).paren

theorem remarks_assign {name : String} {e : Expr} (hname : IsLabel name) (he : ExprNamed e) :
    Remarks (Text.unwords ["Assign".toList, quoted name.toList, paren (emitExprText e),
      "scalar_unknown".toList]) (ExprReadable e) :=
  (Remarks.apply (by decide) ((remarks_quoted hname).spaced
    ((remarks_emitExprText e he).paren.spaced (Remarks.code (by decide)).last))).mono
      fun hread => hread.2.1

theorem remarks_emitDeclareText {name : String} {ty : CType} {init : Option Expr} (indent : ℕ)
    (hname : IsLabel name) (hty : CtypeNamed ty) (hinit : ∀ e ∈ init, ExprNamed e) :
    Remarks (emitDeclareText name ty init indent) (DeclareReadable name ty init) := by
  have hdeclare : Remarks (Text.unwords ["Declare".toList, quoted name.toList, emitCtypeText ty])
      True :=
    (Remarks.apply (by decide) ((remarks_quoted hname).spaced
      (remarks_emitCtypeText ty hty).last)).mono And.left
  have hseq {s : Text} {Q : Prop} (hs : Remarks s Q) :
      Remarks (Text.unwords ["Seq".toList,
        paren (Text.unwords ["Declare".toList, quoted name.toList, emitCtypeText ty])] ++
          below (indent + 4) (paren s)) Q :=
    ((Remarks.apply (by decide) hdeclare.paren.last).append
      (remarks_below (indent + 4) hs.paren)).mono And.right
  have hreadable := ctypeReadable_of_named ty hty
  cases init with
  | none => exact hdeclare.mono fun _ => ⟨hname.1, hreadable, trivial⟩
  | some e =>
    have he := hinit e rfl
    cases e with
    | Call func args =>
      exact (hseq (remarks_callAssignText hname he
        (isCode_emitValClassForHelperText func))).mono fun hread => ⟨hname.1, hreadable, hread⟩
    | _ =>
      exact (hseq (remarks_assign hname he)).mono fun hread => ⟨hname.1, hreadable, hread⟩

theorem remarks_return {s : Text} {Q : Prop} (h : Remarks s Q) :
    Remarks (Text.unwords ["Return".toList, s, unitText]) Q :=
  (Remarks.apply (by decide) (h.spaced remarks_unitText.last)).mono And.left

/-- Two branches on lines of their own. -/
theorem remarks_branches {s t e : Text} {P Q R : Prop} (indent : ℕ) (hs : Remarks s P)
    (ht : Remarks t Q) (he : Remarks e R) :
    Remarks (s ++ below indent t ++ below indent e) (P ∧ Q ∧ R) :=
  ((hs.append (remarks_below indent ht)).append (remarks_below indent he)).mono
    fun h => ⟨h.1.1, h.1.2, h.2⟩

theorem remarks_emitReturnText {value : Option Expr} (indent : ℕ)
    (h : ∀ e ∈ value, ExprNamed e) :
    Remarks (emitReturnText value indent) (ReturnReadable value) := by
  cases value with
  | none => exact Remarks.code (s := "Return (IntLit 0 W32) ()".toList) (by decide)
  | some e =>
    have he := h e rfl
    cases e with
    | Ternary cond thenExpr elseExpr =>
      have hcond := remarks_emitExprText cond he.1
      have hthen := remarks_emitExprText thenExpr he.2.1
      have helse := remarks_emitExprText elseExpr he.2.2
      exact remarks_branches (indent + 2) (.apply (by decide) (remarks_parenBelow hcond).last)
        (remarks_return (remarks_parenBelow hthen)).paren
        (remarks_return (remarks_parenBelow helse)).paren
    | _ => exact remarks_return (remarks_emitExprText _ he).paren

theorem remarks_emitExprStmtText {expr : Expr} (h : ExprNamed expr) :
    Remarks (emitExprStmtText expr) (ExprStmtReadable expr) := by
  cases expr with
  | Call func args => exact remarks_callAssignText (by decide) h (by decide)
  | _ => exact .apply (by decide) (Remarks.comment (tame_emitExprBrief _ h).noClose).last

/-- The condition of a null check is a name, which can be read. -/
theorem remarks_conditionText {cond : Expr} (h : ExprNamed cond) :
    Remarks (conditionText cond) (ExprReadable cond) := by
  have hnull {name : String} (hname : IsName name) :
      Remarks (Text.unwords ["IfNull".toList, quoted name.toList, unitText, unitText, unitText,
        unitText]) True :=
    (Remarks.apply (by decide) ((remarks_quoted hname.1).spaced
      (remarks_unitText.spaced (remarks_unitText.spaced
        (remarks_unitText.spaced remarks_unitText.last))))).mono And.left
  unfold conditionText isNullCheck
  split
  · next hcheck =>
    split at hcheck
    · obtain rfl := Option.some.inj hcheck
      exact (hnull h.1).mono fun _ => ⟨h.1.1.1, ctypeReadable_of_named _ h.2⟩
    · obtain rfl := Option.some.inj hcheck
      exact (hnull h.1.1).mono fun _ =>
        ⟨⟨h.1.1.1.1, ctypeReadable_of_named _ h.1.2⟩, trivial⟩
    · obtain rfl := Option.some.inj hcheck
      exact (hnull h.2.1).mono fun _ =>
        ⟨trivial, h.2.1.1.1, ctypeReadable_of_named _ h.2.2⟩
    · cases hcheck
  · exact .apply (by decide) (remarks_parenBelow (remarks_emitExprText cond h)).last

mutual

/-- **A statement that is read can be read.** -/
theorem remarks_emitStmtText (indent : ℕ) : ∀ s : Stmt, StmtNamed s →
    Remarks (emitStmtText indent s) (StmtReadable s)
  | .Declare _ _ _, h =>
    (remarks_emitDeclareText indent h.1 h.2.1 h.2.2).before (isCode_padding indent)
  | .Assign _ _, h =>
    ((remarks_assign h.1 h.2).before (isCode_padding indent)).mono fun hread => ⟨h.1.1, hread⟩
  | .Return _, h => (remarks_emitReturnText indent h).before (isCode_padding indent)
  | .If cond thenStmts elseStmts, h => by
    have hthen := remarks_emitStmtsText (indent + 4) thenStmts h.2.1
    have helse := remarks_emitStmtsText (indent + 4) elseStmts h.2.2
    exact (remarks_branches (indent + 2) (remarks_conditionText h.1)
      (remarks_parenBelow hthen) (remarks_parenBelow helse)).before (isCode_padding indent)
  | .ExprStmt _, h => (remarks_emitExprStmtText h).before (isCode_padding indent)
  | .Compound stmts, h => remarks_emitStmtsText indent stmts h

/-- **Statements that are read can be read.** -/
theorem remarks_emitStmtsText (indent : ℕ) : ∀ stmts : List Stmt, StmtsNamed stmts →
    Remarks (emitStmtsText indent stmts) (StmtsReadable stmts)
  | [], _ => (Remarks.code (by decide)).before (isCode_padding indent)
  | [s], h => (remarks_emitStmtText indent s h.1).mono fun hread => ⟨hread, trivial⟩
  | s :: s' :: rest, h => by
    have hfirst := remarks_emitStmtText (indent + 2) s h.1
    have hrest := remarks_emitStmtsText (indent + 2) (s' :: rest) h.2
    have hseq := Remarks.apply (c := "Seq".toList) (by decide) (remarks_parenBelow hfirst).last
    exact ((hseq.append (remarks_below indent (remarks_parenBelow hrest))).behind
      (by decide)).before (isCode_padding indent)

end

/-- **F* reads a statement just where the text can be read.** -/
theorem readStmt_isSome_iff (indent : ℕ) {stmts : List Stmt} (h : StmtsNamed stmts) :
    (readStmt (emitStmtsText indent stmts)).isSome = true ↔ StmtsReadable stmts := by
  constructor
  · intro hsome
    obtain ⟨f, hf⟩ := Option.isSome_iff_exists.mp hsome
    obtain ⟨t, ht, -⟩ := Option.bind_eq_some_iff.mp hf
    obtain ⟨ts, hts, -⟩ := Option.bind_eq_some_iff.mp ht
    obtain ⟨tokens, hlex, -⟩ := Option.bind_eq_some_iff.mp hts
    exact (remarks_emitStmtsText indent stmts h).of_lex hlex
  · intro hread
    rw [readStmt_emitStmtsText indent hread]
    rfl

end BpfVerifier.Ast
