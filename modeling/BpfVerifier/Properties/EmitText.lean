import BpfVerifier.Ast.ReadText

/-!
# Properties/EmitText — the emitted text is the emitted tree

`readsAs_emitStmtText`: read as F* reads it, the text of a statement is the application of
constructors that `Ast/Emit` gives.  `readObject_emitModuleText`: the module declares the maps of
the object and the bodies of its programmes.  Both ask for names that fit in a string and for
comments that are closed where they end (`StmtReadable`).
-/

namespace BpfVerifier.Ast

open FstarAst Terms

/-! ## What can be read back -/

mutual

/-- The names in a type fit in a string. -/
def CtypeReadable : CType → Prop
  | .CPtr t => CtypeReadable t
  | .CPtrOrNull t => CtypeReadable t
  | .CArray t _ => CtypeReadable t
  | .CStruct sd => StructReadable sd
  | _ => True

def StructReadable : StructDef → Prop
  | .mk name fields => IsLiteral name.toList ∧ FieldsReadable fields

def FieldsReadable : List (String × CType) → Prop
  | [] => True
  | (name, t) :: rest => IsLiteral name.toList ∧ CtypeReadable t ∧ FieldsReadable rest

end

/-- Names fit in a string, and calls and ternaries in a comment. -/
def ExprReadable : Expr → Prop
  | .IntLit _ _ => True
  | .UIntLit _ _ => True
  | .BoolLit _ => True
  | .VarRef name ty => IsLiteral name.toList ∧ CtypeReadable ty
  | .BinOp _ lhs rhs => ExprReadable lhs ∧ ExprReadable rhs
  | .UnaryOp _ operand => ExprReadable operand
  | .Deref ptr => ExprReadable ptr
  | .AddrOf operand => ExprReadable operand
  | .FieldAccess base field => ExprReadable base ∧ IsLiteral field.toList
  | .Cast operand ty => ExprReadable operand ∧ CtypeReadable ty
  | .Call name args => isPlain ("call: ".toList ++ emitExprBrief (.Call name args)) = true
  | .Ternary cond thenExpr elseExpr =>
    isPlain ("ternary: ".toList ++ emitExprBrief (.Ternary cond thenExpr elseExpr)) = true

/-- The types in an argument can be read. -/
def ArgReadable : Expr → Prop
  | .VarRef _ ty => CtypeReadable ty
  | .AddrOf operand => ArgReadable operand
  | _ => True

/-- A call in statement position can be read. -/
def CallReadable (func : String) (args : List Expr) : Prop :=
  (func ∈ knownHelpers ∨ isPlain ("unknown helper: ".toList ++ func.toList) = true) ∧
    ∀ arg ∈ args, ArgReadable arg

def DeclareReadable (name : String) (ty : CType) (init : Option Expr) : Prop :=
  IsLiteral name.toList ∧ CtypeReadable ty ∧
    match init with
    | none => True
    | some (.Call func args) => CallReadable func args
    | some e => ExprReadable e

def ReturnReadable (value : Option Expr) : Prop :=
  match value with
  | some (.Ternary cond thenExpr elseExpr) =>
    ExprReadable cond ∧ ExprReadable thenExpr ∧ ExprReadable elseExpr
  | some e => ExprReadable e
  | none => True

def ExprStmtReadable (expr : Expr) : Prop :=
  match expr with
  | .Call func args => CallReadable func args
  | e => isPlain (emitExprBrief e) = true

mutual

/-- **The text of a statement can be read.** -/
def StmtReadable : Stmt → Prop
  | .Declare name ty init => DeclareReadable name ty init
  | .Assign name value => IsLiteral name.toList ∧ ExprReadable value
  | .Return value => ReturnReadable value
  | .If cond thenStmts elseStmts =>
    ExprReadable cond ∧ StmtsReadable thenStmts ∧ StmtsReadable elseStmts
  | .ExprStmt expr => ExprStmtReadable expr
  | .Compound stmts => StmtsReadable stmts

def StmtsReadable : List Stmt → Prop
  | [] => True
  | s :: rest => StmtReadable s ∧ StmtsReadable rest

end

/-! ## Names and numbers -/

theorem isGap_padding (indent : ℕ) : (padding indent).all isGap = true := by
  refine List.all_eq_true.mpr fun c hc => ?_
  rw [List.eq_of_mem_replicate hc]
  rfl

/-- Digits and signs are words. -/
theorem isWord_of_digits {s : Text} (hne : s ≠ []) (h : ∀ c ∈ s, c.isDigit = true ∨ c = '-') :
    IsWord s := by
  refine ⟨hne, List.all_eq_true.mpr fun c hc => ?_, ?_⟩
  · rcases h c hc with hdigit | rfl
    · simp [isWordChar, Char.isAlphanum, hdigit]
    · decide
  · have hall : ∀ w ∈ [['m', 'o', 'd', 'u', 'l', 'e'], ['o', 'p', 'e', 'n'], ['l', 'e', 't']],
        (w.any fun c => !(c.isDigit || c = '-')) = true := by decide
    refine Bool.eq_false_iff.mpr fun hkey => ?_
    obtain ⟨c, hc, hnot⟩ := List.any_eq_true.mp (hall s (of_decide_eq_true hkey))
    rcases h c hc with hdigit | rfl
    · simp [hdigit] at hnot
    · exact absurd hnot (by decide)

theorem isDigit_of_mem_natText {n : ℕ} {c : Char} (hc : c ∈ natText n) : c.isDigit = true := by
  have htext : natText n = Nat.toDigits 10 n := Nat.toList_repr
  exact Nat.isDigit_of_mem_toDigits (by decide) (by decide) (htext ▸ hc)

theorem natText_ne_nil (n : ℕ) : natText n ≠ [] := by
  have htext : natText n = Nat.toDigits 10 n := Nat.toList_repr
  exact htext ▸ Nat.toDigits_ne_nil

theorem isWord_natText (n : ℕ) : IsWord (natText n) :=
  isWord_of_digits (natText_ne_nil n) fun _ hc => Or.inl (isDigit_of_mem_natText hc)

theorem isWord_intText (z : ℤ) : IsWord (intText z) := by
  unfold intText
  rw [Int.toString_eq_repr, Int.repr_eq_if]
  split
  · exact isWord_natText z.toNat
  · rw [String.toList_append]
    refine isWord_of_digits (by simp) fun c hc => ?_
    rcases List.mem_append.mp hc with hc | hc
    · exact Or.inr (by simpa using hc)
    · exact Or.inl (isDigit_of_mem_natText hc)

theorem head_intText (z : ℤ) : (intText z).head? ≠ some '*' := by
  obtain ⟨c, rest, htext⟩ := List.exists_cons_of_ne_nil (isWord_intText z).1
  have hc : isWordChar c = true :=
    List.all_eq_true.mp (isWord_intText z).2.1 c (htext ▸ List.mem_cons_self)
  rw [htext]
  rintro heq
  obtain rfl : c = '*' := by simpa using heq
  exact absurd hc (by decide)

theorem readsAtom_natText (n : ℕ) : ReadsAtom natOf (natText n) n :=
  ⟨_, .word (isWord_natText n), Reader.readAll_of_reads (.nat n)⟩

theorem readsAtom_intText (z : ℤ) : ReadsAtom intOf (intText z) z :=
  ⟨_, .word (isWord_intText z), Reader.readAll_of_reads (.int z)⟩

theorem readsAtom_quoted {name : String} (h : IsLiteral name.toList) :
    ReadsAtom strOf (quoted name.toList) name :=
  ⟨_, .quoted h, by rw [strOf, String.ofList_toList]⟩

/-- A name of a table. -/
theorem readsAtom_name {α : Type} {names : List (Text × α)} {w : Text} {a : α}
    (hnames : (names.map Prod.fst).Nodup) (hw : ∀ e ∈ names, IsWord e.1) (h : (w, a) ∈ names) :
    ReadsAtom (nameOf names) w a :=
  ⟨_, .word (hw _ h), Reader.oneOf_of_mem hnames h⟩

theorem readsAtom_widthText (w : IntWidth) : ReadsAtom (nameOf widths) (widthText w) w :=
  readsAtom_name (by decide) (by decide) (by cases w <;> decide)

theorem readsAtom_boolText (b : Bool) : ReadsAtom (nameOf bools) (boolText b) b :=
  readsAtom_name (by decide) (by decide) (by cases b <;> decide)

theorem readsAtom_binop (op : BinOp) : ReadsAtom (nameOf binops) op.text op.emit :=
  readsAtom_name (by decide) (by decide) (by cases op <;> decide)

theorem readsAtom_unaryop (op : UnaryOp) : ReadsAtom (nameOf unaryops) op.text op.emit :=
  readsAtom_name (by decide) (by decide) (by cases op <;> decide)

theorem readsAtom_progTypeText (t : BpfProgType) :
    ReadsAtom (nameOf progTypes) (progTypeText t) t :=
  readsAtom_name (by decide) (by decide) (by cases t <;> decide)

theorem reads_unitText : Reads unitText [.unit] := Reads.nil.paren (by decide)

theorem readsItem_fieldText (label : String) (hlabel : IsWord label.toList) {s : Text} {t : Term}
    (h : Reads s [t]) : ReadsItem .brace (fieldText label s) (.field label.toList t) :=
  h.field (by simp) hlabel

/-! ## Types -/

mutual

/-- **The text of a type is read as the type.** -/
theorem readsAtom_emitCtypeText : ∀ t : CType, CtypeReadable t →
    ReadsAtom ctypeOf (emitCtypeText t) t
  | .CInt w, _ => by
    obtain ⟨term, hread, hof⟩ := readsAtom_widthText w
    exact .apply (by decide) (.cons hread .nil) (by simp [ctypeOf, hof])
  | .CUInt w, _ => by
    obtain ⟨term, hread, hof⟩ := readsAtom_widthText w
    exact .apply (by decide) (.cons hread .nil) (by simp [ctypeOf, hof])
  | .CBool, _ => ⟨_, .word (by decide), rfl⟩
  | .CVoid, _ => ⟨_, .word (by decide), rfl⟩
  | .CPtr t, h => by
    obtain ⟨term, hread, hof⟩ := readsAtom_emitCtypeText t h
    exact .apply (by decide) (.cons hread .nil) (by simp [ctypeOf, hof])
  | .CPtrOrNull t, h => by
    obtain ⟨term, hread, hof⟩ := readsAtom_emitCtypeText t h
    exact .apply (by decide) (.cons hread .nil) (by simp [ctypeOf, hof])
  | .CStruct sd, h => by
    obtain ⟨term, hread, hof⟩ := readsAtom_emitStructText sd h
    exact .apply (by decide) (.cons hread .nil) (by simp [ctypeOf, hof])
  | .CArray t n, h => by
    obtain ⟨term, hread, hof⟩ := readsAtom_emitCtypeText t h
    obtain ⟨number, hread', hof'⟩ := readsAtom_natText n
    exact .apply (by decide) (.cons hread (.cons hread' .nil))
      (by simp [ctypeOf, hof, hof'])

theorem readsAtom_emitStructText : ∀ sd : StructDef, StructReadable sd →
    ReadsAtom structOf (emitStructText sd) sd
  | .mk name fields, h => by
    obtain ⟨term, hread, hof⟩ := readsAtom_quoted h.1
    obtain ⟨terms, hitems, hofs⟩ := readsItems_emitFieldTexts fields h.2
    have hname := readsItem_fieldText "struct_name" (by decide) hread
    have hlist := readsItem_fieldText "fields" (by decide)
      (Reads.bracketed (.join (.inl rfl) hitems))
    have hlast := (ReadsItems.single hlist).gap (g := [' ']) (by decide)
    have hall := ReadsItems.cons (.inr rfl) (hname.gap (g := [' ']) (by decide))
      (hlast.trail (g := [' ']) (by decide))
    exact ⟨_, .braced hall, by simp [structOf, hof, hofs]⟩

/-- The texts of the fields are items of a list. -/
theorem readsItems_emitFieldTexts : ∀ fields : List (String × CType), FieldsReadable fields →
    ∃ terms, List.Forall₂ (ReadsItem .bracket) (emitFieldTexts fields) terms ∧
      fieldsOf (.list terms) = some fields
  | [], _ => ⟨[], .nil, rfl⟩
  | (name, t) :: rest, h => by
    obtain ⟨hname, ht, hrest⟩ := h
    obtain ⟨term, hread, hof⟩ := readsAtom_quoted hname
    obtain ⟨type, hread', hof'⟩ := readsAtom_emitCtypeText t ht
    obtain ⟨terms, hitems, hofs⟩ := readsItems_emitFieldTexts rest hrest
    have hcomma : quoted name.toList ++ ", ".toList ++ emitCtypeText t =
        quoted name.toList ++ ',' :: ' ' :: emitCtypeText t := by simp
    have hpair := hread.pair (by simp) hread' (by simp) (by simp [quoted])
    refine ⟨.pair term type :: terms, .cons (hcomma ▸ hpair.item (by simp)) hitems, ?_⟩
    simp [fieldsOf, hof, hof', hofs]

end

/-! ## Expressions -/

theorem reads_commented {s : Text} (hs : isPlain s = true) : Reads (commented s) [] := .comment hs

theorem head_emitExprText (e : Expr) : (emitExprText e).head? ≠ some '*' := by
  cases e with
  | Call name args => simp [emitExprText, commented]
  | Ternary cond thenExpr elseExpr => simp [emitExprText, commented]
  | _ => exact head_unwords (by decide) _

/-- **The text of an expression is read as what is emitted for it.** -/
theorem readsAs_emitExprText : ∀ e : Expr, ExprReadable e →
    ReadsAs exprOf (emitExprText e) (emitExpr e)
  | .IntLit v w, _ => by
    obtain ⟨number, hread, hof⟩ := (readsAtom_intText v).readsAs.paren (head_intText v)
    obtain ⟨width, hread', hof'⟩ := readsAtom_widthText w
    exact .apply (by decide) (.cons hread (.cons hread' .nil))
      (by simp [exprOf, hof, hof', emitExpr])
  | .UIntLit v w, _ => by
    obtain ⟨number, hread, hof⟩ := readsAtom_natText v
    obtain ⟨width, hread', hof'⟩ := readsAtom_widthText w
    exact .apply (by decide) (.cons hread (.cons hread' .nil))
      (by simp [exprOf, hof, hof', emitExpr])
  | .BoolLit b, _ => by
    obtain ⟨term, hread, hof⟩ := readsAtom_boolText b
    exact .apply (by decide) (.cons hread .nil) (by simp [exprOf, hof, emitExpr])
  | .VarRef name ty, h => by
    obtain ⟨term, hread, hof⟩ := readsAtom_quoted h.1
    obtain ⟨type, hread', hof'⟩ := readsAtom_emitCtypeText ty h.2
    exact .apply (by decide)
      (.cons hread (.cons hread' (.cons reads_unitText (.cons reads_unitText .nil))))
      (by simp [exprOf, hof, hof', emitExpr])
  | .BinOp op lhs rhs, h => by
    obtain ⟨name, hread, hof⟩ := readsAtom_binop op
    obtain ⟨left, hleft, hof'⟩ := (readsAs_emitExprText lhs h.1).paren (head_emitExprText lhs)
    obtain ⟨right, hright, hof''⟩ := (readsAs_emitExprText rhs h.2).paren (head_emitExprText rhs)
    exact .apply (by decide)
      (.cons hread (.cons hleft (.cons hright (.cons reads_unitText .nil))))
      (by simp [exprOf, hof, hof', hof'', emitExpr])
  | .UnaryOp op operand, h => by
    obtain ⟨name, hread, hof⟩ := readsAtom_unaryop op
    obtain ⟨term, hread', hof'⟩ :=
      (readsAs_emitExprText operand h).paren (head_emitExprText operand)
    exact .apply (by decide) (.cons hread (.cons hread' (.cons reads_unitText .nil)))
      (by simp [exprOf, hof, hof', emitExpr])
  | .Deref ptr, h => by
    obtain ⟨term, hread, hof⟩ := (readsAs_emitExprText ptr h).paren (head_emitExprText ptr)
    exact .apply (by decide) (.cons hread .nil) (by simp [exprOf, hof, emitExpr])
  | .AddrOf operand, h => by
    obtain ⟨term, hread, hof⟩ := (readsAs_emitExprText operand h).paren (head_emitExprText operand)
    exact .apply (by decide) (.cons hread .nil) (by simp [exprOf, hof, emitExpr])
  | .FieldAccess base field, h => by
    obtain ⟨term, hread, hof⟩ := (readsAs_emitExprText base h.1).paren (head_emitExprText base)
    obtain ⟨name, hread', hof'⟩ := readsAtom_quoted h.2
    exact .apply (by decide) (.cons hread (.cons hread' .nil))
      (by simp [exprOf, hof, hof', emitExpr])
  | .Cast operand ty, h => by
    obtain ⟨type, hread, hof⟩ := readsAtom_emitCtypeText ty h.2
    obtain ⟨term, hread', hof'⟩ :=
      (readsAs_emitExprText operand h.1).paren (head_emitExprText operand)
    exact .apply (by decide) (.cons hread (.cons hread' .nil))
      (by simp [exprOf, hof, hof', emitExpr])
  | .Call name args, h => ⟨[], reads_commented h, rfl⟩
  | .Ternary cond thenExpr elseExpr, h => ⟨[], reads_commented h, rfl⟩

/-- An expression in parentheses, on the same line or the next. -/
theorem readsAtom_parenExpr {e : Expr} (h : ExprReadable e) :
    ReadsAtom exprOf (paren (emitExprText e)) (emitExpr e) :=
  (readsAs_emitExprText e h).paren (head_emitExprText e)

/-- The type of an argument. -/
theorem readsAtom_emitCtypeOfExprText : ∀ e : Expr, ArgReadable e →
    ReadsAtom ctypeOf (emitCtypeOfExprText e) (emitCtypeOfExpr e)
  | .VarRef _ ty, h => readsAtom_emitCtypeText ty h
  | .AddrOf operand, h => by
    obtain ⟨term, hread, hof⟩ := readsAtom_emitCtypeOfExprText operand h
    exact .apply (by decide) (.cons hread .nil) (by simp [ctypeOf, hof, emitCtypeOfExpr])
  | .IntLit _ w, _ => readsAtom_emitCtypeText (.CInt w) trivial
  | .UIntLit _ w, _ => readsAtom_emitCtypeText (.CUInt w) trivial
  | .BoolLit _, _ | .BinOp _ _ _, _ | .UnaryOp _ _, _ | .Deref _, _ | .FieldAccess _ _, _
  | .Cast _ _, _ | .Call _ _, _ | .Ternary _ _ _, _ => readsAtom_emitCtypeText .CVoid trivial

/-! ## Calls -/

/-- Two tables of the same names give something for the same ones. -/
theorem find_of_aligned {α β : Type} {l : List (String × α)} {r : List (String × β)}
    (h : l.map Prod.fst = r.map Prod.fst) (name : String) :
    (l.find? (fun e => e.1 = name) = none ∧ r.find? (fun e => e.1 = name) = none) ∨
      ∃ e ∈ l.zip r, l.find? (fun e => e.1 = name) = some e.1 ∧
        r.find? (fun e => e.1 = name) = some e.2 := by
  induction l generalizing r with
  | nil =>
    obtain rfl : r = [] := List.map_eq_nil_iff.mp h.symm
    exact Or.inl ⟨rfl, rfl⟩
  | cons e l ih =>
    obtain ⟨e', r, rfl, he, hr⟩ := List.map_eq_cons_iff.mp h.symm
    rw [List.find?_cons, List.find?_cons, he]
    by_cases hname : e.1 = name
    · exact Or.inr ⟨(e, e'), List.mem_cons_self, by simp [hname], by simp [hname]⟩
    · simp only [hname, decide_false]
      refine (ih hr.symm).imp_right ?_
      rintro ⟨pair, hmem, hfind⟩
      exact ⟨pair, List.mem_cons_of_mem _ hmem, hfind⟩

theorem nodup_helperDescs : (helperDescs.map Prod.fst).Nodup := by
  have hnames : helperDescs.map Prod.fst = (helperIdents.map Prod.snd).map String.toList := rfl
  have hnodup : (helperIdents.map Prod.snd).Nodup := by simp [helperIdents]
  have hinj : Function.Injective String.toList := fun _ _ h => String.toList_inj.mp h
  rw [hnames]
  exact List.Nodup.map hinj hnodup

theorem reads_helperDescs {w : Text} {h : HelperDesc} (hmem : (w, h) ∈ helperDescs) :
    ReadsAtom (nameOf helperDescs) w h :=
  readsAtom_name nodup_helperDescs (by decide) hmem

/-- **A helper is named as `BPF.Helpers` names it.** -/
theorem readsAtom_emitHelperRefText {func : String}
    (h : func ∈ knownHelpers ∨ isPlain ("unknown helper: ".toList ++ func.toList) = true) :
    ReadsAtom (nameOf helperDescs) (emitHelperRefText func) (emitHelperRef func) := by
  have haligned : helperIdents.map Prod.fst = helperRefs.map Prod.fst := rfl
  have htable : (helperIdents.zip helperRefs).map (fun e => (e.1.2.toList, e.2.2)) =
      helperDescs := rfl
  unfold emitHelperRefText emitHelperRef
  rcases find_of_aligned haligned func with ⟨hnone, hnone'⟩ | ⟨e, hmem, hsome, hsome'⟩
  · have hplain : isPlain ("unknown helper: ".toList ++ func.toList) = true := by
      refine h.resolve_left fun hknown => ?_
      obtain ⟨r, hr, rfl⟩ := List.mem_map.mp hknown
      simpa using List.find?_eq_none.mp hnone' r hr
    obtain ⟨term, hread, hof⟩ := reads_helperDescs (w := "h_get_current_pid_tgid".toList)
      (h := hGetCurrentPidTgid) (by simp [helperDescs])
    rw [hnone, hnone']
    exact ⟨term, (reads_commented hplain).spaced hread, hof⟩
  · rw [hsome, hsome']
    exact reads_helperDescs (htable ▸ List.mem_map_of_mem hmem)

theorem reads_scalarUnknown : ReadsAtom valClassOf "scalar_unknown".toList scalarUnknown :=
  ⟨_, .word (by decide), rfl⟩

theorem reads_zero : Reads "0".toList [.word "0".toList] := .word (by decide)

/-- The class of a helper's result. -/
theorem readsAtom_emitValClassForHelperText (func : String) :
    ReadsAtom valClassOf (emitValClassForHelperText func) (emitValClassForHelper func) := by
  have hmap : ReadsAtom valClassOf "(PtrToMapValueOrNull 0 0)".toList
      (.PtrToMapValueOrNull 0 0) := by
    have htext : "(PtrToMapValueOrNull 0 0)".toList =
        paren (Text.unwords ["PtrToMapValueOrNull".toList, "0".toList, "0".toList]) := by
      decide
    rw [htext]
    exact .apply (by decide) (.cons reads_zero (.cons reads_zero .nil)) rfl
  have hsocket : ReadsAtom valClassOf "(PtrToSocketOrNull 0)".toList (.PtrToSocketOrNull 0) := by
    have htext : "(PtrToSocketOrNull 0)".toList =
        paren (Text.unwords ["PtrToSocketOrNull".toList, "0".toList]) := by decide
    rw [htext]
    exact .apply (by decide) (.cons reads_zero .nil) rfl
  unfold emitValClassForHelperText
  by_cases hlookup : func = "bpf_map_lookup_elem"
  · rw [if_pos hlookup, hlookup]
    exact hmap
  · rw [if_neg hlookup]
    by_cases hsk : func = "bpf_sk_lookup_tcp" ∨ func = "bpf_sk_lookup_udp"
    · rw [if_pos hsk]
      rcases hsk with rfl | rfl <;> exact hsocket
    · have hclass : emitValClassForHelper func = scalarUnknown := by
        unfold emitValClassForHelper
        split <;> simp_all
      rw [if_neg hsk, hclass]
      exact reads_scalarUnknown

/-- The types of the arguments. -/
theorem reads_args {args : List Expr} (h : ∀ arg ∈ args, ArgReadable arg) :
    ReadsAtom ctypesOf (bracketed ("; ".toList.intercalate (args.map emitCtypeOfExprText)))
      (args.map emitCtypeOfExpr) := by
  have hitems : ∃ terms, List.Forall₂ (ReadsItem .bracket) (args.map emitCtypeOfExprText) terms ∧
      ctypesOf (.list terms) = some (args.map emitCtypeOfExpr) := by
    induction args with
    | nil => exact ⟨[], .nil, rfl⟩
    | cons arg args ih =>
      obtain ⟨harg, hargs⟩ := List.forall_mem_cons.mp h
      obtain ⟨terms, hitems, hofs⟩ := ih hargs
      obtain ⟨term, hread, hof⟩ := readsAtom_emitCtypeOfExprText arg harg
      exact ⟨term :: terms, .cons (hread.item (by simp)) hitems, by simp [ctypesOf, hof, hofs]⟩
  obtain ⟨terms, hitems, hofs⟩ := hitems
  exact ⟨.list terms, .bracketed (.join (.inl rfl) hitems), hofs⟩

theorem readsAs_callAssignText {name func : String} {args : List Expr} {s : Text} {vc : ValClass}
    (hname : IsLiteral name.toList) (h : CallReadable func args) (hvc : ReadsAtom valClassOf s vc) :
    ReadsAs stmtOf (callAssignText name func args s)
      (.CallAssign name (emitHelperRef func) (args.map emitCtypeOfExpr) vc) := by
  obtain ⟨var, hvar, hof⟩ := readsAtom_quoted hname
  obtain ⟨helper, hhelper, hof'⟩ := readsAtom_emitHelperRefText h.1
  obtain ⟨types, htypes, hof₁⟩ := reads_args h.2
  obtain ⟨cls, hcls, hof₂⟩ := hvc
  exact .apply (by decide)
    (.cons hvar (.cons hhelper (.cons htypes (.cons reads_unitText (.cons hcls .nil)))))
    (by simp [stmtOf, hof, hof', hof₁, hof₂])

/-! ## Statements -/

/-- The next line goes on with the application. -/
theorem reads_below {s t : Text} {ts us : List Term} (indent : ℕ) (h : Reads s ts)
    (h' : Reads t us) : Reads (s ++ below indent t) (ts ++ us) := by
  have hgap : Reads (below indent t) us :=
    h'.gap (g := '\n' :: padding indent) (isGap_padding indent)
  exact h.append hgap (ends_cons (by decide) _)

theorem readsAs_assign {name : String} {e : Expr} (hname : IsLiteral name.toList)
    (he : ExprReadable e) :
    ReadsAs stmtOf
      (Text.unwords ["Assign".toList, quoted name.toList, paren (emitExprText e),
        "scalar_unknown".toList])
      (.Assign name (emitExpr e) scalarUnknown) := by
  obtain ⟨var, hvar, hof⟩ := readsAtom_quoted hname
  obtain ⟨value, hvalue, hof'⟩ := readsAtom_parenExpr he
  obtain ⟨cls, hcls, hof₁⟩ := reads_scalarUnknown
  exact .apply (by decide) (.cons hvar (.cons hvalue (.cons hcls .nil)))
    (by simp [stmtOf, hof, hof', hof₁])

theorem readsAs_emitDeclareText {name : String} {ty : CType} {init : Option Expr} (indent : ℕ)
    (h : DeclareReadable name ty init) :
    ReadsAs stmtOf (emitDeclareText name ty init indent) (emitDeclare name ty init) := by
  obtain ⟨hname, hty, hinit⟩ := h
  have hdeclare : ReadsAs stmtOf
      (Text.unwords ["Declare".toList, quoted name.toList, emitCtypeText ty])
      (.Declare name ty) := by
    obtain ⟨var, hvar, hof⟩ := readsAtom_quoted hname
    obtain ⟨type, htype, hof'⟩ := readsAtom_emitCtypeText ty hty
    exact .apply (by decide) (.cons hvar (.cons htype .nil)) (by simp [stmtOf, hof, hof'])
  have hseq {s : Text} {f : FStmt} (hs : s.head? ≠ some '*') (hread : ReadsAs stmtOf s f) :
      ReadsAs stmtOf
        (Text.unwords ["Seq".toList,
          paren (Text.unwords ["Declare".toList, quoted name.toList, emitCtypeText ty])] ++
          below (indent + 4) (paren s))
        (.Seq (.Declare name ty) f) := by
    obtain ⟨first, hfirst, hof⟩ := hdeclare.paren (head_unwords (by decide) _)
    obtain ⟨second, hsecond, hof'⟩ := hread.paren hs
    have happly := Reads.apply (w := "Seq".toList) (by decide) (.cons hfirst .nil)
    exact ⟨_, reads_below _ happly hsecond, by simp [grouped, group, stmtOf, hof, hof']⟩
  cases init with
  | none => exact hdeclare
  | some e =>
    cases e with
    | Call func args =>
      exact hseq (head_unwords (by decide) _)
        (readsAs_callAssignText hname hinit (readsAtom_emitValClassForHelperText func))
    | _ => exact hseq (head_unwords (by decide) _) (readsAs_assign hname hinit)

/-- A `Return`. -/
theorem readsAs_return {s : Text} {f : FExpr} (h : ReadsAtom exprOf s f) :
    ReadsAs stmtOf (Text.unwords ["Return".toList, s, unitText]) (.Return f) := by
  obtain ⟨value, hvalue, hof⟩ := h
  exact .apply (by decide) (.cons hvalue (.cons reads_unitText .nil))
    (by simp [stmtOf, hof])

/-- Two branches on lines of their own. -/
theorem readsAs_branches {s t e : Text} {ts : List Term} {f g x : FStmt} (indent : ℕ)
    (hs : Reads s ts) (ht : ReadsAtom stmtOf t f) (he : ReadsAtom stmtOf e g)
    (hof : ∀ a b, stmtOf a = some f → stmtOf b = some g →
      stmtOf (grouped (ts ++ [a] ++ [b])) = some x) :
    ReadsAs stmtOf (s ++ below indent t ++ below indent e) x := by
  obtain ⟨first, hfirst, hf⟩ := ht
  obtain ⟨second, hsecond, hg⟩ := he
  exact ⟨_, reads_below _ (reads_below _ hs hfirst) hsecond, hof _ _ hf hg⟩

/-- `If` and the condition of an expression. -/
theorem readsAs_if {s t e : Text} {c : FExpr} {f g : FStmt} (indent : ℕ)
    (hs : ReadsAtom exprOf s c) (ht : ReadsAtom stmtOf t f) (he : ReadsAtom stmtOf e g) :
    ReadsAs stmtOf (Text.unwords ["If".toList, s] ++ below indent t ++ below indent e)
      (.If c f g) := by
  obtain ⟨cond, hcond, hof⟩ := hs
  exact readsAs_branches indent (.apply (by decide) (.cons hcond .nil)) ht he
    fun a b ha hb => by simp [grouped, group, stmtOf, hof, ha, hb]

/-- A return without a value. -/
theorem readsAs_returnNone :
    ReadsAs stmtOf "Return (IntLit 0 W32) ()".toList (.Return (.IntLit 0 .W32)) := by
  have htext : Text.unwords ["Return".toList, paren (Text.unwords
      ["IntLit".toList, intText 0, widthText .W32]), unitText] =
        "Return (IntLit 0 W32) ()".toList := by decide
  obtain ⟨number, hread, hof⟩ := readsAtom_intText 0
  obtain ⟨width, hread', hof'⟩ := readsAtom_widthText .W32
  have hvalue : ReadsAtom exprOf
      (paren (Text.unwords ["IntLit".toList, intText 0, widthText .W32])) (.IntLit 0 .W32) :=
    .apply (by decide) (.cons hread (.cons hread' .nil)) (by simp [exprOf, hof, hof'])
  exact htext ▸ readsAs_return hvalue

theorem readsAs_emitReturnText {value : Option Expr} (indent : ℕ) (h : ReturnReadable value) :
    ReadsAs stmtOf (emitReturnText value indent) (emitReturn value) := by
  have hreturn {e : Expr} (he : ExprReadable e) : ReadsAtom stmtOf
      (paren (Text.unwords ["Return".toList, paren ('\n' :: emitExprText e), unitText]))
      (.Return (emitExpr e)) :=
    (readsAs_return (readsAs_emitExprText e he).parenBelow).paren
      (head_unwords (by decide) _)
  cases value with
  | none =>
    exact readsAs_returnNone
  | some e =>
    cases e with
    | Ternary cond thenExpr elseExpr =>
      exact readsAs_if _ (readsAs_emitExprText cond h.1).parenBelow (hreturn h.2.1)
        (hreturn h.2.2)
    | _ => exact readsAs_return (readsAtom_parenExpr h)

/-- An expression left as a comment. -/
theorem readsAs_nop {s : Text} (h : isPlain s = true) :
    ReadsAs stmtOf (Text.unwords ["Nop".toList, commented s]) .Nop := by
  have hread := (Reads.word (w := "Nop".toList) (by decide)).spaced (reads_commented h)
  rw [Text.unwords_cons_cons, Text.unwords_singleton]
  exact ⟨_, hread, by simp [grouped, group, stmtOf]⟩

theorem readsAs_emitExprStmtText {expr : Expr} (h : ExprStmtReadable expr) :
    ReadsAs stmtOf (emitExprStmtText expr) (emitExprStmt expr) := by
  cases expr with
  | Call func args =>
    exact readsAs_callAssignText (by decide) h reads_scalarUnknown
  | _ => exact readsAs_nop h

/-- The variable of a null check can be read where the condition can. -/
theorem isLiteral_of_isNullCheck {cond : Expr} {name : String} (h : ExprReadable cond)
    (hnull : isNullCheck cond = some name) : IsLiteral name.toList := by
  unfold isNullCheck at hnull
  split at hnull
  · obtain rfl := Option.some.inj hnull
    exact h.1
  · obtain rfl := Option.some.inj hnull
    exact h.1.1
  · obtain rfl := Option.some.inj hnull
    exact h.2.1
  · cases hnull

/-- **An `If`**, which a null check makes an `IfNull`. -/
theorem readsAs_conditional {cond : Expr} {t e : Text} {f g : FStmt} (indent : ℕ)
    (h : ExprReadable cond) (ht : ReadsAtom stmtOf t f) (he : ReadsAtom stmtOf e g) :
    ReadsAs stmtOf (conditionText cond ++ below indent t ++ below indent e)
      (match isNullCheck cond with
        | some varName => .IfNull varName f g
        | none => .If (emitExpr cond) f g) := by
  unfold conditionText
  cases hnull : isNullCheck cond with
  | none => exact readsAs_if indent (readsAs_emitExprText cond h).parenBelow ht he
  | some name =>
    obtain ⟨var, hvar, hof⟩ := readsAtom_quoted (isLiteral_of_isNullCheck h hnull)
    exact readsAs_branches indent (.apply (by decide)
      (.cons hvar (.cons reads_unitText (.cons reads_unitText
        (.cons reads_unitText (.cons reads_unitText .nil)))))) ht he
      fun a b ha hb => by simp [grouped, group, stmtOf, hof, ha, hb]

mutual

/-- **The text of a statement is read as what is emitted for it.** -/
theorem readsAs_emitStmtText (indent : ℕ) : ∀ s : Stmt, StmtReadable s →
    ReadsAs stmtOf (emitStmtText indent s) (emitStmt s)
  | .Declare _ _ _, h => (readsAs_emitDeclareText indent h).gap (isGap_padding indent)
  | .Assign _ _, h => (readsAs_assign h.1 h.2).gap (isGap_padding indent)
  | .Return _, h => (readsAs_emitReturnText indent h).gap (isGap_padding indent)
  | .If cond thenStmts elseStmts, h => by
    have hthen := readsAs_emitStmtsText (indent + 4) thenStmts h.2.1
    have helse := readsAs_emitStmtsText (indent + 4) elseStmts h.2.2
    exact (readsAs_conditional (indent + 2) h.1 hthen.parenBelow helse.parenBelow).gap
      (isGap_padding indent)
  | .ExprStmt _, h => (readsAs_emitExprStmtText h).gap (isGap_padding indent)
  | .Compound stmts, h => readsAs_emitStmtsText indent stmts h

/-- **The text of a list of statements is read as their chain.** -/
theorem readsAs_emitStmtsText (indent : ℕ) : ∀ stmts : List Stmt, StmtsReadable stmts →
    ReadsAs stmtOf (emitStmtsText indent stmts) (emitStmts stmts)
  | [], _ => by
    have hread := Reads.word (w := "Nop".toList) (by decide)
    exact ⟨_, hread.gap (isGap_padding indent), by simp [grouped, group, stmtOf, emitStmts]⟩
  | [s], h => readsAs_emitStmtText indent s h.1
  | s :: s' :: rest, h => by
    obtain ⟨first, hfirst, hof⟩ := (readsAs_emitStmtText (indent + 2) s h.1).parenBelow
    obtain ⟨second, hsecond, hof'⟩ :=
      (readsAs_emitStmtsText (indent + 2) (s' :: rest) h.2).parenBelow
    have hseq := Reads.apply (w := "Seq".toList) (by decide) (.cons hfirst .nil)
    have hall := (reads_below indent hseq hsecond).trail (g := "\n".toList) (by decide)
    exact ⟨_, hall.gap (isGap_padding indent),
      by simp [grouped, group, stmtOf, hof, hof', emitStmts]⟩

end

/-- **F* reads the emitted statement** in a text that can be read. -/
theorem readStmt_emitStmtsText (indent : ℕ) {stmts : List Stmt} (h : StmtsReadable stmts) :
    readStmt (emitStmtsText indent stmts) = some (emitStmts stmts) := by
  obtain ⟨ts, hread, hof⟩ := readsAs_emitStmtsText indent stmts h
  have hne : ts ≠ [] := by
    rintro rfl
    cases hof
  rw [readStmt, read_of_reads hread hne, Option.bind_some, hof]

/-! ## Modules -/

/-- A name that can be part of an identifier. -/
def IsIdent (name : String) : Prop := name.toList.all isWordChar = true

instance (name : String) : Decidable (IsIdent name) := inferInstanceAs (Decidable (_ = _))

/-- **The module of an object can be read.** -/
structure ObjectReadable (obj : BpfObject) : Prop where
  source : isPlain (sourceComment obj) = true
  maps : ∀ map ∈ obj.maps,
    IsIdent map.name ∧ CtypeReadable map.keyType ∧ CtypeReadable map.valueType
  progs : ∀ prog ∈ obj.progs,
    IsIdent prog.name ∧ isPlain (progComment prog) = true ∧ StmtsReadable prog.body

theorem isLiteral_of_isIdent {name : String} (h : IsIdent name) : IsLiteral name.toList := by
  refine ⟨fun hmem => ?_, fun hmem => ?_⟩
  · exact absurd (List.all_eq_true.mp h _ hmem) (by decide)
  · exact absurd (List.all_eq_true.mp h _ hmem) (by decide)

/-- No keyword has an underscore. -/
theorem isWord_append {p name : Text} (hp : p.all isWordChar = true) (hunder : '_' ∈ p)
    (hname : name.all isWordChar = true) : IsWord (p ++ name) := by
  refine ⟨fun hnil => ?_, ?_, ?_⟩
  · rw [(List.append_eq_nil_iff.mp hnil).1] at hunder
    cases hunder
  · rw [List.all_append, hp, hname, Bool.and_self]
  · have hall : ∀ w ∈ [['m', 'o', 'd', 'u', 'l', 'e'], ['o', 'p', 'e', 'n'], ['l', 'e', 't']],
        '_' ∉ w := by decide
    exact Bool.eq_false_iff.mpr fun hkey =>
      hall _ (of_decide_eq_true hkey) (List.mem_append_left _ hunder)

theorem readsItems_fieldsText {fields : List Text} {terms : List Term}
    (h : List.Forall₂ (ReadsItem .brace) fields terms) :
    ReadsItems .brace (fieldsText fields) terms := by
  induction h with
  | nil => exact ReadsItems.nil.trail (g := "\n".toList) (by decide)
  | cons hfield hrest ih =>
    exact .cons (.inr rfl) (hfield.gap (g := "\n  ".toList) (by decide)) ih

theorem ofList_append (p name : String) : String.ofList (p.toList ++ name.toList) = p ++ name := by
  rw [String.ofList_append, String.ofList_toList, String.ofList_toList]

/-- **A map is defined as it is.** -/
theorem readsDeclsAs_emitMapDefText {map : MapDef} (hname : IsIdent map.name)
    (hkey : CtypeReadable map.keyType) (hval : CtypeReadable map.valueType) :
    ReadsDeclsAs declOf (emitMapDefText map)
      [.map ("map_" ++ map.name) ⟨map.name, map.keyType, map.valueType, map.maxEntries⟩] := by
  obtain ⟨name, hread, hof⟩ := readsAtom_quoted (isLiteral_of_isIdent hname)
  obtain ⟨key, hread', hof'⟩ := readsAtom_emitCtypeText map.keyType hkey
  obtain ⟨val, hread₁, hof₁⟩ := readsAtom_emitCtypeText map.valueType hval
  obtain ⟨entries, hread₂, hof₂⟩ := readsAtom_natText map.maxEntries
  have hrecord := Reads.braced (readsItems_fieldsText
    (.cons (readsItem_fieldText "map_name" (by decide) hread)
      (.cons (readsItem_fieldText "map_type" (by decide)
          (Reads.word (w := "MapHash".toList) (by decide)))
        (.cons (readsItem_fieldText "map_key_type" (by decide) hread')
          (.cons (readsItem_fieldText "map_val_type" (by decide) hread₁)
            (.cons (readsItem_fieldText "map_max_entries" (by decide) hread₂) .nil))))))
  have hword : IsWord ("map_".toList ++ map.name.toList) :=
    isWord_append (by decide) (by decide) hname
  have hdecl := ReadsDecls.define hword (Reads.word (w := "map_def".toList) (by decide))
    (by simp) (hrecord.gap (g := [' ']) (by decide)) (by simp) (ends_cons (by decide) _)
  refine .of_decl hdecl ?_
  have hdef : mapDefOf (.record (.list [.field "map_name".toList name,
      .field "map_type".toList (.word "MapHash".toList), .field "map_key_type".toList key,
      .field "map_val_type".toList val, .field "map_max_entries".toList entries])) =
        some ⟨map.name, map.keyType, map.valueType, map.maxEntries⟩ := by
    simp [mapDefOf, hof, hof', hof₁, hof₂]
  have htype : grouped [.word "map_def".toList] = .word "map_def".toList := rfl
  rw [declOf, if_pos rfl, if_pos htype, ofList_append]
  exact congrArg (Option.map _) hdef

theorem reads_bodyTypeText (progType : BpfProgType) :
    ∃ t, Reads (bodyTypeText progType)
        [.word "stmt".toList, t, initialCtxTerm, .word "_".toList] ∧
      nameOf progTypes t = some progType := by
  obtain ⟨t, hread, hof⟩ := readsAtom_progTypeText progType
  have hctx : Reads "[(\"ctx\", PtrToCtx 0)]".toList [initialCtxTerm] := by
    have hclass := Reads.apply (w := "PtrToCtx".toList) (by decide) (.cons reads_zero .nil)
    have hpair := (Reads.quoted (s := "ctx".toList) (by decide)).pair (by simp) hclass
      (by simp) (by simp [quoted])
    have hlist := Reads.bracketed (.single (hpair.item (by simp)))
    have htext : bracketed (paren (quoted "ctx".toList ++
        ',' :: ' ' :: Text.unwords ["PtrToCtx".toList, "0".toList])) =
          "[(\"ctx\", PtrToCtx 0)]".toList := by decide
    exact htext ▸ hlist
  exact ⟨t, .apply (by decide)
    (.cons hread (.cons hctx (.cons (.word (by decide)) .nil))), hof⟩

/-- **A programme's body is defined as it is emitted.** -/
theorem readsDeclsAs_emitBodyText {prog : BpfProg} (hname : IsIdent prog.name)
    (hbody : StmtsReadable prog.body) :
    ReadsDeclsAs declOf (emitBodyText prog)
      [.body ("body_" ++ prog.name) (sectionToProgType prog.sectionName)
        (emitStmts prog.body)] := by
  obtain ⟨t, htype, hof⟩ := reads_bodyTypeText (sectionToProgType prog.sectionName)
  obtain ⟨ts, hstmts, hofs⟩ :=
    (readsAs_emitStmtsText 2 prog.body hbody).gap (g := ['\n']) (by decide)
  have hne : ts ≠ [] := by
    rintro rfl
    cases hofs
  have hword : IsWord ("body_".toList ++ prog.name.toList) :=
    isWord_append (by decide) (by decide) hname
  have hdecl := ReadsDecls.define hword htype (by simp) hstmts hne (ends_cons (by decide) _)
  refine .of_decl hdecl ?_
  have htype' : bodyTypeOf (grouped [.word "stmt".toList, t, initialCtxTerm, .word "_".toList]) =
      some (sectionToProgType prog.sectionName) := hof
  have hnot : grouped [.word "stmt".toList, t, initialCtxTerm, .word "_".toList] ≠
      .word "map_def".toList := fun h => by cases h
  rw [declOf, if_pos rfl, if_neg hnot, ofList_append, htype', hofs]
  rfl

theorem isWord_openedModules : ∀ m ∈ openedModules, IsWord m := by decide

theorem forall₂_flatMap {α β γ : Type} {r : β → γ → Prop} {f : α → List β} {g : α → List γ}
    {l : List α} (h : ∀ a ∈ l, List.Forall₂ r (f a) (g a)) :
    List.Forall₂ r (l.flatMap f) (l.flatMap g) := by
  induction l with
  | nil => exact .nil
  | cons a l ih =>
    obtain ⟨ha, hl⟩ := List.forall_mem_cons.mp h
    rw [List.flatMap_cons, List.flatMap_cons]
    exact List.rel_append ha (ih hl)

/-- **The module that is written declares what is emitted**: the text of `emit_module`, as F* reads
it, opens the modules of the typed AST, defines every map of the object and, for every programme,
the body that `emit_stmts` makes of it at the type of its section. -/
theorem readObject_emitModuleText {obj : BpfObject} {moduleName : String}
    (hname : IsWord moduleName.toList) (h : ObjectReadable obj) :
    readObject (emitModuleText obj moduleName) = some (emitObject obj moduleName) := by
  have hnil : ReadsDeclsAs declOf [] [] := .nil declOf
  have hmodule : ReadsDeclsAs declOf ("module".toList ++ ' ' :: moduleName.toList)
      [.module moduleName] :=
    .of_decl (.name (by decide) hname) (by simp [declOf])
  have hheader := List.Forall₂.cons (ReadsDeclsAs.comment declOf h.source)
    (.cons hmodule (.cons hnil .nil))
  have hopens : List.Forall₂ (ReadsDeclsAs declOf)
      (openedModules.flatMap fun m => ["open".toList ++ ' ' :: m])
      (openedModules.flatMap fun m => [[.opens (String.ofList m)]]) :=
    forall₂_flatMap fun m hm => .cons
      (.of_decl (.name (by decide) (isWord_openedModules m hm)) (by simp [declOf])) .nil
  have hmaps : List.Forall₂ (ReadsDeclsAs declOf)
      (obj.maps.flatMap fun map => [emitMapDefText map, []])
      (obj.maps.flatMap fun map => [[.map ("map_" ++ map.name)
        ⟨map.name, map.keyType, map.valueType, map.maxEntries⟩], []]) :=
    forall₂_flatMap fun map hmap => .cons
      (readsDeclsAs_emitMapDefText (h.maps map hmap).1 (h.maps map hmap).2.1 (h.maps map hmap).2.2)
      (.cons hnil .nil)
  have hprogs : List.Forall₂ (ReadsDeclsAs declOf)
      (obj.progs.flatMap fun prog => [commented (progComment prog), [], emitBodyText prog, []])
      (obj.progs.flatMap fun prog => [[], [], [.body ("body_" ++ prog.name)
        (sectionToProgType prog.sectionName) (emitStmts prog.body)], []]) :=
    forall₂_flatMap fun prog hprog => .cons (.comment declOf (h.progs prog hprog).2.1)
      (.cons hnil (.cons (readsDeclsAs_emitBodyText (h.progs prog hprog).1 (h.progs prog hprog).2.2)
        (.cons hnil .nil)))
  have hall := ReadsDeclsAs.unlines (List.rel_append (List.rel_append (List.rel_append
    (List.rel_append hheader hopens) (.cons hnil .nil)) hmaps) hprogs)
  have hread := readModule_of_readsDeclsAs hall
  have hflat {α : Type} (l : List α) (f : α → List (List FDecl)) :
      (l.flatMap f).flatten = l.flatMap fun a => (f a).flatten := by
    rw [List.flatMap_def, List.flatten_flatten, List.map_map]
    rfl
  rw [readObject, emitModuleText, List.map_eq_flatMap]
  refine hread.trans (congrArg some ?_)
  simp [List.flatten_append, hflat, emitObject, List.map_eq_flatMap]

/-- A filter that looks a key up and compares the value it finds. -/
def simpleFilter : BpfObject where
  sourceFile := "simple_filter.c"
  maps := [⟨"my_map", "BPF_MAP_TYPE_HASH", .CUInt .W32, .CUInt .W64, 1024⟩]
  progs := [{
    name := "my_filter"
    sectionName := "socket_filter"
    paramName := "skb"
    paramType := .CPtr .CVoid
    returnType := .CInt .W32
    body := [.Declare "key" (.CUInt .W32) (some (.IntLit 0 .W32)),
      .Declare "val" (.CPtr (.CUInt .W64)) (some (.Call "bpf_map_lookup_elem"
        [.AddrOf (.VarRef "my_map" (.CStruct (.mk "(unnamed struct)" []))),
          .AddrOf (.VarRef "key" (.CUInt .W32))])),
      .If (.VarRef "val" (.CPtr (.CUInt .W64)))
        [.Return (some (.Ternary (.BinOp .Gt (.Deref (.VarRef "val" (.CPtr (.CUInt .W64))))
          (.IntLit 100 .W32)) (.IntLit 1 .W32) (.IntLit 0 .W32)))] [],
      .Return (some (.IntLit 0 .W32))] }]

theorem readObject_simpleFilter :
    readObject (emitModuleText simpleFilter "BPF.Test.Generated") =
      some (emitObject simpleFilter "BPF.Test.Generated") := by
  refine readObject_emitModuleText (by decide) ⟨by decide, ?_, ?_⟩
  · rintro map hmap
    obtain rfl := List.mem_singleton.mp hmap
    exact ⟨by decide, trivial, trivial⟩
  · rintro prog hprog
    obtain rfl := List.mem_singleton.mp hprog
    refine ⟨by decide, by decide, ?_⟩
    simp [StmtsReadable, StmtReadable, DeclareReadable, ReturnReadable, CallReadable, ArgReadable,
      ExprReadable, CtypeReadable, StructReadable, FieldsReadable, IsLiteral, knownHelpers,
      helperRefs]

/-- A call whose first argument is a dereference, where an expression stands: the comment written
for it opens another, which nothing closes. -/
example : readModule (emitModuleText ⟨"deref.c", [], [⟨"f", "xdp", "ctx", .CVoid, .CVoid,
    [.Assign "x" (.Call "g" [.Deref (.VarRef "p" (.CPtr .CVoid))])]⟩]⟩ "M") = none := by
  decide +kernel

end BpfVerifier.Ast
