import BpfVerifier.Ast.Intermediate
import BpfVerifier.FstarAst.Expr
import BpfVerifier.FstarAst.Helpers

/-!
# Ast/Emit — `emit.rs`, from the intermediate tree to F* constructors

The emitted text is an application of the constructors of `FstarAst/Stmt` and `FstarAst/Expr`, whose
contexts and conditions F* finds.  `FStmt` and `FExpr` are these applications.  The text they stand
for, with its layout and its comments, is in `Ast/EmitText`: a comment that opens another there
swallows what follows.
-/

namespace BpfVerifier.Ast

open FstarAst

/-! ## The emitted trees -/

/-- An emitted expression. -/
inductive FExpr where
  | IntLit (v : ℤ) (w : IntWidth)
  | UIntLit (v : ℕ) (w : IntWidth)
  | BoolLit (b : Bool)
  | VarRef (name : String) (t : CType)
  | BinOp (op : Binop) (lhs rhs : FExpr)
  | UnaryOp (op : Unaryop) (operand : FExpr)
  | Deref (ptr : FExpr)
  | AddrOf (inner : FExpr)
  | FieldAccess (obj : FExpr) (field : String)
  | Cast (t : CType) (inner : FExpr)
  /-- `()`: parentheses around a comment. -/
  | Unit

/-- **An emitted statement.** -/
inductive FStmt where
  | Nop
  | Seq (first second : FStmt)
  | Declare (name : String) (t : CType)
  | Assign (name : String) (value : FExpr) (vc : ValClass)
  | CallAssign (name : String) (helper : HelperDesc) (args : List CType) (retVc : ValClass)
  | If (cond : FExpr) (thenBranch elseBranch : FStmt)
  | IfNull (checkedVar : String) (thenBranch elseBranch : FStmt)
  | Return (value : FExpr)

/-! ## Expressions -/

def BinOp.emit : BinOp → Binop
  | .Add => .Add
  | .Sub => .Sub
  | .Mul => .Mul
  | .Div => .Div
  | .Mod => .Mod
  | .BitAnd => .BitAnd
  | .BitOr => .BitOr
  | .BitXor => .BitXor
  | .ShiftL => .ShiftL
  | .ShiftR => .ShiftR
  | .Eq => .Eq
  | .Ne => .Ne
  | .Lt => .Lt
  | .Le => .Le
  | .Gt => .Gt
  | .Ge => .Ge
  | .LAnd => .LAnd
  | .LOr => .LOr

def UnaryOp.emit : UnaryOp → Unaryop
  | .Neg => .Neg
  | .BitNot => .BitNot
  | .LNot => .LNot

/-- `emit_expr`: a call or a ternary is a comment, which `emitExprText` writes.  Where that opens
another comment, the text after it is none of these constructors. -/
def emitExpr : Expr → FExpr
  | .IntLit v w => .IntLit v w
  | .UIntLit v w => .UIntLit v w
  | .BoolLit b => .BoolLit b
  | .VarRef name ty => .VarRef name ty
  | .BinOp op lhs rhs => .BinOp op.emit (emitExpr lhs) (emitExpr rhs)
  | .UnaryOp op operand => .UnaryOp op.emit (emitExpr operand)
  | .Deref ptr => .Deref (emitExpr ptr)
  | .AddrOf operand => .AddrOf (emitExpr operand)
  | .FieldAccess base field => .FieldAccess (emitExpr base) field
  | .Cast operand ty => .Cast ty (emitExpr operand)
  | .Call _ _ => .Unit
  | .Ternary _ _ _ => .Unit

/-- `is_null_check`: any variable is one, or a variable compared with the unsigned zero. -/
def isNullCheck : Expr → Option String
  | .VarRef name _ => some name
  | .BinOp .Ne (.VarRef name _) (.UIntLit 0 _) => some name
  | .BinOp .Ne (.UIntLit 0 _) (.VarRef name _) => some name
  | _ => none

/-- `emit_ctype_of_expr`. -/
def emitCtypeOfExpr : Expr → CType
  | .VarRef _ ty => ty
  | .AddrOf operand => .CPtr (emitCtypeOfExpr operand)
  | .IntLit _ w => .CInt w
  | .UIntLit _ w => .CUInt w
  | _ => .CVoid

/-! ## Helpers -/

/-- The names `emit_helper_ref` knows. -/
def helperRefs : List (String × HelperDesc) :=
  [("bpf_map_lookup_elem", hMapLookupElem),
    ("bpf_map_update_elem", hMapUpdateElem),
    ("bpf_map_delete_elem", hMapDeleteElem),
    ("bpf_get_current_pid_tgid", hGetCurrentPidTgid),
    ("bpf_get_current_uid_gid", hGetCurrentUidGid),
    ("bpf_get_current_comm", hGetCurrentComm),
    ("bpf_ktime_get_ns", hKtimeGetNs),
    ("bpf_ktime_get_boot_ns", hKtimeGetBootNs),
    ("bpf_get_smp_processor_id", hGetSmpProcessorId),
    ("bpf_get_prandom_u32", hGetPrandomU32),
    ("bpf_probe_read_kernel", hProbeReadKernel),
    ("bpf_probe_read_user", hProbeReadUser),
    ("bpf_probe_read", hProbeRead),
    ("bpf_trace_printk", hTracePrintk),
    ("bpf_get_current_task", hGetCurrentTask),
    ("bpf_tail_call", hTailCall),
    ("bpf_perf_event_output", hPerfEventOutput),
    ("bpf_ringbuf_output", hRingbufOutput),
    ("bpf_redirect", hRedirect),
    ("bpf_redirect_map", hRedirectMap),
    ("bpf_xdp_adjust_head", hXdpAdjustHead),
    ("bpf_xdp_adjust_tail", hXdpAdjustTail),
    ("bpf_skb_load_bytes", hSkbLoadBytes),
    ("bpf_skb_store_bytes", hSkbStoreBytes),
    ("bpf_fib_lookup", hFibLookup),
    ("bpf_csum_diff", hCsumDiff),
    ("bpf_sk_lookup_tcp", hSkLookupTcp),
    ("bpf_sk_lookup_udp", hSkLookupUdp),
    ("bpf_sk_release", hSkRelease),
    ("bpf_loop", hBpfLoop),
    ("bpf_get_stack", hGetStack),
    ("bpf_get_stackid", hGetStackid)]

/-- The names with a helper of their own. -/
def knownHelpers : List String := helperRefs.map Prod.fst

/-- `emit_helper_ref`. -/
def emitHelperRef (name : String) : HelperDesc :=
  match helperRefs.find? fun r => r.1 = name with
  | some r => r.2
  -- unknown helper
  | none => hGetCurrentPidTgid

/-- **The names known are those of the registry of helpers.** -/
theorem mem_knownHelpers_iff {name : String} :
    name ∈ knownHelpers ↔ (lookupHelper name).isSome = true := by
  have hin : ∀ n ∈ knownHelpers, n ∈ allHelpers.map HelperDesc.hName := by decide
  have hout : ∀ n ∈ allHelpers.map HelperDesc.hName, n ∈ knownHelpers := by decide
  constructor
  · intro hname
    obtain ⟨h, hmem, rfl⟩ := List.mem_map.mp (hin name hname)
    exact List.find?_isSome.mpr ⟨h, hmem, by simp⟩
  · intro hsome
    obtain ⟨h, hfind⟩ := Option.isSome_iff_exists.mp hsome
    obtain ⟨rfl, hmem⟩ := hName_of_lookupHelper hfind
    exact hout _ (List.mem_map_of_mem hmem)

/-- The table gives each name the helper of that name. -/
theorem hName_of_mem_helperRefs : ∀ r ∈ helperRefs, r.2.hName = r.1 := by decide

theorem hName_emitHelperRef (name : String) :
    (emitHelperRef name).hName =
      if name ∈ knownHelpers then name else "bpf_get_current_pid_tgid" := by
  unfold emitHelperRef
  cases hfind : helperRefs.find? fun r => r.1 = name with
  | some r =>
    have hname : r.1 = name := by simpa using List.find?_some hfind
    have hmem := List.mem_of_find?_eq_some hfind
    rw [if_pos (hname ▸ List.mem_map_of_mem hmem)]
    exact (hName_of_mem_helperRefs r hmem).trans hname
  | none =>
    have hnot : name ∉ knownHelpers := by
      rintro hmem
      obtain ⟨r, hr, rfl⟩ := List.mem_map.mp hmem
      simpa using List.find?_eq_none.mp hfind r hr
    rw [if_neg hnot]
    rfl

/-- `emit_val_class_for_helper`. -/
def emitValClassForHelper (name : String) : ValClass :=
  match name with
  | "bpf_map_lookup_elem" => .PtrToMapValueOrNull 0 0
  | "bpf_sk_lookup_tcp" | "bpf_sk_lookup_udp" => .PtrToSocketOrNull 0
  | _ => scalarUnknown

/-! ## Statements -/

/-- The `Declare` case of `emit_stmt`. -/
def emitDeclare (name : String) (ty : CType) (init : Option Expr) : FStmt :=
  match init with
  | none => .Declare name ty
  | some (.Call funcName args) =>
    .Seq (.Declare name ty)
      (.CallAssign name (emitHelperRef funcName) (args.map emitCtypeOfExpr)
        (emitValClassForHelper funcName))
  | some e => .Seq (.Declare name ty) (.Assign name (emitExpr e) scalarUnknown)

/-- The `Return` case of `emit_stmt`: a ternary is two Returns. -/
def emitReturn (value : Option Expr) : FStmt :=
  match value with
  | some (.Ternary cond thenExpr elseExpr) =>
    .If (emitExpr cond) (.Return (emitExpr thenExpr)) (.Return (emitExpr elseExpr))
  | some e => .Return (emitExpr e)
  | none => .Return (.IntLit 0 .W32)

/-- The `ExprStmt` case of `emit_stmt`: but for a call the expression is left as a comment, which
`emitExprStmtText` writes after the `Nop`. -/
def emitExprStmt (expr : Expr) : FStmt :=
  match expr with
  | .Call funcName args =>
    .CallAssign "_" (emitHelperRef funcName) (args.map emitCtypeOfExpr) scalarUnknown
  | _ => .Nop

mutual

/-- **`emit_stmt`.** -/
def emitStmt : Stmt → FStmt
  | .Declare name ty init => emitDeclare name ty init
  | .Assign name value => .Assign name (emitExpr value) scalarUnknown
  | .Return value => emitReturn value
  | .If cond thenStmts elseStmts =>
    match isNullCheck cond with
    | some varName => .IfNull varName (emitStmts thenStmts) (emitStmts elseStmts)
    | none => .If (emitExpr cond) (emitStmts thenStmts) (emitStmts elseStmts)
  | .ExprStmt expr => emitExprStmt expr
  | .Compound stmts => emitStmts stmts

/-- **`emit_stmts`.** -/
def emitStmts : List Stmt → FStmt
  | [] => .Nop
  | [s] => emitStmt s
  | s :: rest => .Seq (emitStmt s) (emitStmts rest)

end

/-- An arm is emitted as its statement is. -/
theorem emitStmts_arm (s : Stmt) : emitStmts s.arm = emitStmt s := by
  cases s <;> rfl

end BpfVerifier.Ast
