import BpfVerifier.Ast.Emit
import BpfVerifier.Machinery.Terms

/-!
# Ast/EmitText — `emit.rs`, the text of the emitted module

`Ast/Emit` says which constructors are emitted; here is the text of their application, with its
layout and its comments, and the module around it: the maps and, for each programme, its body.
-/

namespace BpfVerifier.Ast

open FstarAst Terms

/-! ## The object -/

/-- `MapDef`. -/
structure MapDef where
  name : String
  mapType : String
  keyType : CType
  valueType : CType
  maxEntries : ℕ

/-- `BpfProg`. -/
structure BpfProg where
  name : String
  sectionName : String
  paramName : String
  paramType : CType
  returnType : CType
  body : List Stmt

/-- `BpfObject`. -/
structure BpfObject where
  sourceFile : String
  maps : List MapDef
  progs : List BpfProg

/-! ## Names and types -/

/-- How the widths are displayed. -/
def widthText : IntWidth → Text
  | .W8 => "W8".toList
  | .W16 => "W16".toList
  | .W32 => "W32".toList
  | .W64 => "W64".toList

/-- How the binary operators are displayed. -/
def BinOp.text : BinOp → Text
  | .Add => "Add".toList
  | .Sub => "Sub".toList
  | .Mul => "Mul".toList
  | .Div => "Div".toList
  | .Mod => "Mod".toList
  | .BitAnd => "BitAnd".toList
  | .BitOr => "BitOr".toList
  | .BitXor => "BitXor".toList
  | .ShiftL => "ShiftL".toList
  | .ShiftR => "ShiftR".toList
  | .Eq => "Eq".toList
  | .Ne => "Ne".toList
  | .Lt => "Lt".toList
  | .Le => "Le".toList
  | .Gt => "Gt".toList
  | .Ge => "Ge".toList
  | .LAnd => "LAnd".toList
  | .LOr => "LOr".toList

/-- How the unary operators are displayed. -/
def UnaryOp.text : UnaryOp → Text
  | .Neg => "Neg".toList
  | .BitNot => "BitNot".toList
  | .LNot => "LNot".toList

def natText (n : ℕ) : Text := (toString n).toList

def intText (z : ℤ) : Text := (toString z).toList

def boolText (b : Bool) : Text := if b then "true".toList else "false".toList

/-- The proofs that F* finds. -/
def unitText : Text := paren []

def commented (s : Text) : Text := "(* ".toList ++ s ++ " *)".toList

/-- A field of a record. -/
def fieldText (label : String) (value : Text) : Text := label.toList ++ " = ".toList ++ value

mutual

/-- `emit_ctype`. -/
def emitCtypeText : CType → Text
  | .CInt w => paren (Text.unwords ["CInt".toList, widthText w])
  | .CUInt w => paren (Text.unwords ["CUInt".toList, widthText w])
  | .CBool => "CBool".toList
  | .CVoid => "CVoid".toList
  | .CPtr t => paren (Text.unwords ["CPtr".toList, emitCtypeText t])
  | .CPtrOrNull t => paren (Text.unwords ["CPtr_or_null".toList, emitCtypeText t])
  | .CStruct sd => paren (Text.unwords ["CStruct".toList, emitStructText sd])
  | .CArray elem n => paren (Text.unwords ["CArray".toList, emitCtypeText elem, natText n])

/-- The record of a struct; without fields its list is empty. -/
def emitStructText : StructDef → Text
  | .mk name fields =>
    braced (' ' :: fieldText "struct_name" (quoted name.toList) ++ ';' :: (' ' ::
      fieldText "fields" (bracketed ("; ".toList.intercalate (emitFieldTexts fields))) ++ [' ']))

def emitFieldTexts : List (String × CType) → List Text
  | [] => []
  | (name, t) :: rest =>
    paren (quoted name.toList ++ ", ".toList ++ emitCtypeText t) :: emitFieldTexts rest

end

/-! ## Expressions -/

mutual

/-- `emit_expr_brief`. -/
def emitExprBrief : Expr → Text
  | .IntLit v _ => intText v
  | .UIntLit v _ => natText v
  | .BoolLit b => boolText b
  | .VarRef name _ => name.toList
  | .BinOp op lhs rhs => Text.unwords [emitExprBrief lhs, op.text, emitExprBrief rhs]
  | .UnaryOp op operand => op.text ++ paren (emitExprBrief operand)
  | .Deref ptr => '*' :: emitExprBrief ptr
  | .AddrOf operand => '&' :: emitExprBrief operand
  | .FieldAccess base field => emitExprBrief base ++ '.' :: field.toList
  | .Cast operand _ => emitExprBrief operand
  | .Call name args => name.toList ++ paren (", ".toList.intercalate (emitExprBriefs args))
  | .Ternary cond thenExpr elseExpr =>
    emitExprBrief cond ++ " ? ".toList ++ emitExprBrief thenExpr ++ " : ".toList ++
      emitExprBrief elseExpr

def emitExprBriefs : List Expr → List Text
  | [] => []
  | e :: rest => emitExprBrief e :: emitExprBriefs rest

end

/-- `emit_expr`; a call or a ternary is a comment. -/
def emitExprText : Expr → Text
  | .IntLit v w => Text.unwords ["IntLit".toList, paren (intText v), widthText w]
  | .UIntLit v w => Text.unwords ["UIntLit".toList, natText v, widthText w]
  | .BoolLit b => Text.unwords ["BoolLit".toList, boolText b]
  | .VarRef name ty =>
    Text.unwords ["VarRef".toList, quoted name.toList, emitCtypeText ty, unitText, unitText]
  | .BinOp op lhs rhs =>
    Text.unwords ["BinOp".toList, op.text, paren (emitExprText lhs), paren (emitExprText rhs),
      unitText]
  | .UnaryOp op operand =>
    Text.unwords ["UnaryOp".toList, op.text, paren (emitExprText operand), unitText]
  | .Deref ptr => Text.unwords ["Deref".toList, paren (emitExprText ptr)]
  | .AddrOf operand => Text.unwords ["AddrOf".toList, paren (emitExprText operand)]
  | .FieldAccess base field =>
    Text.unwords ["FieldAccess".toList, paren (emitExprText base), quoted field.toList]
  | .Cast operand ty =>
    Text.unwords ["Cast".toList, emitCtypeText ty, paren (emitExprText operand)]
  | .Call name args => commented ("call: ".toList ++ emitExprBrief (.Call name args))
  | .Ternary cond thenExpr elseExpr =>
    commented ("ternary: ".toList ++ emitExprBrief (.Ternary cond thenExpr elseExpr))

/-- `emit_ctype_of_expr`. -/
def emitCtypeOfExprText : Expr → Text
  | .VarRef _ ty => emitCtypeText ty
  | .AddrOf operand => paren (Text.unwords ["CPtr".toList, emitCtypeOfExprText operand])
  | .IntLit _ w => paren (Text.unwords ["CInt".toList, widthText w])
  | .UIntLit _ w => paren (Text.unwords ["CUInt".toList, widthText w])
  | _ => "CVoid".toList

/-! ## Helpers -/

/-- The names `emit_helper_ref` gives the helpers. -/
def helperIdents : List (String × String) :=
  [("bpf_map_lookup_elem", "h_map_lookup_elem"),
    ("bpf_map_update_elem", "h_map_update_elem"),
    ("bpf_map_delete_elem", "h_map_delete_elem"),
    ("bpf_get_current_pid_tgid", "h_get_current_pid_tgid"),
    ("bpf_get_current_uid_gid", "h_get_current_uid_gid"),
    ("bpf_get_current_comm", "h_get_current_comm"),
    ("bpf_ktime_get_ns", "h_ktime_get_ns"),
    ("bpf_ktime_get_boot_ns", "h_ktime_get_boot_ns"),
    ("bpf_get_smp_processor_id", "h_get_smp_processor_id"),
    ("bpf_get_prandom_u32", "h_get_prandom_u32"),
    ("bpf_probe_read_kernel", "h_probe_read_kernel"),
    ("bpf_probe_read_user", "h_probe_read_user"),
    ("bpf_probe_read", "h_probe_read"),
    ("bpf_trace_printk", "h_trace_printk"),
    ("bpf_get_current_task", "h_get_current_task"),
    ("bpf_tail_call", "h_tail_call"),
    ("bpf_perf_event_output", "h_perf_event_output"),
    ("bpf_ringbuf_output", "h_ringbuf_output"),
    ("bpf_redirect", "h_redirect"),
    ("bpf_redirect_map", "h_redirect_map"),
    ("bpf_xdp_adjust_head", "h_xdp_adjust_head"),
    ("bpf_xdp_adjust_tail", "h_xdp_adjust_tail"),
    ("bpf_skb_load_bytes", "h_skb_load_bytes"),
    ("bpf_skb_store_bytes", "h_skb_store_bytes"),
    ("bpf_fib_lookup", "h_fib_lookup"),
    ("bpf_csum_diff", "h_csum_diff"),
    ("bpf_sk_lookup_tcp", "h_sk_lookup_tcp"),
    ("bpf_sk_lookup_udp", "h_sk_lookup_udp"),
    ("bpf_sk_release", "h_sk_release"),
    ("bpf_loop", "h_bpf_loop"),
    ("bpf_get_stack", "h_get_stack"),
    ("bpf_get_stackid", "h_get_stackid")]

/-- `emit_helper_ref`. -/
def emitHelperRefText (name : String) : Text :=
  match helperIdents.find? fun r => r.1 = name with
  | some r => r.2.toList
  | none =>
    commented ("unknown helper: ".toList ++ name.toList) ++ " h_get_current_pid_tgid".toList

/-- `emit_val_class_for_helper`. -/
def emitValClassForHelperText (name : String) : Text :=
  if name = "bpf_map_lookup_elem" then "(PtrToMapValueOrNull 0 0)".toList
  else if name = "bpf_sk_lookup_tcp" ∨ name = "bpf_sk_lookup_udp" then
    "(PtrToSocketOrNull 0)".toList
  else "scalar_unknown".toList

/-! ## Statements -/

def padding (indent : ℕ) : Text := List.replicate indent ' '

/-- On the next line. -/
def below (indent : ℕ) (s : Text) : Text := '\n' :: padding indent ++ s

/-- A helper's application, with the class of its result. -/
def callAssignText (name func : String) (args : List Expr) (retVc : Text) : Text :=
  Text.unwords ["CallAssign".toList, quoted name.toList, emitHelperRefText func,
    bracketed ("; ".toList.intercalate (args.map emitCtypeOfExprText)), unitText, retVc]

/-- The `Declare` case of `emit_stmt`. -/
def emitDeclareText (name : String) (ty : CType) (init : Option Expr) (indent : ℕ) : Text :=
  let declare := Text.unwords ["Declare".toList, quoted name.toList, emitCtypeText ty]
  match init with
  | none => declare
  | some (.Call funcName args) =>
    Text.unwords ["Seq".toList, paren declare] ++ below (indent + 4)
      (paren (callAssignText name funcName args (emitValClassForHelperText funcName)))
  | some e =>
    Text.unwords ["Seq".toList, paren declare] ++ below (indent + 4)
      (paren (Text.unwords
        ["Assign".toList, quoted name.toList, paren (emitExprText e), "scalar_unknown".toList]))

/-- The `Return` case of `emit_stmt`. -/
def emitReturnText (value : Option Expr) (indent : ℕ) : Text :=
  match value with
  | some (.Ternary cond thenExpr elseExpr) =>
    Text.unwords ["If".toList, paren ('\n' :: emitExprText cond)] ++
      below (indent + 2)
        (paren (Text.unwords ["Return".toList, paren ('\n' :: emitExprText thenExpr), unitText])) ++
      below (indent + 2)
        (paren (Text.unwords ["Return".toList, paren ('\n' :: emitExprText elseExpr), unitText]))
  | some e => Text.unwords ["Return".toList, paren (emitExprText e), unitText]
  | none => "Return (IntLit 0 W32) ()".toList

/-- The `ExprStmt` case of `emit_stmt`. -/
def emitExprStmtText (expr : Expr) : Text :=
  match expr with
  | .Call funcName args => callAssignText "_" funcName args "scalar_unknown".toList
  | e => Text.unwords ["Nop".toList, commented (emitExprBrief e)]

/-- What an `If` or an `IfNull` says before its branches. -/
def conditionText (cond : Expr) : Text :=
  match isNullCheck cond with
  | some varName =>
    Text.unwords ["IfNull".toList, quoted varName.toList, unitText, unitText, unitText, unitText]
  | none => Text.unwords ["If".toList, paren ('\n' :: emitExprText cond)]

mutual

/-- **`emit_stmt`**, with its indentation. -/
def emitStmtText (indent : ℕ) : Stmt → Text
  | .Declare name ty init => padding indent ++ emitDeclareText name ty init indent
  | .Assign name value =>
    padding indent ++ Text.unwords ["Assign".toList, quoted name.toList,
      paren (emitExprText value), "scalar_unknown".toList]
  | .Return value => padding indent ++ emitReturnText value indent
  | .If cond thenStmts elseStmts =>
    padding indent ++ (conditionText cond ++
      below (indent + 2) (paren ('\n' :: emitStmtsText (indent + 4) thenStmts)) ++
      below (indent + 2) (paren ('\n' :: emitStmtsText (indent + 4) elseStmts)))
  | .ExprStmt expr => padding indent ++ emitExprStmtText expr
  | .Compound stmts => emitStmtsText indent stmts

/-- **`emit_stmts`**, a chain of `Seq`. -/
def emitStmtsText (indent : ℕ) : List Stmt → Text
  | [] => padding indent ++ "Nop".toList
  | [s] => emitStmtText indent s
  | s :: rest =>
    padding indent ++
      (Text.unwords ["Seq".toList, paren ('\n' :: emitStmtText (indent + 2) s)] ++
        below indent (paren ('\n' :: emitStmtsText (indent + 2) rest)) ++ "\n".toList)

end

/-! ## Modules -/

/-- How the programme types are written. -/
def progTypeText : BpfProgType → Text
  | .ProgSocketFilter => "ProgSocketFilter".toList
  | .ProgXDP => "ProgXDP".toList
  | .ProgKprobe => "ProgKprobe".toList
  | .ProgTracepoint => "ProgTracepoint".toList
  | .ProgPerfEvent => "ProgPerfEvent".toList
  | .ProgCgroupSkb => "ProgCgroupSkb".toList
  | .ProgCgroupSock => "ProgCgroupSock".toList
  | .ProgLwtIn => "ProgLwtIn".toList
  | .ProgLwtOut => "ProgLwtOut".toList
  | .ProgLwtXmit => "ProgLwtXmit".toList
  | .ProgSchedCls => "ProgSchedCls".toList
  | .ProgSchedAct => "ProgSchedAct".toList
  | .ProgRawTracepoint => "ProgRawTracepoint".toList
  | .ProgFlowDissector => "ProgFlowDissector".toList

/-- The programme types of the sections that are known by how they start, in the order tried. -/
def sectionPrefixes : List (String × BpfProgType) :=
  [("kprobe/", .ProgKprobe), ("kretprobe/", .ProgKprobe),
    ("tracepoint/", .ProgTracepoint), ("tp/", .ProgTracepoint),
    ("raw_tracepoint/", .ProgRawTracepoint), ("raw_tp/", .ProgRawTracepoint),
    ("xdp", .ProgXDP),
    ("lsm/", .ProgSocketFilter),
    ("fentry/", .ProgSocketFilter), ("fexit/", .ProgSocketFilter),
    ("cgroup/", .ProgCgroupSkb),
    ("tc", .ProgSchedCls), ("classifier", .ProgSchedCls)]

/-- `section_to_prog_type`. -/
def sectionToProgType (name : String) : BpfProgType :=
  match name with
  | "socket_filter" | "socket" => .ProgSocketFilter
  | "xdp" => .ProgXDP
  | "kprobe" | "kretprobe" => .ProgKprobe
  | "tracepoint" | "tp" => .ProgTracepoint
  | "perf_event" => .ProgPerfEvent
  | "cgroup/skb" | "cgroup_skb" => .ProgCgroupSkb
  | "cgroup/sock" | "cgroup_sock" => .ProgCgroupSock
  | "lwt_in" => .ProgLwtIn
  | "lwt_out" => .ProgLwtOut
  | "lwt_xmit" => .ProgLwtXmit
  | "tc" | "classifier" | "sched_cls" => .ProgSchedCls
  | "action" | "sched_act" => .ProgSchedAct
  | "raw_tracepoint" | "raw_tp" => .ProgRawTracepoint
  | "flow_dissector" => .ProgFlowDissector
  | s => ((sectionPrefixes.find? fun r => r.1.toList <+: s.toList).map Prod.snd).getD
      .ProgSocketFilter

/-- The fields of a record on lines of their own. -/
def fieldsText : List Text → Text
  | [] => "\n".toList
  | field :: rest => "\n  ".toList ++ field ++ ';' :: fieldsText rest

/-- `emit_map_def`; every map is a hash map. -/
def emitMapDefText (map : MapDef) : Text :=
  "let".toList ++ ' ' :: (("map_".toList ++ map.name.toList) ++ " : ".toList ++
    ("map_def".toList ++ " =".toList ++ ' ' :: braced
      (fieldsText
        [fieldText "map_name" (quoted map.name.toList),
          fieldText "map_type" "MapHash".toList,
          fieldText "map_key_type" (emitCtypeText map.keyType),
          fieldText "map_val_type" (emitCtypeText map.valueType),
          fieldText "map_max_entries" (natText map.maxEntries)])))

/-- The type of a body. -/
def bodyTypeText (progType : BpfProgType) : Text :=
  Text.unwords ["stmt".toList, progTypeText progType, "[(\"ctx\", PtrToCtx 0)]".toList, "_".toList]

def progComment (prog : BpfProg) : Text :=
  "Programme: ".toList ++ prog.name.toList ++ " SEC(\"".toList ++ prog.sectionName.toList ++
    "\")".toList

/-- The definition of `emit_prog`. -/
def emitBodyText (prog : BpfProg) : Text :=
  "let".toList ++ ' ' :: (("body_".toList ++ prog.name.toList) ++ " : ".toList ++
    (bodyTypeText (sectionToProgType prog.sectionName) ++ " =".toList ++
      '\n' :: emitStmtsText 2 prog.body))

/-- The modules opened. -/
def openedModules : List Text :=
  ["BPF.AST.Types".toList, "BPF.AST.Expr".toList, "BPF.AST.Stmt".toList, "BPF.AST.Decl".toList,
    "BPF.VarCtx".toList, "BPF.ValClass".toList, "BPF.Helpers".toList]

def sourceComment (obj : BpfObject) : Text :=
  "Auto-generated by bpf2fstar from ".toList ++ obj.sourceFile.toList

/-- **`emit_module`**, as pieces with a line break after each. -/
def emitModuleText (obj : BpfObject) (moduleName : String) : Text :=
  Text.unlines
    ([commented (sourceComment obj), "module".toList ++ ' ' :: moduleName.toList, []] ++
      openedModules.map (fun m => "open".toList ++ ' ' :: m) ++ [[]] ++
      obj.maps.flatMap (fun map => [emitMapDefText map, []]) ++
      obj.progs.flatMap (fun prog => [commented (progComment prog), [], emitBodyText prog, []]))

end BpfVerifier.Ast
