import BpfVerifier.Ast.EmitText

/-!
# Ast/ReadText — what the text of an emitted module means

The terms of the text are taken for the constructors they apply: `exprOf` and `stmtOf` for those of
`BPF.AST.Expr` and `BPF.AST.Stmt`, `declOf` for the definitions.  A unit stands for a proof.
-/

namespace BpfVerifier.Ast

open FstarAst Terms

/-! ## Names and numbers -/

def strOf : Term → Option String
  | .str s => some (String.ofList s)
  | _ => none

def natOf : Term → Option ℕ
  | .word w => Reader.readAll Reader.nat w
  | _ => none

def intOf : Term → Option ℤ
  | .word w => Reader.readAll Reader.int w
  | _ => none

/-- One of some names. -/
def nameOf {α : Type} (names : List (Text × α)) : Term → Option α
  | .word w => Reader.oneOf names w
  | _ => none

def bools : List (Text × Bool) := [true, false].map fun b => (boolText b, b)

def widths : List (Text × IntWidth) :=
  [IntWidth.W8, .W16, .W32, .W64].map fun w => (widthText w, w)

def binops : List (Text × Binop) :=
  [BinOp.Add, .Sub, .Mul, .Div, .Mod, .BitAnd, .BitOr, .BitXor, .ShiftL, .ShiftR, .Eq, .Ne, .Lt,
    .Le, .Gt, .Ge, .LAnd, .LOr].map fun op => (op.text, op.emit)

def unaryops : List (Text × Unaryop) :=
  [UnaryOp.Neg, .BitNot, .LNot].map fun op => (op.text, op.emit)

def progTypes : List (Text × BpfProgType) :=
  [BpfProgType.ProgSocketFilter, .ProgXDP, .ProgKprobe, .ProgTracepoint, .ProgPerfEvent,
    .ProgCgroupSkb, .ProgCgroupSock, .ProgLwtIn, .ProgLwtOut, .ProgLwtXmit, .ProgSchedCls,
    .ProgSchedAct, .ProgRawTracepoint, .ProgFlowDissector].map fun t => (progTypeText t, t)

/-- The helpers of `BPF.Helpers` under their names there. -/
def helperDescs : List (Text × HelperDesc) :=
  [("h_map_lookup_elem".toList, hMapLookupElem),
    ("h_map_update_elem".toList, hMapUpdateElem),
    ("h_map_delete_elem".toList, hMapDeleteElem),
    ("h_get_current_pid_tgid".toList, hGetCurrentPidTgid),
    ("h_get_current_uid_gid".toList, hGetCurrentUidGid),
    ("h_get_current_comm".toList, hGetCurrentComm),
    ("h_ktime_get_ns".toList, hKtimeGetNs),
    ("h_ktime_get_boot_ns".toList, hKtimeGetBootNs),
    ("h_get_smp_processor_id".toList, hGetSmpProcessorId),
    ("h_get_prandom_u32".toList, hGetPrandomU32),
    ("h_probe_read_kernel".toList, hProbeReadKernel),
    ("h_probe_read_user".toList, hProbeReadUser),
    ("h_probe_read".toList, hProbeRead),
    ("h_trace_printk".toList, hTracePrintk),
    ("h_get_current_task".toList, hGetCurrentTask),
    ("h_tail_call".toList, hTailCall),
    ("h_perf_event_output".toList, hPerfEventOutput),
    ("h_ringbuf_output".toList, hRingbufOutput),
    ("h_redirect".toList, hRedirect),
    ("h_redirect_map".toList, hRedirectMap),
    ("h_xdp_adjust_head".toList, hXdpAdjustHead),
    ("h_xdp_adjust_tail".toList, hXdpAdjustTail),
    ("h_skb_load_bytes".toList, hSkbLoadBytes),
    ("h_skb_store_bytes".toList, hSkbStoreBytes),
    ("h_fib_lookup".toList, hFibLookup),
    ("h_csum_diff".toList, hCsumDiff),
    ("h_sk_lookup_tcp".toList, hSkLookupTcp),
    ("h_sk_lookup_udp".toList, hSkLookupUdp),
    ("h_sk_release".toList, hSkRelease),
    ("h_bpf_loop".toList, hBpfLoop),
    ("h_get_stack".toList, hGetStack),
    ("h_get_stackid".toList, hGetStackid)]

/-! ## Types and classes -/

mutual

/-- The constructors of `c_type`. -/
def ctypeOf : Term → Option CType
  | .word w =>
    if w = "CBool".toList then some .CBool
    else if w = "CVoid".toList then some .CVoid
    else none
  | .app (.word c) a =>
    if c = "CInt".toList then (nameOf widths a).map .CInt
    else if c = "CUInt".toList then (nameOf widths a).map .CUInt
    else if c = "CPtr".toList then (ctypeOf a).map .CPtr
    else if c = "CPtr_or_null".toList then (ctypeOf a).map .CPtrOrNull
    else if c = "CStruct".toList then (structOf a).map .CStruct
    else none
  | .app (.app (.word c) a) n =>
    if c = "CArray".toList then do some (.CArray (← ctypeOf a) (← natOf n)) else none
  | _ => none

/-- A record of `struct_def`. -/
def structOf : Term → Option StructDef
  | .record (.cons (.field l name) (.cons (.field l' fields) .nil)) =>
    if l = "struct_name".toList ∧ l' = "fields".toList then do
      some (.mk (← strOf name) (← fieldsOf fields))
    else none
  | _ => none

def fieldsOf : Term → Option (List (String × CType))
  | .nil => some []
  | .cons (.pair name t) rest => do some ((← strOf name, ← ctypeOf t) :: (← fieldsOf rest))
  | _ => none

end

def ctypesOf : Term → Option (List CType)
  | .nil => some []
  | .cons t rest => do some ((← ctypeOf t) :: (← ctypesOf rest))
  | _ => none

/-- The classes that are emitted. -/
def valClassOf : Term → Option ValClass
  | .word w => if w = "scalar_unknown".toList then some scalarUnknown else none
  | .app (.word c) n =>
    if c = "PtrToSocketOrNull".toList then (natOf n).map .PtrToSocketOrNull else none
  | .app (.app (.word c) n) m =>
    if c = "PtrToMapValueOrNull".toList then do
      some (.PtrToMapValueOrNull (← natOf n) (← natOf m))
    else none
  | _ => none

/-! ## Expressions and statements -/

/-- **The constructors of `expr`.** -/
def exprOf : Term → Option FExpr
  | .unit => some .Unit
  | .app (.word c) a =>
    if c = "BoolLit".toList then (nameOf bools a).map .BoolLit
    else if c = "Deref".toList then (exprOf a).map .Deref
    else if c = "AddrOf".toList then (exprOf a).map .AddrOf
    else none
  | .app (.app (.word c) a) b =>
    if c = "IntLit".toList then do some (.IntLit (← intOf a) (← nameOf widths b))
    else if c = "UIntLit".toList then do some (.UIntLit (← natOf a) (← nameOf widths b))
    else if c = "FieldAccess".toList then do some (.FieldAccess (← exprOf a) (← strOf b))
    else if c = "Cast".toList then do some (.Cast (← ctypeOf a) (← exprOf b))
    else none
  | .app (.app (.app (.word c) op) a) .unit =>
    if c = "UnaryOp".toList then do some (.UnaryOp (← nameOf unaryops op) (← exprOf a)) else none
  | .app (.app (.app (.app (.word c) a) b) d) .unit =>
    if c = "BinOp".toList then do some (.BinOp (← nameOf binops a) (← exprOf b) (← exprOf d))
    else if c = "VarRef".toList ∧ d = .unit then do some (.VarRef (← strOf a) (← ctypeOf b))
    else none
  | _ => none

/-- **The constructors of `stmt`.** -/
def stmtOf : Term → Option FStmt
  | .word w => if w = "Nop".toList then some .Nop else none
  | .app (.app (.word c) a) b =>
    if c = "Seq".toList then do some (.Seq (← stmtOf a) (← stmtOf b))
    else if c = "Declare".toList then do some (.Declare (← strOf a) (← ctypeOf b))
    else if c = "Return".toList ∧ b = .unit then (exprOf a).map .Return
    else none
  | .app (.app (.app (.word c) a) b) d =>
    if c = "Assign".toList then do some (.Assign (← strOf a) (← exprOf b) (← valClassOf d))
    else if c = "If".toList then do some (.If (← exprOf a) (← stmtOf b) (← stmtOf d))
    else none
  | .app (.app (.app (.app (.app (.word c) a) h) args) .unit) vc =>
    if c = "CallAssign".toList then do
      some (.CallAssign (← strOf a) (← nameOf helperDescs h) (← ctypesOf args) (← valClassOf vc))
    else none
  | .app (.app (.app (.app (.app (.app (.app (.word c) a) .unit) .unit) .unit) .unit) t) e =>
    if c = "IfNull".toList then do some (.IfNull (← strOf a) (← stmtOf t) (← stmtOf e)) else none
  | _ => none

/-- **The statement of a text.** -/
def readStmt (s : Text) : Option FStmt := (read s).bind stmtOf

/-! ## Definitions -/

/-- `map_def`, whose `map_type` is `MapHash`. -/
structure FMapDef where
  mapName : String
  mapKeyType : CType
  mapValType : CType
  mapMaxEntries : ℕ

/-- A declaration of an emitted module. -/
inductive FDecl where
  | module (name : String)
  | opens (name : String)
  | map (ident : String) (definition : FMapDef)
  /-- A body, from a context that holds the parameter. -/
  | body (ident : String) (progType : BpfProgType) (stmt : FStmt)

/-- A record of `map_def`. -/
def mapDefOf : Term → Option FMapDef
  | .record (.cons (.field l name) (.cons (.field l' type) (.cons (.field l₁ key)
      (.cons (.field l₂ val) (.cons (.field l₃ entries) .nil))))) =>
    if l = "map_name".toList ∧ l' = "map_type".toList ∧ type = .word "MapHash".toList ∧
        l₁ = "map_key_type".toList ∧ l₂ = "map_val_type".toList ∧
        l₃ = "map_max_entries".toList then do
      some ⟨← strOf name, ← ctypeOf key, ← ctypeOf val, ← natOf entries⟩
    else none
  | _ => none

/-- `[("ctx", PtrToCtx 0)]`. -/
def initialCtxTerm : Term :=
  .list [.pair (.str "ctx".toList) (.app (.word "PtrToCtx".toList) (.word "0".toList))]

/-- The programme type of a body. -/
def bodyTypeOf : Term → Option BpfProgType
  | .app (.app (.app (.word c) t) ctx) (.word hole) =>
    if c = "stmt".toList ∧ ctx = initialCtxTerm ∧ hole = "_".toList then nameOf progTypes t
    else none
  | _ => none

/-- **What a declaration declares.** -/
def declOf : Decl → Option FDecl
  | (keyword, [.word name]) =>
    if keyword = "module".toList then some (.module (String.ofList name))
    else if keyword = "open".toList then some (.opens (String.ofList name))
    else none
  | (keyword, [.word name, type, value]) =>
    if keyword = "let".toList then
      if type = .word "map_def".toList then (mapDefOf value).map (.map (String.ofList name))
      else do some (.body (String.ofList name) (← bodyTypeOf type) (← stmtOf value))
    else none
  | _ => none

/-- **The declarations of a module text.** -/
def readObject (s : Text) : Option (List FDecl) := (readModule s).bind fun ds => ds.mapM declOf

/-- **What `emit_module` declares.** -/
def emitObject (obj : BpfObject) (moduleName : String) : List FDecl :=
  .module moduleName :: openedModules.map (fun m => .opens (String.ofList m)) ++
    obj.maps.map (fun map => .map ("map_" ++ map.name)
      ⟨map.name, map.keyType, map.valueType, map.maxEntries⟩) ++
    obj.progs.map (fun prog => .body ("body_" ++ prog.name) (sectionToProgType prog.sectionName)
      (emitStmts prog.body))

end BpfVerifier.Ast
