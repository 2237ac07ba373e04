import BpfVerifier.FstarAst.VarCtx

/-!
# FstarAst/Helpers — `BPF.Helpers` of the typed AST, helpers as data

Each helper is a `HelperDesc`: its arguments, the class of its result, whether it acquires a
reference and the programme types that may call it.
-/

namespace BpfVerifier.FstarAst

/-- `return_effect`. -/
inductive ReturnEffect where
  | RetScalar (t : CType)
  /-- A pointer that must be checked for null. -/
  | RetNullablePtr (pointee : CType)
  | RetVoid

/-- `ref_effect`. -/
inductive RefEffect where
  | NoRef | AcquiresRef
  deriving DecidableEq, Repr

/-- `arg_effect`. -/
inductive ArgEffect where
  | ArgIn | ArgOut | ArgInOut
  deriving DecidableEq, Repr

/-- `helper_arg_desc`. -/
structure HelperArgDesc where
  argName : String
  argType : CType
  argEffect : ArgEffect

/-- `helper_availability`. -/
inductive HelperAvailability where
  | AvailUniversal
  | AvailTypes (types : List BpfProgType)
  deriving DecidableEq, Repr

/-- `helper_desc`. -/
structure HelperDesc where
  hName : String
  hArgs : List HelperArgDesc
  hReturn : ReturnEffect
  hRefEffect : RefEffect
  hAvailability : HelperAvailability

/-- `helper_available_for`. -/
def helperAvailableFor (h : HelperDesc) (pt : BpfProgType) : Bool :=
  match h.hAvailability with
  | .AvailUniversal => true
  | .AvailTypes pts => pt ∈ pts

/-- `helper_return_val_class`: the class of a call's result. -/
def helperReturnValClass (h : HelperDesc) (nextRefId : RefId) : ValClass :=
  match h.hReturn with
  | .RetScalar _ => scalarUnknown
  | .RetNullablePtr _ => .PtrToMapValueOrNull 0 nextRefId
  | .RetVoid => scalarConst 0 (Nat.zero_le _)

/-- `args_match_helper`: the number of arguments is right. -/
def argsMatchHelper : List HelperArgDesc → List CType → Bool
  | [], [] => true
  | _ :: _, [] => false
  | [], _ :: _ => false
  | _ :: es, _ :: as => argsMatchHelper es as

def mkArg (name : String) (t : CType) (eff : ArgEffect) : HelperArgDesc := ⟨name, t, eff⟩

/-! ## Helpers of all programme types -/

/-- Returns the value or null, to be checked. -/
def hMapLookupElem : HelperDesc :=
  ⟨"bpf_map_lookup_elem",
    [mkArg "map" cU64 .ArgIn, mkArg "key" (.CPtr .CVoid) .ArgIn],
    .RetNullablePtr .CVoid, .NoRef, .AvailUniversal⟩

def hMapUpdateElem : HelperDesc :=
  ⟨"bpf_map_update_elem",
    [mkArg "map" cU64 .ArgIn, mkArg "key" (.CPtr .CVoid) .ArgIn,
      mkArg "value" (.CPtr .CVoid) .ArgIn, mkArg "flags" cU64 .ArgIn],
    .RetScalar (.CInt .W32), .NoRef, .AvailUniversal⟩

def hMapDeleteElem : HelperDesc :=
  ⟨"bpf_map_delete_elem",
    [mkArg "map" cU64 .ArgIn, mkArg "key" (.CPtr .CVoid) .ArgIn],
    .RetScalar (.CInt .W32), .NoRef, .AvailUniversal⟩

def hGetCurrentPidTgid : HelperDesc :=
  ⟨"bpf_get_current_pid_tgid", [], .RetScalar cU64, .NoRef, .AvailUniversal⟩

def hGetCurrentUidGid : HelperDesc :=
  ⟨"bpf_get_current_uid_gid", [], .RetScalar cU64, .NoRef, .AvailUniversal⟩

def hGetCurrentComm : HelperDesc :=
  ⟨"bpf_get_current_comm",
    [mkArg "buf" (.CPtr .CVoid) .ArgOut, mkArg "size" cU32 .ArgIn],
    .RetScalar (.CInt .W32), .NoRef, .AvailUniversal⟩

def hKtimeGetNs : HelperDesc :=
  ⟨"bpf_ktime_get_ns", [], .RetScalar cU64, .NoRef, .AvailUniversal⟩

def hKtimeGetBootNs : HelperDesc :=
  ⟨"bpf_ktime_get_boot_ns", [], .RetScalar cU64, .NoRef, .AvailUniversal⟩

def hGetSmpProcessorId : HelperDesc :=
  ⟨"bpf_get_smp_processor_id", [], .RetScalar cU32, .NoRef, .AvailUniversal⟩

def hGetPrandomU32 : HelperDesc :=
  ⟨"bpf_get_prandom_u32", [], .RetScalar cU32, .NoRef, .AvailUniversal⟩

def probeReadTypes : List BpfProgType :=
  [.ProgKprobe, .ProgTracepoint, .ProgRawTracepoint, .ProgPerfEvent, .ProgSchedCls, .ProgSchedAct,
    .ProgSocketFilter, .ProgXDP]

def hProbeReadKernel : HelperDesc :=
  ⟨"bpf_probe_read_kernel",
    [mkArg "dst" (.CPtr .CVoid) .ArgOut, mkArg "size" cU32 .ArgIn, mkArg "src" cU64 .ArgIn],
    .RetScalar (.CInt .W32), .NoRef, .AvailTypes probeReadTypes⟩

def hProbeReadUser : HelperDesc :=
  ⟨"bpf_probe_read_user",
    [mkArg "dst" (.CPtr .CVoid) .ArgOut, mkArg "size" cU32 .ArgIn, mkArg "src" cU64 .ArgIn],
    .RetScalar (.CInt .W32), .NoRef, .AvailTypes probeReadTypes⟩

def hTracePrintk : HelperDesc :=
  ⟨"bpf_trace_printk",
    [mkArg "fmt" (.CPtr (.CUInt .W8)) .ArgIn, mkArg "fmt_size" cU32 .ArgIn],
    .RetScalar (.CInt .W32), .NoRef, .AvailUniversal⟩

def hGetCurrentTask : HelperDesc :=
  ⟨"bpf_get_current_task", [], .RetScalar cU64, .NoRef, .AvailUniversal⟩

/-- Returns only when it fails. -/
def hTailCall : HelperDesc :=
  ⟨"bpf_tail_call",
    [mkArg "ctx" (.CPtr .CVoid) .ArgIn, mkArg "prog_array" cU64 .ArgIn, mkArg "index" cU32 .ArgIn],
    .RetVoid, .NoRef, .AvailUniversal⟩

def hPerfEventOutput : HelperDesc :=
  ⟨"bpf_perf_event_output",
    [mkArg "ctx" (.CPtr .CVoid) .ArgIn, mkArg "map" cU64 .ArgIn, mkArg "flags" cU64 .ArgIn,
      mkArg "data" (.CPtr .CVoid) .ArgIn, mkArg "size" cU64 .ArgIn],
    .RetScalar (.CInt .W32), .NoRef, .AvailUniversal⟩

def hRingbufOutput : HelperDesc :=
  ⟨"bpf_ringbuf_output",
    [mkArg "ringbuf" cU64 .ArgIn, mkArg "data" (.CPtr .CVoid) .ArgIn, mkArg "size" cU64 .ArgIn,
      mkArg "flags" cU64 .ArgIn],
    .RetScalar (.CInt .W32), .NoRef, .AvailUniversal⟩

/-! ## Tracing helpers -/

def tracingTypes : List BpfProgType := [.ProgKprobe, .ProgTracepoint, .ProgRawTracepoint]

def hProbeRead : HelperDesc :=
  ⟨"bpf_probe_read",
    [mkArg "dst" (.CPtr .CVoid) .ArgOut, mkArg "size" cU32 .ArgIn, mkArg "src" cU64 .ArgIn],
    .RetScalar (.CInt .W32), .NoRef, .AvailTypes tracingTypes⟩

def hGetStack : HelperDesc :=
  ⟨"bpf_get_stack",
    [mkArg "ctx" (.CPtr .CVoid) .ArgIn, mkArg "buf" (.CPtr .CVoid) .ArgOut,
      mkArg "size" cU32 .ArgIn, mkArg "flags" cU64 .ArgIn],
    .RetScalar (.CInt .W32), .NoRef, .AvailTypes tracingTypes⟩

def hGetStackid : HelperDesc :=
  ⟨"bpf_get_stackid",
    [mkArg "ctx" (.CPtr .CVoid) .ArgIn, mkArg "map" cU64 .ArgIn, mkArg "flags" cU64 .ArgIn],
    .RetScalar (.CInt .W32), .NoRef, .AvailTypes tracingTypes⟩

/-! ## Networking helpers -/

def xdpTypes : List BpfProgType := [.ProgXDP]
def tcTypes : List BpfProgType := [.ProgSchedCls, .ProgSchedAct]
def xdpTcTypes : List BpfProgType := [.ProgXDP, .ProgSchedCls, .ProgSchedAct]
def skbReadTypes : List BpfProgType := [.ProgSchedCls, .ProgSchedAct, .ProgSocketFilter]

def hRedirect : HelperDesc :=
  ⟨"bpf_redirect",
    [mkArg "ifindex" cU32 .ArgIn, mkArg "flags" cU64 .ArgIn],
    .RetScalar (.CInt .W32), .NoRef, .AvailTypes xdpTcTypes⟩

def hRedirectMap : HelperDesc :=
  ⟨"bpf_redirect_map",
    [mkArg "map" cU64 .ArgIn, mkArg "key" cU64 .ArgIn, mkArg "flags" cU64 .ArgIn],
    .RetScalar (.CInt .W32), .NoRef, .AvailTypes xdpTypes⟩

def hXdpAdjustHead : HelperDesc :=
  ⟨"bpf_xdp_adjust_head",
    [mkArg "xdp_md" (.CPtr .CVoid) .ArgIn, mkArg "delta" (.CInt .W32) .ArgIn],
    .RetScalar (.CInt .W32), .NoRef, .AvailTypes xdpTypes⟩

def hXdpAdjustTail : HelperDesc :=
  ⟨"bpf_xdp_adjust_tail",
    [mkArg "xdp_md" (.CPtr .CVoid) .ArgIn, mkArg "delta" (.CInt .W32) .ArgIn],
    .RetScalar (.CInt .W32), .NoRef, .AvailTypes xdpTypes⟩

def hSkbLoadBytes : HelperDesc :=
  ⟨"bpf_skb_load_bytes",
    [mkArg "skb" (.CPtr .CVoid) .ArgIn, mkArg "offset" cU32 .ArgIn,
      mkArg "to" (.CPtr .CVoid) .ArgOut, mkArg "len" cU32 .ArgIn],
    .RetScalar (.CInt .W32), .NoRef, .AvailTypes skbReadTypes⟩

def hSkbStoreBytes : HelperDesc :=
  ⟨"bpf_skb_store_bytes",
    [mkArg "skb" (.CPtr .CVoid) .ArgIn, mkArg "offset" cU32 .ArgIn,
      mkArg "from" (.CPtr .CVoid) .ArgIn, mkArg "len" cU32 .ArgIn, mkArg "flags" cU64 .ArgIn],
    .RetScalar (.CInt .W32), .NoRef, .AvailTypes tcTypes⟩

def hFibLookup : HelperDesc :=
  ⟨"bpf_fib_lookup",
    [mkArg "ctx" (.CPtr .CVoid) .ArgIn, mkArg "params" (.CPtr .CVoid) .ArgInOut,
      mkArg "plen" (.CInt .W32) .ArgIn, mkArg "flags" cU32 .ArgIn],
    .RetScalar (.CInt .W32), .NoRef, .AvailTypes xdpTcTypes⟩

def hCsumDiff : HelperDesc :=
  ⟨"bpf_csum_diff",
    [mkArg "from" (.CPtr cU32) .ArgIn, mkArg "from_size" cU32 .ArgIn,
      mkArg "to" (.CPtr cU32) .ArgIn, mkArg "to_size" cU32 .ArgIn, mkArg "seed" cU32 .ArgIn],
    .RetScalar (.CInt .W32), .NoRef, .AvailTypes xdpTcTypes⟩

/-! ## Socket helpers -/

/-- Returns a socket or null, with a reference that must be released. -/
def hSkLookupTcp : HelperDesc :=
  ⟨"bpf_sk_lookup_tcp",
    [mkArg "ctx" (.CPtr .CVoid) .ArgIn, mkArg "tuple" (.CPtr .CVoid) .ArgIn,
      mkArg "tuple_size" cU32 .ArgIn, mkArg "netns" cU64 .ArgIn, mkArg "flags" cU64 .ArgIn],
    .RetNullablePtr .CVoid, .AcquiresRef, .AvailTypes xdpTcTypes⟩

def hSkLookupUdp : HelperDesc :=
  ⟨"bpf_sk_lookup_udp",
    [mkArg "ctx" (.CPtr .CVoid) .ArgIn, mkArg "tuple" (.CPtr .CVoid) .ArgIn,
      mkArg "tuple_size" cU32 .ArgIn, mkArg "netns" cU64 .ArgIn, mkArg "flags" cU64 .ArgIn],
    .RetNullablePtr .CVoid, .AcquiresRef, .AvailTypes xdpTcTypes⟩

/-- Releases a socket. -/
def hSkRelease : HelperDesc :=
  ⟨"bpf_sk_release",
    [mkArg "sk" (.CPtr .CVoid) .ArgIn],
    .RetScalar (.CInt .W32), .NoRef, .AvailTypes xdpTcTypes⟩

/-! ## Loops -/

def hBpfLoop : HelperDesc :=
  ⟨"bpf_loop",
    [mkArg "nr_loops" cU32 .ArgIn, mkArg "callback_fn" cU64 .ArgIn,
      mkArg "callback_ctx" (.CPtr .CVoid) .ArgInOut, mkArg "flags" cU32 .ArgIn],
    .RetScalar (.CInt .W32), .NoRef, .AvailUniversal⟩

/-! ## Registry -/

/-- `all_helpers`. -/
def allHelpers : List HelperDesc :=
  [hMapLookupElem, hMapUpdateElem, hMapDeleteElem, hGetCurrentPidTgid, hGetCurrentUidGid,
    hGetCurrentComm, hKtimeGetNs, hKtimeGetBootNs, hGetSmpProcessorId, hGetPrandomU32,
    hProbeReadKernel, hProbeReadUser, hTracePrintk, hGetCurrentTask, hTailCall, hPerfEventOutput,
    hRingbufOutput, hBpfLoop, hProbeRead, hGetStack, hGetStackid, hRedirect, hRedirectMap,
    hXdpAdjustHead, hXdpAdjustTail, hSkbLoadBytes, hSkbStoreBytes, hFibLookup, hCsumDiff,
    hSkLookupTcp, hSkLookupUdp, hSkRelease]

/-- `lookup_helper`. -/
def lookupHelper (name : String) : Option HelperDesc := allHelpers.find? fun h => h.hName = name

/-- A helper is found under its own name only. -/
theorem hName_of_lookupHelper {name : String} {h : HelperDesc}
    (hfind : lookupHelper name = some h) : h.hName = name ∧ h ∈ allHelpers :=
  ⟨by simpa using List.find?_some hfind, List.mem_of_find?_eq_some hfind⟩

end BpfVerifier.FstarAst
