import BpfVerifier.Concrete.Machine
import BpfVerifier.Soundness.Invariant

/-!
# Soundness/Describes — the machine states a verifier state describes

A typed pointer names its object and offset exactly; registers and spills sharing the id of a
nullable pointer hold one value (`ρ id`), null or the pointer; a tracked spill is what an 8-byte
load at its offset reads; an initialised byte has been written.  `sized pc size reserved` is what
the size recorded in a reservation made at `pc` says about the bytes reserved.
-/

namespace BpfVerifier

variable (L : Layout) (sized : ℕ → BitVec 32 → BitVec 64 → Prop)

/-- The values of a register type. -/
def TypeHolds (ρ : ℕ → Val) : RegType → Val → Prop
  | .uninit, _ | .scalar, _ => True
  | .framePtr o, v => v = ⟨L.frameTop + o, .frame⟩
  | .ctxPtr o, v => v = ⟨L.ctxBase + o, .ctx⟩
  | .mapValuePtr _ o size _, v =>
    size = DEFAULT_MAP_VALUE_SIZE ∧ ∃ call, v = ⟨L.mapBase call + o, .mapValue call⟩
  | .ringBufPtr _ o size pc, v =>
    ∃ call reserved, v = ⟨L.ringBase call + o, .ringBuf call pc reserved⟩ ∧ sized pc size reserved
  | .kernelPtr, v => v.prov = .number ∨ v.prov = .kernel
  | .dataPtr name, v => v.prov = .data name
  | .ptrOrNull inner _ id, v => v = ρ id ∧ (v.IsNull ∨ v.bits ≠ 0 ∧ TypeHolds ρ inner v)
  | .null, v => v.IsNull

/-- The values of a register state. -/
structure RegHolds (ρ : ℕ → Val) (r : RegState) (v : Val) : Prop where
  type : TypeHolds L sized ρ r.regType v
  bounds : r.regType = .scalar → r.Bounds v.bits

/-- The machine states a verifier state describes, with the values of the nullable pointers. -/
structure DescribesWith (ρ : ℕ → Val) (state : VerifierState) (stack : StackState)
    (s : MState) : Prop where
  regs : ∀ r, RegHolds L sized ρ (state.get r) (s.regs r)
  spills : ∀ o r, stack.getSpill o = some r → RegHolds L sized ρ r (readFrame s.frame o .dw)
  init : ∀ o i, StackState.toIndex o = some i → stack.init i = true → s.written o = true

/-- The machine states a verifier state describes. -/
def Describes (state : VerifierState) (stack : StackState) (s : MState) : Prop :=
  ∃ ρ, DescribesWith L sized ρ state stack s

/-- The values of a pointer type: an object, and an offset in it where the type tracks one. -/
inductive PointsTo : RegType → Val → Prop
  | frame (o : BitVec 64) : PointsTo (.framePtr o) ⟨L.base .frame + o, .frame⟩
  | ctx (o : BitVec 64) : PointsTo (.ctxPtr o) ⟨L.base .ctx + o, .ctx⟩
  | mapValue (id pc call : ℕ) (o : BitVec 64) :
      PointsTo (.mapValuePtr id o DEFAULT_MAP_VALUE_SIZE pc)
        ⟨L.base (.mapValue call) + o, .mapValue call⟩
  | ringBuf (id pc call : ℕ) (o : BitVec 64) {size : BitVec 32} {reserved : BitVec 64} :
      sized pc size reserved →
      PointsTo (.ringBufPtr id o size pc)
        ⟨L.base (.ringBuf call pc reserved) + o, .ringBuf call pc reserved⟩
  | kernel {v : Val} : v.prov = .number ∨ v.prov = .kernel → PointsTo .kernelPtr v
  | data (name : String) (bits : BitVec 64) : PointsTo (.dataPtr name) ⟨bits, .data name⟩

variable {L sized} {ρ : ℕ → Val} {state : VerifierState} {stack : StackState} {s : MState}
  {r : RegState} {v : Val} {n : ℕ}

/-! ## Registers -/

theorem Val.IsNull.bits_eq (h : v.IsNull) : v.bits = 0 := by
  obtain ⟨call, rfl⟩ := h
  rfl

/-- Null is not a pointer. -/
theorem Val.IsNull.isPtr_eq (h : v.IsNull) : v.isPtr = false := by
  obtain ⟨call, rfl⟩ := h
  rfl

/-- **The bounds of any well-formed register allow its values.** -/
theorem RegHolds.allows (h : RegHolds L sized ρ r v) (hwf : r.Wf n) : r.Bounds v.bits := by
  by_cases hs : r.regType = .scalar
  · exact h.bounds hs
  · by_cases hn : r.regType = .null
    · have hnull := h.type
      rw [hn] at hnull
      rw [Val.IsNull.bits_eq hnull]
      exact hwf.zero hs
    · exact hwf.any hs hn _

/-- A register that is not a scalar holds the values of its type. -/
theorem RegHolds.of_type (hs : r.regType ≠ .scalar) (ht : TypeHolds L sized ρ r.regType v) :
    RegHolds L sized ρ r v := ⟨ht, fun h => absurd h hs⟩

/-- A scalar holds the words its bounds allow. -/
theorem RegHolds.of_bounds (hs : r.regType = .scalar) (hb : r.Bounds v.bits) :
    RegHolds L sized ρ r v where
  type := by
    rw [hs]
    trivial
  bounds _ := hb

theorem regHolds_uninit : RegHolds L sized ρ .uninit v := .of_type (by decide) trivial

theorem regHolds_scalarUnknown : RegHolds L sized ρ .scalarUnknown v :=
  .of_bounds rfl (RegState.bounds_unbounded .scalar v.bits)

theorem regHolds_kernelPtr (h : v.prov = .number ∨ v.prov = .kernel) :
    RegHolds L sized ρ .kernelPtr v := .of_type (by decide) h

theorem RegHolds.at (h : RegHolds L sized ρ r v) (pc : ℕ) : RegHolds L sized ρ (r.at_ pc) v where
  type := h.type
  bounds hs := ⟨(h.bounds hs).tnum, (h.bounds hs).umin, (h.bounds hs).umax, (h.bounds hs).signed⟩

/-- An unbounded register holds the values of its type. -/
theorem regHolds_unbounded {t : RegType} (ht : TypeHolds L sized ρ t v) :
    RegHolds L sized ρ (.unbounded t) v where
  type := ht
  bounds _ := RegState.bounds_unbounded t v.bits

/-- **A value of a pointer type points to its object.** -/
theorem TypeHolds.pointsTo {t : RegType} (h : TypeHolds L sized ρ t v) (ht : t.isPtr = true) :
    PointsTo L sized t v := by
  cases t with
  | framePtr o =>
    obtain rfl : v = _ := h
    exact .frame o
  | ctxPtr o =>
    obtain rfl : v = _ := h
    exact .ctx o
  | mapValuePtr id o size pc =>
    obtain ⟨rfl, call, rfl⟩ := h
    exact .mapValue id pc call o
  | ringBufPtr id o size pc =>
    obtain ⟨call, reserved, rfl, hsize⟩ := h
    exact .ringBuf id pc call o hsize
  | kernelPtr => exact .kernel h
  | dataPtr name =>
    obtain ⟨bits, prov⟩ := v
    obtain rfl : prov = .data name := h
    exact .data name bits
  | _ => cases ht

/-- Only the ids a type names matter. -/
theorem TypeHolds.congr {ρ' : ℕ → Val} (hρ : ∀ id < n, ρ' id = ρ id) {t : RegType}
    (hids : t.IdsBelow n) (h : TypeHolds L sized ρ t v) : TypeHolds L sized ρ' t v := by
  cases t with
  | ptrOrNull inner pc id =>
    refine ⟨h.1.trans (hρ id hids.1).symm, h.2.imp_right fun hv => ⟨hv.1, ?_⟩⟩
    -- a helper's result names no id
    have hresult := hids.2
    cases inner with
    | mapValuePtr _ _ _ _ => exact hv.2
    | ringBufPtr _ _ _ _ => exact hv.2
    | _ => cases hresult
  | _ => exact h

/-! ## States -/

/-- Extending the values of nullable pointers beyond the ids in use. -/
theorem DescribesWith.congr {ρ' : ℕ → Val} (h : DescribesWith L sized ρ state stack s)
    (hwf : StateWf n state stack) (hρ : ∀ id < n, ρ' id = ρ id) :
    DescribesWith L sized ρ' state stack s where
  regs r := ⟨(h.regs r).type.congr hρ (hwf.regs r).ids, (h.regs r).bounds⟩
  spills o r hr :=
    ⟨(h.spills o r hr).type.congr hρ (hwf.spills o r hr).ids, (h.spills o r hr).bounds⟩
  init := h.init

/-- Moving on changes nothing that is described. -/
theorem DescribesWith.withPc (h : DescribesWith L sized ρ state stack s) (pc : ℕ) :
    DescribesWith L sized ρ state stack { s with pc := pc } := ⟨h.regs, h.spills, h.init⟩

/-- **Writing a described value to a register.** -/
theorem DescribesWith.set (h : DescribesWith L sized ρ state stack s) (dst : Reg)
    (hv : RegHolds L sized ρ r v) :
    DescribesWith L sized ρ (state.set dst r) stack (s.advance dst v) where
  regs q := by
    rw [VerifierState.get_set, MState.regs_advance]
    split
    · exact hv
    · exact h.regs q
  spills := h.spills
  init := h.init

theorem DescribesWith.setAt (h : DescribesWith L sized ρ state stack s) (dst : Reg)
    (hv : RegHolds L sized ρ r v) (pc : ℕ) :
    DescribesWith L sized ρ (state.setAt dst r pc) stack (s.advance dst v) := h.set dst (hv.at pc)

/-- **Entry is described by the verifier's entry state.** -/
theorem MState.Entry.describes (h : s.Entry L) : Describes L sized .entry .new s := by
  refine ⟨fun _ => .number 0, ⟨fun r => ?_, fun o r hr => ?_, fun o i _ hi => ?_⟩⟩
  · cases r with
    | r1 =>
      refine .of_type (by decide) ?_
      change s.regs .r1 = ⟨L.ctxBase + 0, .ctx⟩
      simp [h.r1_eq]
    | r10 =>
      refine .of_type (by decide) ?_
      change s.regs .r10 = ⟨L.frameTop + 0, .frame⟩
      simp [h.r10_eq]
    | _ => exact regHolds_uninit
  · simp [StackState.getSpill, StackState.new] at hr
  · simp [StackState.new] at hi

end BpfVerifier
