import BpfVerifier.Bpf.Helpers
import BpfVerifier.Kverify.Tnum
import BpfVerifier.Machinery.AssocMap
import BpfVerifier.Machinery.Word
import Mathlib.Logic.Function.Basic

/-!
# Kverify/State — the verifier's abstract state

Register types and bounds, the register file, and the 512-byte stack with its spilled registers,
together with the two merges of the worklist: `widen` at loop heads and `isSubstateOf` for pruning.
`i64` and `u64` fields are words; their arithmetic wraps, as it does in a release build.
-/

namespace BpfVerifier

open Word

/-! ## Register types -/

/-- The type of value held in a register. -/
inductive RegType where
  /-- Not yet written; reading is an error. -/
  | uninit
  /-- A number, tracked by the bounds of its `RegState`. -/
  | scalar
  | framePtr (offset : BitVec 64)
  | mapValuePtr (id : ℕ) (offset : BitVec 64) (size : BitVec 32) (originPc : ℕ)
  | ctxPtr (offset : BitVec 64)
  | ringBufPtr (id : ℕ) (offset : BitVec 64) (size : BitVec 32) (originPc : ℕ)
  | kernelPtr
  | dataPtr (name : String)
  /-- A pointer not yet null-checked; registers sharing `id` hold the same one. -/
  | ptrOrNull (inner : RegType) (originPc : Option ℕ) (id : ℕ)
  | null
  deriving DecidableEq, Repr

namespace RegType

/-- Whether this type is some kind of valid pointer (not null, not scalar, not uninit). -/
def isPtr : RegType → Bool
  | framePtr _ | mapValuePtr .. | ctxPtr _ | ringBufPtr .. | kernelPtr | dataPtr _ => true
  | uninit | scalar | ptrOrNull .. | null => false

def isPtrOrNull : RegType → Bool
  | ptrOrNull .. => true
  | _ => false

def typeName : RegType → String
  | uninit => "uninit"
  | scalar => "scalar"
  | framePtr _ => "frame_ptr"
  | mapValuePtr .. => "map_value_ptr"
  | ctxPtr _ => "ctx_ptr"
  | ringBufPtr .. => "ringbuf_ptr"
  | kernelPtr => "kernel_ptr"
  | dataPtr _ => "data_ptr"
  | ptrOrNull .. => "ptr_or_null"
  | null => "null"

/-- `{x:+}`: a signed number with its sign. -/
def showSigned (x : BitVec 64) : String :=
  if 0 ≤ x.toInt then "+" ++ toString x.toInt else toString x.toInt

def display : RegType → String
  | uninit => "uninit"
  | scalar => "scalar"
  | framePtr offset => "fp" ++ showSigned offset
  | mapValuePtr id offset size _ =>
    s!"map_value(id={id}, off={offset.toInt}, size={size.toNat})"
  | ctxPtr offset => "ctx" ++ showSigned offset
  | ringBufPtr id offset size _ => s!"ringbuf(id={id}, off={offset.toInt}, size={size.toNat})"
  | kernelPtr => "kernel_ptr"
  | dataPtr name => s!"data_ptr({name})"
  | ptrOrNull inner _ _ => inner.display ++ "_or_null"
  | null => "null"

end RegType

/-! ## Register states -/

/-- Full state of a single register: type + scalar bounds. -/
structure RegState where
  regType : RegType
  tnum : Tnum
  smin : BitVec 64
  smax : BitVec 64
  umin : BitVec 64
  umax : BitVec 64
  /-- Instruction that last wrote this register (debug provenance). -/
  writtenAt : Option ℕ
  deriving DecidableEq, Repr

def I64_MIN : BitVec 64 := BitVec.intMin 64
def I64_MAX : BitVec 64 := BitVec.intMax 64
def U64_MAX : BitVec 64 := BitVec.allOnes 64

namespace RegState

/-- A register of the given type with no bounds known: `..RegState::scalar_unknown()`. -/
def unbounded (t : RegType) : RegState :=
  { regType := t, tnum := .unknown, smin := I64_MIN, smax := I64_MAX, umin := 0, umax := U64_MAX,
    writtenAt := none }

def uninit : RegState := unbounded .uninit

def scalarUnknown : RegState := unbounded .scalar

def scalarValue (v : BitVec 64) : RegState :=
  { regType := .scalar, tnum := .constant v, smin := v, smax := v, umin := v, umax := v,
    writtenAt := none }

def framePtr (offset : BitVec 64) : RegState := unbounded (.framePtr offset)

def ctxPtr (offset : BitVec 64) : RegState := unbounded (.ctxPtr offset)

def kernelPtr : RegState := unbounded .kernelPtr

def null : RegState :=
  { regType := .null, tnum := .constant 0, smin := 0, smax := 0, umin := 0, umax := 0,
    writtenAt := none }

/-- Step 1 of `refine_bounds`: tighten unsigned bounds from tnum. -/
def refineFromTnum (r : RegState) : RegState :=
  { r with umin := maxU r.umin r.tnum.minValue, umax := minU r.umax r.tnum.maxValue }

/-- Step 2: if the unsigned range collapses, tighten tnum. -/
def refineTnum (r : RegState) : RegState :=
  if r.umin = r.umax then { r with tnum := .constant r.umin } else r

/-- Step 3: tighten signed from unsigned (when the unsigned range doesn't straddle the signed
boundary). -/
def refineSigned (r : RegState) : RegState :=
  if r.umin.ule I64_MAX && r.umax.ule I64_MAX then
    { r with smin := maxS r.smin r.umin, smax := minS r.smax r.umax }
  else r

/-- Step 4: tighten unsigned from signed (when the signed range is entirely non-negative). -/
def refineUnsigned (r : RegState) : RegState :=
  if (0#64).sle r.smin then
    { r with umin := maxU r.umin r.smin, umax := minU r.umax r.smax }
  else r

/-- Step 5: final collapse check. -/
def refineCollapse (r : RegState) : RegState :=
  if r.umin = r.umax then
    { r with tnum := .constant r.umin, smin := r.umin, smax := r.umin }
  else r

/-- Tighten bounds bidirectionally after learning new information from tnum, unsigned bounds, or
signed bounds. -/
def refineBounds (r : RegState) : RegState :=
  r.refineFromTnum.refineTnum.refineSigned.refineUnsigned.refineCollapse

/-- Tightening bounds leaves the type alone. -/
@[simp] theorem regType_refineBounds (r : RegState) : r.refineBounds.regType = r.regType := by
  have hcollapse (r : RegState) : r.refineCollapse.regType = r.regType := by
    unfold refineCollapse
    split <;> rfl
  have hunsigned (r : RegState) : r.refineUnsigned.regType = r.regType := by
    unfold refineUnsigned
    split <;> rfl
  have hsigned (r : RegState) : r.refineSigned.regType = r.regType := by
    unfold refineSigned
    split <;> rfl
  have htnum (r : RegState) : r.refineTnum.regType = r.regType := by
    unfold refineTnum
    split <;> rfl
  rw [refineBounds, hcollapse, hunsigned, hsigned, htnum]
  rfl

/-- Whether we can read this register (not uninit). -/
def isReadable (r : RegState) : Bool := r.regType ≠ .uninit

/-- The state two scalars widen to, before its bounds are refined. -/
def widenScalar (self other : RegState) : RegState :=
  { regType := .scalar
    tnum :=
      { value := self.tnum.value &&& other.tnum.value
        mask := self.tnum.mask ||| other.tnum.mask ||| (self.tnum.value ^^^ other.tnum.value) }
    smin := minS self.smin other.smin
    smax := maxS self.smax other.smax
    umin := minU self.umin other.umin
    umax := maxU self.umax other.umax
    writtenAt := none }

/-- Widen two register states into a single state.  When types differ, keeps `self` (the
established loop head state). -/
def widen (self other : RegState) : RegState :=
  if self.regType ≠ other.regType then
    if self.regType = .uninit ∨ other.regType = .uninit then uninit else self
  else
    match self.regType with
    | .scalar => (self.widenScalar other).refineBounds
    -- the types are already known to be equal here
    | _ => if self.regType = other.regType then self else scalarUnknown

/-- Whether `self` is a substate of `other` (i.e. `other` is at least as general as `self`). -/
def isSubstateOf (self other : RegState) : Bool :=
  if self.regType = .uninit then other.regType = .uninit
  else if other.regType = .uninit then false
  else if self.regType ≠ other.regType then false
  else if self.regType = .scalar then
    other.umin.ule self.umin
      && self.umax.ule other.umax
      && other.smin.sle self.smin
      && self.smax.sle other.smax
      && self.tnum.mask &&& ~~~other.tnum.mask = 0
      && self.tnum.value &&& ~~~other.tnum.mask = other.tnum.value &&& ~~~other.tnum.mask
  else true

/-- A subsumed register is initialised wherever the subsuming one is. -/
theorem readable_of_isSubstateOf {a b : RegState} (h : a.isSubstateOf b = true)
    (hb : b.regType ≠ .uninit) : a.regType ≠ .uninit := by
  intro ha
  simp [isSubstateOf, ha, hb] at h

section Widen

variable {a b : RegState}

/-- Two scalars widen to the hull of both, refined. -/
theorem widen_of_scalar (ha : a.regType = .scalar) (hb : b.regType = .scalar) :
    a.widen b = (a.widenScalar b).refineBounds := by
  simp only [widen, ha, hb, ne_eq, not_true_eq_false, if_false]

/-- Registers of another one type widen to the first. -/
theorem widen_of_eq (ht : a.regType = b.regType) (ha : a.regType ≠ .scalar) : a.widen b = a := by
  unfold widen
  rw [if_neg (by simp [ht])]
  split
  · next hs => exact absurd hs ha
  · rw [if_pos ht]

/-- Registers of different types widen to the first, unless one is not initialised. -/
theorem widen_of_ne (ht : a.regType ≠ b.regType) :
    a.widen b = if a.regType = .uninit ∨ b.regType = .uninit then uninit else a := by
  unfold widen
  rw [if_pos ht]

/-- A widened register is initialised only if both sides are. -/
theorem readable_of_widen (h : (a.widen b).regType ≠ .uninit) :
    a.regType ≠ .uninit ∧ b.regType ≠ .uninit := by
  by_contra hnot
  have hor : a.regType = .uninit ∨ b.regType = .uninit := by
    by_contra hne
    exact hnot ⟨fun ha => hne (Or.inl ha), fun hb => hne (Or.inr hb)⟩
  by_cases heq : a.regType = b.regType
  · have ha : a.regType = .uninit := hor.elim id fun hb => heq.trans hb
    rw [widen_of_eq heq (by simp [ha])] at h
    exact h ha
  · rw [widen_of_ne heq, if_pos hor] at h
    exact h rfl

end Widen

/-- Set the provenance PC (where this register was last written). -/
def at_ (r : RegState) (pc : ℕ) : RegState := { r with writtenAt := some pc }

end RegState

/-! ## The register file -/

/-- The full verifier state at a programme point: all 11 registers. -/
structure VerifierState where
  regs : Reg → RegState

namespace VerifierState

/-- Initial state at programme entry: r1 = ctx, r10 = fp, rest uninit. -/
def entry : VerifierState :=
  ⟨fun
    | .r1 => .ctxPtr 0
    | .r10 => .framePtr 0
    | _ => .uninit⟩

def get (s : VerifierState) (r : Reg) : RegState := s.regs r

def set (s : VerifierState) (r : Reg) (v : RegState) : VerifierState :=
  ⟨Function.update s.regs r v⟩

/-- Set a register and record provenance (the PC that wrote it). -/
def setAt (s : VerifierState) (r : Reg) (v : RegState) (pc : ℕ) : VerifierState :=
  s.set r (v.at_ pc)

/-- Widen all registers. -/
def widen (self other : VerifierState) : VerifierState :=
  ⟨fun r => (self.regs r).widen (other.regs r)⟩

/-- Whether `self` is a substate of `other` for all registers. -/
def isSubstateOf (self other : VerifierState) : Bool :=
  Reg.all.all fun r => (self.regs r).isSubstateOf (other.regs r)

@[simp] theorem get_set_self (s : VerifierState) (r : Reg) (v : RegState) :
    (s.set r v).get r = v := by simp only [get, set, Function.update_self]

theorem get_set_of_ne (s : VerifierState) {r r' : Reg} (v : RegState) (h : r' ≠ r) :
    (s.set r v).get r' = s.get r' := by simp only [get, set, Function.update_of_ne h]

theorem get_set (s : VerifierState) (r r' : Reg) (v : RegState) :
    (s.set r v).get r' = if r' = r then v else s.get r' := Function.update_apply s.regs r v r'

theorem get_setAt (s : VerifierState) (r r' : Reg) (v : RegState) (pc : ℕ) :
    (s.setAt r v pc).get r' = if r' = r then v.at_ pc else s.get r' := get_set s r r' _

@[simp] theorem get_widen (s s' : VerifierState) (r : Reg) :
    (s.widen s').get r = (s.get r).widen (s'.get r) := rfl

theorem isSubstateOf_iff {s s' : VerifierState} :
    s.isSubstateOf s' = true ↔ ∀ r, (s.get r).isSubstateOf (s'.get r) = true := by
  simp only [isSubstateOf, List.all_eq_true, get]
  exact ⟨fun h r => h r (Reg.mem_all r), fun h r _ => h r⟩

end VerifierState

/-! ## The stack -/

/-- The 512-byte BPF stack, tracked per-byte for initialisation. -/
structure StackState where
  /-- Per-byte initialisation: true = written. -/
  init : Fin 512 → Bool
  /-- Spilled register info, keyed by the offset of the 8-byte spill. -/
  spills : AssocMap (BitVec 64) RegState

namespace StackState

def new : StackState := ⟨fun _ => false, .empty⟩

/-- Convert a frame-pointer-relative offset to a stack array index. -/
def toIndex (offset : BitVec 64) : Option (Fin 512) :=
  let idx := 512 + offset
  if (0#64).sle idx && idx.slt 512 then some (Fin.ofNat 512 idx.toNat) else none

def setInit (s : StackState) (idx : Fin 512) : StackState :=
  { s with init := Function.update s.init idx true }

/-- Mark bytes as initialised after a store. -/
def markWritten (s : StackState) (offset : BitVec 64) (width : ℕ) : StackState :=
  (List.range width).foldl
    (fun s i =>
      match toIndex (offset + BitVec.ofNat 64 i) with
      | some idx => s.setInit idx
      | none => s)
    s

/-- Check that all bytes in the range are initialised (for a load). -/
def checkReadable (s : StackState) (offset : BitVec 64) (width : ℕ) : Bool :=
  (List.range width).all fun i =>
    match toIndex (offset + BitVec.ofNat 64 i) with
    | some idx => s.init idx
    | none => false

/-- Check that the access is within the 512-byte stack. -/
def checkBounds (offset : BitVec 64) (width : ℕ) : Bool :=
  let start := 512 + offset
  let stop := start + BitVec.ofNat 64 width
  (0#64).sle start && stop.sle 512

/-- Spill a register to the stack (8-byte aligned store). -/
def spill (s : StackState) (offset : BitVec 64) (reg : RegState) : StackState :=
  let s := s.markWritten offset 8
  { s with spills := s.spills.insert offset reg }

/-- Retrieve a spilled register. -/
def getSpill (s : StackState) (offset : BitVec 64) : Option RegState := s.spills.get offset

/-- Clear a spill (e.g. when overwriting with a non-8-byte store). -/
def clearSpill (s : StackState) (offset : BitVec 64) : StackState :=
  { s with spills := s.spills.remove offset }

/-- Whether `self` is a substate of `other` for stack initialisation. -/
def isSubstateOf (self other : StackState) : Bool :=
  (List.finRange 512).all fun i => !(other.init i && !self.init i)

/-- Widen two stack states: a byte is initialised only if it's initialised in both; spills are
widened with the ones `other` has at the same offset, and kept where it has none. -/
def widen (self other : StackState) : StackState :=
  { init := fun i => self.init i && other.init i
    spills := self.spills.mapVal fun offset reg =>
      match other.spills.get offset with
      | some otherReg => reg.widen otherReg
      | none => reg }

@[simp] theorem getSpill_clearSpill (s : StackState) (o o' : BitVec 64) :
    (s.clearSpill o).getSpill o' = if o' = o then none else s.getSpill o' :=
  AssocMap.get_remove s.spills o o'

@[simp] theorem init_clearSpill (s : StackState) (o : BitVec 64) :
    (s.clearSpill o).init = s.init := rfl

theorem markWritten_succ (s : StackState) (o : BitVec 64) (width : ℕ) :
    s.markWritten o (width + 1)
      = match toIndex (o + BitVec.ofNat 64 width) with
        | some idx => (s.markWritten o width).setInit idx
        | none => s.markWritten o width := by
  simp only [markWritten, List.range_succ, List.foldl_append, List.foldl_cons, List.foldl_nil]

/-- Marking bytes leaves the spills alone. -/
@[simp] theorem spills_markWritten (s : StackState) (o : BitVec 64) :
    ∀ width, (s.markWritten o width).spills = s.spills
  | 0 => rfl
  | width + 1 => by
      rw [markWritten_succ]
      split
      · exact spills_markWritten s o width
      · exact spills_markWritten s o width

@[simp] theorem getSpill_markWritten (s : StackState) (o o' : BitVec 64) (width : ℕ) :
    (s.markWritten o width).getSpill o' = s.getSpill o' :=
  congrArg (fun m => m.get o') (spills_markWritten s o width)

@[simp] theorem getSpill_spill (s : StackState) (o o' : BitVec 64) (r : RegState) :
    (s.spill o r).getSpill o' = if o' = o then some r else s.getSpill o' := by
  simp only [spill, getSpill, spills_markWritten]
  exact AssocMap.get_insert s.spills o o' r

@[simp] theorem init_spill (s : StackState) (o : BitVec 64) (r : RegState) :
    (s.spill o r).init = (s.markWritten o 8).init := by simp only [spill]

/-- **The bytes marked are those of the range that lie in the frame.** -/
theorem init_markWritten (s : StackState) (o : BitVec 64) (j : Fin 512) :
    ∀ width, (s.markWritten o width).init j = true ↔
      s.init j = true ∨ ∃ i < width, toIndex (o + BitVec.ofNat 64 i) = some j
  | 0 => by simp [markWritten]
  | width + 1 => by
      rw [markWritten_succ]
      have ih := init_markWritten s o j width
      have hsucc : (∃ i < width + 1, toIndex (o + BitVec.ofNat 64 i) = some j) ↔
          (∃ i < width, toIndex (o + BitVec.ofNat 64 i) = some j)
            ∨ toIndex (o + BitVec.ofNat 64 width) = some j := by
        constructor
        · rintro ⟨i, hi, h⟩
          rcases Nat.lt_succ_iff_lt_or_eq.mp hi with hlt | rfl
          · exact Or.inl ⟨i, hlt, h⟩
          · exact Or.inr h
        · rintro (⟨i, hi, h⟩ | h)
          · exact ⟨i, by omega, h⟩
          · exact ⟨width, by omega, h⟩
      rw [hsucc, ← or_assoc, ← ih]
      cases hidx : toIndex (o + BitVec.ofNat 64 width) with
      | none => simp
      | some idx =>
        by_cases hj : j = idx
        · simp [setInit, hj]
        · simp [setInit, hj, Ne.symm hj]

theorem checkReadable_iff {s : StackState} {o : BitVec 64} {width : ℕ} :
    s.checkReadable o width = true ↔
      ∀ i < width, ∃ j, toIndex (o + BitVec.ofNat 64 i) = some j ∧ s.init j = true := by
  simp only [checkReadable, List.all_eq_true, List.mem_range]
  refine forall₂_congr fun i _ => ?_
  cases toIndex (o + BitVec.ofNat 64 i) <;> simp

theorem isSubstateOf_iff {s s' : StackState} :
    s.isSubstateOf s' = true ↔ ∀ i, s'.init i = true → s.init i = true := by
  simp only [isSubstateOf, List.all_eq_true, List.mem_finRange, true_implies]
  refine forall_congr' fun i => ?_
  cases s'.init i <;> cases s.init i <;> simp

theorem getSpill_widen (s s' : StackState) (o : BitVec 64) :
    (s.widen s').getSpill o = (s.getSpill o).map fun reg =>
      match s'.getSpill o with
      | some otherReg => reg.widen otherReg
      | none => reg := AssocMap.get_mapVal _ _ o

end StackState

end BpfVerifier
