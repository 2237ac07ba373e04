import BpfVerifier.Kverify.State

/-!
# Kverify/Branch — refinement on the two edges of a conditional jump

`refineBranch` takes the states of the taken and the fallthrough edge and narrows both by what the
comparison says: a null test resolves every register and spill holding that nullable pointer, a
comparison with a known value narrows the bounds of a scalar.
-/

namespace BpfVerifier

open Word

/-- The states of the two edges of a conditional jump. -/
structure Branches where
  taken : VerifierState
  takenStack : StackState
  fall : VerifierState
  fallStack : StackState

/-! ## Null tests -/

/-- What refining a `PtrOrNull` with the given id does to one register or spill. -/
def refineWithId (ptrId : ℕ) (newType : RegType) (r : RegState) : RegState :=
  match r.regType with
  | .ptrOrNull _ _ id =>
    if id = ptrId then
      if newType = .null then .null else { r with regType := newType }
    else r
  | _ => r

/-- Refine all registers that hold a PtrOrNull with the given id. -/
def refineAllWithId (state : VerifierState) (ptrId : ℕ) (newType : RegType) : VerifierState :=
  ⟨fun r => refineWithId ptrId newType (state.regs r)⟩

/-- Refine all stack spills that hold a PtrOrNull with the given id. -/
def refineSpillsWithId (stack : StackState) (ptrId : ℕ) (newType : RegType) : StackState :=
  { stack with spills := stack.spills.mapVal fun _ r => refineWithId ptrId newType r }

@[simp] theorem get_refineAllWithId (s : VerifierState) (ptrId : ℕ) (newType : RegType)
    (r : Reg) : (refineAllWithId s ptrId newType).get r = refineWithId ptrId newType (s.get r) :=
  rfl

@[simp] theorem getSpill_refineSpillsWithId (k : StackState) (ptrId : ℕ) (newType : RegType)
    (o : BitVec 64) : (refineSpillsWithId k ptrId newType).getSpill o
      = (k.getSpill o).map (refineWithId ptrId newType) :=
  AssocMap.get_mapVal _ _ o

@[simp] theorem init_refineSpillsWithId (k : StackState) (ptrId : ℕ) (newType : RegType) :
    (refineSpillsWithId k ptrId newType).init = k.init := rfl

/-! ## 64-bit comparisons -/

/-- `val.count_ones()`. -/
def countOnes (val : BitVec 64) : ℕ := (List.range 64).countP fun i => val.getLsbD i

/-- Scalar refinement for a 64-bit branch comparison: the new states of the tested register on the
taken and the fallthrough edge. -/
def refineScalar64 (ts fs : RegState) (op : JmpOp) (val : BitVec 64) : RegState × RegState :=
  match op with
  | .jeq => (.scalarValue val, fs)
  | .jne => (ts, .scalarValue val)
  | .jgt =>
    ({ ts with umin := maxU ts.umin (succU val) }.refineBounds,
      { fs with umax := minU fs.umax val }.refineBounds)
  | .jge =>
    ({ ts with umin := maxU ts.umin val }.refineBounds,
      { fs with umax := minU fs.umax (predU val) }.refineBounds)
  | .jlt =>
    ({ ts with umax := minU ts.umax (predU val) }.refineBounds,
      { fs with umin := maxU fs.umin val }.refineBounds)
  | .jle =>
    ({ ts with umax := minU ts.umax val }.refineBounds,
      { fs with umin := maxU fs.umin (succU val) }.refineBounds)
  | .jsgt =>
    ({ ts with smin := maxS ts.smin (succS val) }.refineBounds,
      { fs with smax := minS fs.smax val }.refineBounds)
  | .jsge =>
    ({ ts with smin := maxS ts.smin val }.refineBounds,
      { fs with smax := minS fs.smax (predS val) }.refineBounds)
  | .jslt =>
    ({ ts with smax := minS ts.smax (predS val) }.refineBounds,
      { fs with smin := maxS fs.smin val }.refineBounds)
  | .jsle =>
    ({ ts with smax := minS ts.smax val }.refineBounds,
      { fs with smin := maxS fs.smin (succS val) }.refineBounds)
  | .jset =>
    -- fallthrough: all bits in `val` are zero; taken: a single tested bit is set
    let fsTnum : Tnum := ⟨fs.tnum.value &&& ~~~val, fs.tnum.mask &&& ~~~val⟩
    let fs' := { fs with
      tnum := fsTnum
      umax := minU fs.umax fsTnum.maxValue
      umin := maxU fs.umin fsTnum.minValue }
    let tsTnum : Tnum := ⟨ts.tnum.value ||| val, ts.tnum.mask &&& ~~~val⟩
    let ts' := { ts with
      tnum := tsTnum
      umin := maxU ts.umin tsTnum.minValue
      umax := minU ts.umax tsTnum.maxValue }
    (if countOnes val = 1 then ts'.refineBounds else ts, fs'.refineBounds)
  | .ja => (ts, fs)

/-! ## 32-bit comparisons -/

def U32_MAX : BitVec 64 := 0xFFFFFFFF

/-- Clamp 64-bit unsigned bounds so the low 32 bits fall within [lo, hi], where the range is within
the 32-bit domain already. -/
def clampU32Bounds (state : RegState) (lo hi : BitVec 64) : RegState :=
  if state.umax.ule U32_MAX then
    { state with umin := maxU state.umin lo, umax := minU state.umax hi }
  else state

/-- Raise the unsigned lower bound of a value in the 32-bit domain. -/
def clampU32BoundsMin (state : RegState) (lo : BitVec 64) : RegState :=
  if state.umax.ule U32_MAX then { state with umin := maxU state.umin lo } else state

/-- Lower the unsigned upper bound of a value in the 32-bit domain. -/
def clampU32BoundsMax (state : RegState) (hi : BitVec 64) : RegState :=
  if state.umax.ule U32_MAX then { state with umax := minU state.umax hi } else state

/-- Raise the signed lower bound of a value in the 32-bit domain. -/
def clampS32Min (state : RegState) (lo : BitVec 64) : RegState :=
  if state.umax.ule U32_MAX then { state with smin := maxS state.smin lo }.refineBounds else state

/-- Lower the signed upper bound of a value in the 32-bit domain. -/
def clampS32Max (state : RegState) (hi : BitVec 64) : RegState :=
  if state.umax.ule U32_MAX then { state with smax := minS state.smax hi }.refineBounds else state

/-- The low 32 bits become the given constant. -/
def pinLow32 (state : RegState) (val32 : BitVec 64) : RegState :=
  let tnum : Tnum := ⟨(state.tnum.value &&& ~~~U32_MAX) ||| val32, state.tnum.mask &&& ~~~U32_MAX⟩
  (clampU32Bounds { state with tnum := tnum } val32 val32).refineBounds

/-- Scalar refinement for a 32-bit branch comparison. -/
def refineScalar32 (ts fs : RegState) (op : JmpOp) (val : BitVec 64) : RegState × RegState :=
  let val32 := val &&& U32_MAX
  let sval := (val32.setWidth 32).signExtend 64
  match op with
  | .jeq => (pinLow32 ts val32, fs)
  | .jne => (ts, pinLow32 fs val32)
  | .jgt =>
    ((clampU32BoundsMin ts (succU val32)).refineBounds, (clampU32BoundsMax fs val32).refineBounds)
  | .jge =>
    ((clampU32BoundsMin ts val32).refineBounds, (clampU32BoundsMax fs (predU val32)).refineBounds)
  | .jlt =>
    ((clampU32BoundsMax ts (predU val32)).refineBounds, (clampU32BoundsMin fs val32).refineBounds)
  | .jle =>
    ((clampU32BoundsMax ts val32).refineBounds, (clampU32BoundsMin fs (succU val32)).refineBounds)
  | .jsgt => (clampS32Min ts (succS sval), clampS32Max fs sval)
  | .jsge => (clampS32Min ts sval, clampS32Max fs (predS sval))
  | .jslt => (clampS32Max ts (predS sval), clampS32Min fs sval)
  | .jsle => (clampS32Max ts sval, clampS32Min fs (succS sval))
  | .jset =>
    let fsTnum : Tnum := ⟨fs.tnum.value &&& ~~~val32, fs.tnum.mask &&& ~~~val32⟩
    let fs' := { fs with tnum := fsTnum }
    let fs' :=
      if fs'.umax.ule U32_MAX then
        { fs' with umax := minU fs'.umax fsTnum.maxValue, umin := maxU fs'.umin fsTnum.minValue }
      else fs'
    let tsTnum : Tnum := ⟨ts.tnum.value ||| val32, ts.tnum.mask &&& ~~~val32⟩
    let ts' := { ts with tnum := tsTnum }
    let ts' :=
      if ts'.umax.ule U32_MAX then
        { ts' with umin := maxU ts'.umin tsTnum.minValue, umax := minU ts'.umax tsTnum.maxValue }
      else ts'
    (if countOnes val32 = 1 then ts'.refineBounds else ts, fs'.refineBounds)
  | .ja => (ts, fs)

/-! ## The two edges -/

/-- The comparison value of a conditional jump, when the verifier knows it. -/
def cmpVal (fall : VerifierState) (insn : BpfInsn) (src : Source) (is32 : Bool) :
    Option (BitVec 64) :=
  match src with
  | .imm => some (insn.immOf (!is32))
  | .reg => (fall.get insn.src).tnum.knownValue

/-- Resolve a nullable pointer on both edges of a null test. -/
def refineNull (b : Branches) (op : JmpOp) (inner : RegType) (ptrId : ℕ) : Branches :=
  match op with
  | .jeq =>
    { taken := refineAllWithId b.taken ptrId .null
      takenStack := refineSpillsWithId b.takenStack ptrId .null
      fall := refineAllWithId b.fall ptrId inner
      fallStack := refineSpillsWithId b.fallStack ptrId inner }
  | .jne =>
    { taken := refineAllWithId b.taken ptrId inner
      takenStack := refineSpillsWithId b.takenStack ptrId inner
      fall := refineAllWithId b.fall ptrId .null
      fallStack := refineSpillsWithId b.fallStack ptrId .null }
  | _ => b

/-- Narrow a scalar on both edges of a comparison with a known value. -/
def refineScalar (b : Branches) (dst : Reg) (op : JmpOp) (val : BitVec 64) (is32 : Bool) :
    Branches :=
  let (ts, fs) :=
    if is32 then refineScalar32 (b.taken.get dst) (b.fall.get dst) op val
    else refineScalar64 (b.taken.get dst) (b.fall.get dst) op val
  { b with taken := b.taken.set dst ts, fall := b.fall.set dst fs }

/-- Refine register types on branch taken/fallthrough paths. -/
def refineBranch (b : Branches) (insn : BpfInsn) (op : JmpOp) (src : Source) (is32 : Bool) :
    Branches :=
  match cmpVal b.fall insn src is32, (b.fall.get insn.dst).regType with
  | some val, .ptrOrNull inner _ ptrId => if val = 0 then refineNull b op inner ptrId else b
  | some val, .scalar => refineScalar b insn.dst op val is32
  | _, _ => b

/-! ## Refinement leaves written registers written -/

theorem readable_of_refineWithId {ptrId : ℕ} {newType : RegType} {r : RegState}
    (h : (refineWithId ptrId newType r).regType ≠ .uninit) : r.regType ≠ .uninit := by
  intro hr
  exact h (by simp [refineWithId, hr])

/-- A register written on either edge was written before the branch. -/
theorem readable_of_refineBranch {state : VerifierState} {stack : StackState} {insn : BpfInsn}
    {op : JmpOp} {src : Source} {is32 : Bool} {r : Reg}
    (h : ((refineBranch ⟨state, stack, state, stack⟩ insn op src is32).taken.get r).regType
          ≠ .uninit ∨
        ((refineBranch ⟨state, stack, state, stack⟩ insn op src is32).fall.get r).regType
          ≠ .uninit) :
    (state.get r).regType ≠ .uninit := by
  unfold refineBranch at h
  split at h
  · split at h
    · unfold refineNull at h
      split at h
      · exact h.elim readable_of_refineWithId readable_of_refineWithId
      · exact h.elim readable_of_refineWithId readable_of_refineWithId
      · exact h.elim id id
    · exact h.elim id id
  · next hscalar =>
    -- only the tested register moves, and it is a scalar
    by_cases hr : r = insn.dst
    · rw [hr]
      intro huninit
      have := hscalar.symm.trans huninit
      cases this
    · simp only [refineScalar, VerifierState.get_set_of_ne _ _ hr] at h
      exact h.elim id id
  · exact h.elim id id

end BpfVerifier
