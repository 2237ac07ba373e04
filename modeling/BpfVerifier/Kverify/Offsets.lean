import BpfVerifier.Kverify.Coverage

/-!
# Kverify/Offsets — the i64 arithmetic on pointer offsets

The verifier tracks offsets as `i64` and computes on them with `+` and `-`, which panic on overflow
in a debug build and wrap in a release build; the transfer functions are those of a release build.
`Visit.offsetArith` lists, for one processed instruction, the exact results of these operations on
the operands they are computed from.  `Visit.OffsetsFit` bounds the operands instead, and says when
none of the results leaves the range (`forall_offsetArith_iff`).
-/

namespace BpfVerifier

/-- The range of an `i64`. -/
def InI64 (z : ℤ) : Prop := -2 ^ 63 ≤ z ∧ z < 2 ^ 63

instance (z : ℤ) : Decidable (InI64 z) := inferInstanceAs (Decidable (_ ∧ _))

/-- The offset a pointer type tracks. -/
def RegType.offset : RegType → Option (BitVec 64)
  | framePtr o | ctxPtr o | mapValuePtr _ o _ _ | ringBufPtr _ o _ _ => some o
  | _ => none

/-! ## What is computed -/

/-- `to_index(offset + i)`, for every byte `i` that is looked at. -/
def indexArith (offset : BitVec 64) (bytes : List ℕ) : List ℤ :=
  bytes.flatMap fun (i : ℕ) => [offset.toInt + i, 512 + (offset + BitVec.ofNat 64 i).toInt]

/-- `mark_written` -/
def markArith (offset : BitVec 64) (width : ℕ) : List ℤ := indexArith offset (List.range width)

/-- `check_readable`, which stops at the first byte that is not. -/
def readArith (stack : StackState) (offset : BitVec 64) (width : ℕ) : List ℤ :=
  indexArith offset ((List.range width).filter fun i => stack.checkReadable offset i)

/-- `check_bounds` -/
def boundsArith (offset : BitVec 64) (width : ℕ) : List ℤ :=
  [512 + offset.toInt, (512 + offset).toInt + width]

/-- The bounds check of a load or store, and what follows it in the frame. -/
def accessArith (base : RegState) (off : BitVec 64) (width : ℕ)
    (frame : BitVec 64 → List ℤ) : List ℤ :=
  match base.regType with
  | .framePtr o =>
    (o.toInt + off.toInt) :: boundsArith (o + off) width
      ++ if StackState.checkBounds (o + off) width then frame (o + off) else []
  | .mapValuePtr _ o _ _ | .ctxPtr o | .ringBufPtr _ o _ _ =>
    (o.toInt + off.toInt) :: if (o + off).slt 0 then [] else [(o + off).toInt + width]
  | _ => []

/-- `check_load` -/
def loadArith (state : VerifierState) (stack : StackState) (insn : BpfInsn) (width : MemWidth) :
    List ℤ :=
  accessArith (state.get insn.src) insn.off (widthBytes width) fun effOff =>
    readArith stack effOff (widthBytes width)

/-- `check_store`; a pointer that leaks is reported first. -/
def storeArith (state : VerifierState) (insn : BpfInsn) (width : MemWidth)
    (val : Option RegState) : List ℤ :=
  if val.any fun v => storeLeak (state.get insn.dst).regType v.regType then []
  else
    accessArith (state.get insn.dst) insn.off (widthBytes width) fun effOff =>
      markArith effOff (widthBytes width)

/-- The helper memory write of `check_call`, once the arguments are accepted. -/
def writeArith (state : VerifierState) (helper : HelperSpec) : List ℤ :=
  match (state.get .r1).regType with
  | .framePtr dstOff =>
    if writesArg1 helper then
      let size := writeSize (state.get .r2)
      markArith dstOff size ++ if size = 8 ∧ isKernelRead helper then markArith dstOff 8 else []
    else []
  | _ => []

/-- The pointer an ALU instruction moves, and the amount if it is known: `ptr ± scalar`, or
`scalar + ptr`. -/
def movedBy (dst operand : RegState) (op : AluOp) : Option (RegType × BitVec 64) :=
  if dst.regType.isPtr then
    if (op = .add ∨ op = .sub) ∧ !operand.regType.isPtr then
      operand.tnum.knownValue.map fun v => (dst.regType, v)
    else none
  else if op = .add ∧ operand.regType.isPtr then
    dst.tnum.knownValue.map fun v => (operand.regType, v)
  else none

/-- `offset + delta` -/
def shiftArith (t : RegType) (delta : BitVec 64) : List ℤ :=
  (t.offset.map fun o => o.toInt + delta.toInt).toList

/-- `check_alu` -/
def aluArith (dst operand : RegState) (op : AluOp) : List ℤ :=
  match movedBy dst operand op with
  | some (t, v) => if op = .sub then -v.toInt :: shiftArith t (-v) else shiftArith t v
  | none => []

/-- The registers an instruction reads pass. -/
def readable (state : VerifierState) (regs : List Reg) : Bool :=
  regs.all fun r => r = .r10 || (state.get r).isReadable

/-- **The exact results of the `i64` operations on offsets** in processing one instruction. -/
def Visit.offsetArith (p : Program) (v : Visit) : List ℤ :=
  match v.insn.opcode with
  | .alu64 op src =>
    if readable v.state (aluReads v.insn op src) then
      aluArith (v.state.get v.insn.dst) (aluSrcState v.state v.insn src true) op
    else []
  | .alu32 op src =>
    if readable v.state (aluReads v.insn op src) then
      aluArith (v.state.get v.insn.dst) (aluSrcState v.state v.insn src false) op
    else []
  | .ldx width =>
    if readable v.state [v.insn.src] then loadArith v.state v.stack v.insn width else []
  | .stx width =>
    if readable v.state [v.insn.dst, v.insn.src] then
      storeArith v.state v.insn width (some (v.state.get v.insn.src))
    else []
  | .st width =>
    if readable v.state [v.insn.dst] then storeArith v.state v.insn width none else []
  | .call =>
    match getHelper v.insn.imm with
    | some helper =>
      if (checkArgs v.state v.pc (p.loc v.pc) helper).isNone then writeArith v.state helper else []
    | none => []
  | _ => []

/-- **No offset arithmetic of the programme's walk overflows.** -/
def Program.OffsetsInRange (p : Program) : Prop :=
  ∀ v, p.Visits v → ∀ z ∈ v.offsetArith p, InI64 z

/-! ## When it fits -/

/-- A bound on an offset and the amount added to it. -/
def ShiftFits (t : RegType) (delta : ℤ) : Prop := ∀ o, t.offset = some o → InI64 (o.toInt + delta)

/-- The second operand is subtracted, so the least `i64` cannot be. -/
def AluFits (dst operand : RegState) (op : AluOp) : Prop :=
  ∀ t v, movedBy dst operand op = some (t, v) →
    if op = .sub then v ≠ I64_MIN ∧ ShiftFits t (-v.toInt) else ShiftFits t v.toInt

/-- The accessed range ends in the `i64` range; in the frame, counted from its bottom. -/
def AccessFits (base : RegState) (off : BitVec 64) (width : ℕ) : Prop :=
  ∀ o, base.regType.offset = some o → -2 ^ 63 ≤ o.toInt + off.toInt ∧
    o.toInt + off.toInt + width < if base.regType = .framePtr o then 2 ^ 63 - 512 else 2 ^ 63

/-- The buffer of a helper ends in the `i64` range, counted from the bottom of the frame. -/
def WriteFits (state : VerifierState) (helper : HelperSpec) : Prop :=
  ∀ o, (state.get .r1).regType = .framePtr o → writesArg1 helper = true →
    0 < writeSize (state.get .r2) → o.toInt + writeSize (state.get .r2) ≤ 2 ^ 63 - 512

/-- **The offsets and amounts an instruction meets stay clear of the ends of the `i64` range.** -/
def Visit.OffsetsFit (p : Program) (v : Visit) : Prop :=
  match v.insn.opcode with
  | .alu64 op src =>
    readable v.state (aluReads v.insn op src) = true →
      AluFits (v.state.get v.insn.dst) (aluSrcState v.state v.insn src true) op
  | .alu32 op src =>
    readable v.state (aluReads v.insn op src) = true →
      AluFits (v.state.get v.insn.dst) (aluSrcState v.state v.insn src false) op
  | .ldx width =>
    readable v.state [v.insn.src] = true →
      AccessFits (v.state.get v.insn.src) v.insn.off (widthBytes width)
  | .stx width =>
    readable v.state [v.insn.dst, v.insn.src] = true →
      storeLeak (v.state.get v.insn.dst).regType (v.state.get v.insn.src).regType = false →
      AccessFits (v.state.get v.insn.dst) v.insn.off (widthBytes width)
  | .st width =>
    readable v.state [v.insn.dst] = true →
      AccessFits (v.state.get v.insn.dst) v.insn.off (widthBytes width)
  | .call =>
    ∀ helper, getHelper v.insn.imm = some helper →
      (checkArgs v.state v.pc (p.loc v.pc) helper).isNone = true → WriteFits v.state helper
  | _ => True

section

variable {dst operand base : RegState} {op : AluOp} {t : RegType} {o off : BitVec 64} {width : ℕ}
  {state : VerifierState} {helper : HelperSpec}

theorem forall_mem_indexArith {bytes : List ℕ} {P : ℤ → Prop} :
    (∀ z ∈ indexArith o bytes, P z) ↔
      ∀ i ∈ bytes, P (o.toInt + i) ∧ P (512 + (o + BitVec.ofNat 64 i).toInt) := by
  simp only [indexArith, List.mem_flatMap, forall_exists_index, and_imp]
  rw [forall_comm]
  refine forall_congr' fun i => ?_
  rw [forall_comm]
  exact imp_congr_right fun _ => by simp

/-- Bytes that lie below the end of the range are looked at without overflow. -/
theorem inI64_indexArith {bytes : List ℕ} (hb : ∀ i ∈ bytes, o.toInt + i < 2 ^ 63 - 512) :
    ∀ z ∈ indexArith o bytes, InI64 z := by
  refine forall_mem_indexArith.mpr fun i hi => ?_
  have hlt := hb i hi
  have hlo := BitVec.le_toInt (x := o)
  have hsum : (o + BitVec.ofNat 64 i).toInt = o.toInt + i := Word.toInt_add_ofNat (by omega)
  rw [hsum]
  exact ⟨⟨by omega, by omega⟩, by omega, by omega⟩

theorem forall_markArith_iff {size : ℕ} : (∀ z ∈ markArith o size, InI64 z) ↔
    (0 < size → o.toInt + size ≤ 2 ^ 63 - 512) := by
  constructor
  · intro h hpos
    -- the last byte is the furthest
    obtain ⟨h₁, h₂⟩ := forall_mem_indexArith.mp h (size - 1) (List.mem_range.mpr (by omega))
    have hsum : (o + BitVec.ofNat 64 (size - 1)).toInt = o.toInt + (size - 1 : ℕ) :=
      Word.toInt_add_ofNat h₁.2
    rw [hsum] at h₂
    have := h₂.2
    omega
  · intro h
    refine inI64_indexArith fun i hi => ?_
    have hlt := List.mem_range.mp hi
    have := h (by omega)
    omega

theorem forall_shiftArith_iff {delta : BitVec 64} :
    (∀ z ∈ shiftArith t delta, InI64 z) ↔ ShiftFits t delta.toInt := by
  cases h : t.offset <;> simp [shiftArith, ShiftFits, h]

/-- Negating any word but the least is exact. -/
theorem inI64_neg_iff {v : BitVec 64} : InI64 (-v.toInt) ↔ v ≠ I64_MIN := by
  have hlo := BitVec.le_toInt (x := v)
  have hhi := BitVec.toInt_lt (x := v)
  have hmin : I64_MIN.toInt = -2 ^ 63 := by decide
  rw [ne_eq, ← BitVec.toInt_inj, hmin, InI64]
  omega

theorem toInt_neg_of_ne {v : BitVec 64} (h : v ≠ I64_MIN) : (-v).toInt = -v.toInt := by
  obtain ⟨hlo, hhi⟩ := inI64_neg_iff.mpr h
  rw [BitVec.toInt_neg, Int.bmod_eq_of_le (by omega) (by omega)]

theorem forall_aluArith_iff :
    (∀ z ∈ aluArith dst operand op, InI64 z) ↔ AluFits dst operand op := by
  unfold aluArith AluFits
  cases h : movedBy dst operand op with
  | none => simp
  | some tv =>
    obtain ⟨t, v⟩ := tv
    have hsame : (∀ t' v', some (t, v) = some (t', v') →
        if op = .sub then v' ≠ I64_MIN ∧ ShiftFits t' (-v'.toInt) else ShiftFits t' v'.toInt) ↔
        if op = .sub then v ≠ I64_MIN ∧ ShiftFits t (-v.toInt) else ShiftFits t v.toInt := by
      constructor
      · exact fun hall => hall t v rfl
      · rintro hfits t' v' heq
        obtain ⟨rfl, rfl⟩ := Prod.mk.inj (Option.some.inj heq)
        exact hfits
    rw [hsame]
    dsimp only
    split
    · rw [List.forall_mem_cons, forall_shiftArith_iff, inI64_neg_iff]
      exact and_congr_right fun hne => by rw [toInt_neg_of_ne hne]
    · exact forall_shiftArith_iff

/-- The bounds check of the frame overflows at its far end only. -/
theorem forall_boundsArith_iff {x : BitVec 64} : (∀ z ∈ boundsArith x width, InI64 z) ↔
    x.toInt + width < 2 ^ 63 - 512 := by
  have hlo := BitVec.le_toInt (x := x)
  have h512 : (512 : BitVec 64).toInt = 512 := by decide
  simp only [boundsArith, List.forall_mem_cons, List.not_mem_nil, false_imp_iff, implies_true,
    and_true]
  constructor
  · rintro ⟨⟨h₁, h₂⟩, -, h₃⟩
    rw [Word.toInt_add_of_bounds (by omega) (by omega), h512] at h₃
    omega
  · intro h
    rw [Word.toInt_add_of_bounds (by omega) (by omega), h512]
    exact ⟨⟨by omega, by omega⟩, by omega, by omega⟩

/-- A bounds check that does not overflow finds an access in the frame. -/
theorem le_of_checkBounds {x : BitVec 64} (hx : x.toInt + width < 2 ^ 63 - 512)
    (hc : StackState.checkBounds x width = true) : x.toInt + width ≤ 0 := by
  have hlo := BitVec.le_toInt (x := x)
  have h512 : (512 : BitVec 64).toInt = 512 := by decide
  have hstart : (512 + x).toInt = 512 + x.toInt := by
    rw [Word.toInt_add_of_bounds (by omega) (by omega), h512]
  have hstop : (512 + x + BitVec.ofNat 64 width).toInt = (512 + x).toInt + width :=
    Word.toInt_add_ofNat (by omega)
  simp only [StackState.checkBounds, Bool.and_eq_true, BitVec.sle_eq_decide, decide_eq_true_eq,
    hstop, hstart, h512] at hc
  omega

/-- The bounds check of a sized object overflows at the far end, or where the offset does. -/
theorem forall_regionArith_iff (hwidth : width ≤ 8) :
    (∀ z ∈ (o.toInt + off.toInt) :: if (o + off).slt 0 then [] else [(o + off).toInt + (width : ℤ)],
        InI64 z) ↔
      -2 ^ 63 ≤ o.toInt + off.toInt ∧ o.toInt + off.toInt + width < 2 ^ 63 := by
  rw [List.forall_mem_cons]
  have hzero : (0 : BitVec 64).toInt = 0 := by decide
  constructor
  · rintro ⟨⟨h₁, h₂⟩, h₃⟩
    have hsum := Word.toInt_add_of_bounds h₁ h₂
    refine ⟨h₁, ?_⟩
    split at h₃
    · next hneg =>
      rw [BitVec.slt_eq_decide, decide_eq_true_eq, hsum, hzero] at hneg
      omega
    · have := (h₃ _ List.mem_cons_self).2
      omega
  · rintro ⟨h₁, h₂⟩
    have hsum := Word.toInt_add_of_bounds h₁ (by omega)
    refine ⟨⟨h₁, by omega⟩, fun z hz => ?_⟩
    split at hz
    · cases hz
    · obtain rfl := List.mem_singleton.mp hz
      exact ⟨by omega, by omega⟩

theorem forall_accessArith_iff {frame : BitVec 64 → List ℤ} (hwidth : width ≤ 8)
    (hframe : ∀ x : BitVec 64, x.toInt + width ≤ 0 → ∀ z ∈ frame x, InI64 z) :
    (∀ z ∈ accessArith base off width frame, InI64 z) ↔ AccessFits base off width := by
  unfold accessArith AccessFits
  cases base.regType with
  | framePtr o =>
    simp only [RegType.offset, Option.some.injEq, forall_eq', if_true, List.cons_append,
      List.forall_mem_cons, List.forall_mem_append, forall_boundsArith_iff]
    constructor
    · rintro ⟨⟨h₁, h₂⟩, h₃, -⟩
      rw [Word.toInt_add_of_bounds h₁ h₂] at h₃
      exact ⟨h₁, h₃⟩
    · rintro ⟨h₁, h₂⟩
      have hsum := Word.toInt_add_of_bounds h₁ (by omega)
      refine ⟨⟨h₁, by omega⟩, hsum ▸ h₂, fun z hz => ?_⟩
      split at hz
      · next hc => exact hframe _ (le_of_checkBounds (hsum ▸ h₂) hc) z hz
      · cases hz
  | mapValuePtr _ o _ _ | ctxPtr o | ringBufPtr _ o _ _ =>
    simpa [RegType.offset] using forall_regionArith_iff hwidth
  | _ => simp [RegType.offset]

theorem forall_loadArith_iff {stack : StackState} {insn : BpfInsn} {width : MemWidth} :
    (∀ z ∈ loadArith state stack insn width, InI64 z) ↔
      AccessFits (state.get insn.src) insn.off (widthBytes width) := by
  refine forall_accessArith_iff (widthBytes_le width) fun x hx => inI64_indexArith fun i hi => ?_
  have hlt := List.mem_range.mp (List.mem_filter.mp hi).1
  omega

theorem forall_storeArith_iff {insn : BpfInsn} {width : MemWidth} {val : Option RegState} :
    (∀ z ∈ storeArith state insn width val, InI64 z) ↔
      ((val.any fun v => storeLeak (state.get insn.dst).regType v.regType) = false →
        AccessFits (state.get insn.dst) insn.off (widthBytes width)) := by
  unfold storeArith
  split
  · next hleak => simp [hleak]
  · next hleak =>
    rw [forall_accessArith_iff (widthBytes_le width) fun x hx =>
      forall_markArith_iff.mpr fun _ => by omega]
    exact ⟨fun h _ => h, fun h => h (Bool.eq_false_iff.mpr hleak)⟩

theorem forall_writeArith_iff :
    (∀ z ∈ writeArith state helper, InI64 z) ↔ WriteFits state helper := by
  unfold writeArith WriteFits
  cases (state.get .r1).regType with
  | framePtr o =>
    simp only [RegType.framePtr.injEq, forall_eq']
    split
    · next hw =>
      rw [List.forall_mem_append, forall_markArith_iff]
      refine ⟨fun h _ => h.1, fun h => ⟨h hw, fun z hz => ?_⟩⟩
      split at hz
      · next h8 =>
        -- a spill marks the same bytes again
        refine forall_markArith_iff.mpr (fun _ => ?_) z hz
        have := h hw (by omega)
        omega
      · cases hz
    · next hw => simp [hw]
  | _ => simp

/-- **One instruction computes without overflow exactly when its operands fit.** -/
theorem forall_offsetArith_iff (p : Program) (v : Visit) :
    (∀ z ∈ v.offsetArith p, InI64 z) ↔ v.OffsetsFit p := by
  have hguard {c : Bool} {l : List ℤ} {Q : Prop} (h : (∀ z ∈ l, InI64 z) ↔ Q) :
      (∀ z ∈ (if c then l else []), InI64 z) ↔ (c = true → Q) := by
    cases c <;> simp [h]
  unfold Visit.offsetArith Visit.OffsetsFit
  cases v.insn.opcode with
  | alu64 op src => exact hguard forall_aluArith_iff
  | alu32 op src => exact hguard forall_aluArith_iff
  | ldx width => exact hguard forall_loadArith_iff
  | stx width => exact hguard forall_storeArith_iff
  | st width =>
    refine hguard (forall_storeArith_iff.trans ?_)
    simp
  | call =>
    cases hget : getHelper v.insn.imm with
    | none => simp
    | some helper =>
      refine (hguard forall_writeArith_iff).trans ?_
      simp
  | _ => simp

/-- **The walk computes without overflow exactly when the operands of every visit fit.** -/
theorem Program.offsetsInRange_iff (p : Program) :
    p.OffsetsInRange ↔ ∀ v, p.Visits v → v.OffsetsFit p :=
  forall₂_congr fun v _ => forall_offsetArith_iff p v

end

end BpfVerifier
