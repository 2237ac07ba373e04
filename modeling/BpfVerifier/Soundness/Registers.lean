import BpfVerifier.Soundness.Describes
import BpfVerifier.Soundness.Precise

/-!
# Soundness/Registers — ALU instructions, LD_IMM64 and branches

What the machine leaves in a register is described by what the verifier leaves there, for every
instruction that touches registers only.  An addition or subtraction moves the right object as long
as the operand the verifier takes for a number is one (`addend`); a null test resolves every
register and spill that shares the tested id.
-/

namespace BpfVerifier

variable {p : Program} {L : Layout} {sized : ℕ → BitVec 32 → BitVec 64 → Prop} {ρ : ℕ → Val}
  {state : VerifierState} {stack : StackState} {s s' : MState} {n : ℕ} {insn : BpfInsn}

/-! ## Operands -/

/-- The second operand is described by what the verifier tracks for it. -/
theorem DescribesWith.operand (h : DescribesWith L sized ρ state stack s) (insn : BpfInsn)
    (src : Source) (is64 : Bool) :
    RegHolds L sized ρ (aluSrcState state insn src is64) (s.operand insn src is64) := by
  cases src with
  | imm => exact .of_bounds rfl (RegState.bounds_scalarValue _)
  | reg => exact h.regs insn.src

theorem StateWf.operand (h : StateWf n state stack) (insn : BpfInsn) (src : Source)
    (is64 : Bool) : (aluSrcState state insn src is64).Wf n := by
  cases src with
  | imm => exact RegState.wf_scalarValue _
  | reg => exact h.regs insn.src

/-- A word the tnum of a register pins down. -/
theorem RegHolds.eq_of_knownValue {r : RegState} {v : Val} (h : RegHolds L sized ρ r v)
    (hwf : r.Wf n) {x : BitVec 64} (hx : r.tnum.knownValue = some x) : v.bits = x :=
  (h.allows hwf).tnum.eq_of_knownValue hx

/-! ## Pointer arithmetic -/

/-- The register operand that an addition or subtraction of a pointer takes for a number. -/
def addend (state : VerifierState) (insn : BpfInsn) (op : AluOp) : Option Reg :=
  let dst := (state.get insn.dst).regType.isPtr
  let src := (state.get insn.src).regType.isPtr
  if dst && !src && (op = .add || op = .sub) then some insn.src
  else if !dst && src && op = .add then some insn.dst
  else none

/-- **A moved pointer** points into the same object, at the moved offset. -/
theorem TypeHolds.shift {t : RegType} {v w : Val} {delta : Option (BitVec 64)}
    (h : TypeHolds L sized ρ t v)
    (hbits : t.hasOffset = true → ∃ d, delta = some d ∧ w.bits = v.bits + d)
    (hprov : w.prov = v.prov ∨ v.isPtr = false ∧ w.prov = .number) :
    TypeHolds L sized ρ (shiftPtr t delta) w := by
  -- a pointer with a tracked offset keeps its provenance
  have hmove (ht : t.hasOffset = true) {b o : BitVec 64} {prov : Prov} (hv : v = ⟨b + o, prov⟩)
      (hptr : prov.isPtr = true) : ∃ d, delta = some d ∧ w = ⟨b + (o + d), prov⟩ := by
    obtain ⟨d, hd, hw⟩ := hbits ht
    have hwp : w.prov = prov := by
      rcases hprov with hp | ⟨hp, -⟩
      · rw [hp, hv]
      · rw [hv, Val.isPtr, hptr] at hp
        cases hp
    refine ⟨d, hd, ?_⟩
    rw [hv] at hw
    rw [← hwp, ← BitVec.add_assoc, ← hw]
  cases t with
  | framePtr o =>
    obtain ⟨d, rfl, hw⟩ := hmove rfl h rfl
    exact hw
  | ctxPtr o =>
    obtain ⟨d, rfl, hw⟩ := hmove rfl h rfl
    exact hw
  | mapValuePtr id o size pc =>
    obtain ⟨hsize, call, hv⟩ := h
    obtain ⟨d, rfl, hw⟩ := hmove rfl hv rfl
    exact ⟨hsize, call, hw⟩
  | ringBufPtr id o size pc =>
    obtain ⟨call, reserved, hv, hsize⟩ := h
    obtain ⟨d, rfl, hw⟩ := hmove rfl hv rfl
    exact ⟨call, reserved, hw, hsize⟩
  | kernelPtr =>
    rcases hprov with hp | ⟨-, hp⟩
    · exact h.imp hp.trans hp.trans
    · exact Or.inl hp
  | dataPtr name =>
    rcases hprov with hp | ⟨hp, -⟩
    · exact hp.trans h
    · rw [Val.isPtr, show v.prov = .data name from h] at hp
      cases hp
  | _ => trivial

/-- The provenance of a pointer plus or minus a number. -/
theorem aluProv_of_number {op : AluOp} {v w : Val} (hop : op = .add ∨ op = .sub)
    (hw : w.isPtr = false) (bits : BitVec 64) :
    aluProv op v w bits = v.prov ∨ v.isPtr = false ∧ aluProv op v w bits = .number := by
  rcases hop with rfl | rfl
  · cases hv : v.isPtr <;> simp [aluProv, hv, hw]
  · cases hv : v.isPtr <;> simp [aluProv, hv, hw]

/-- The provenance of a number plus a pointer. -/
theorem aluProv_add_number {v w : Val} (hv : v.isPtr = false) (bits : BitVec 64) :
    aluProv .add v w bits = w.prov ∨ w.isPtr = false ∧ aluProv .add v w bits = .number := by
  cases hw : w.isPtr <;> simp [aluProv, hv, hw]

/-! ## ALU results -/

/-- A 64-bit move copies its operand. -/
theorem aluVal_mov (v w : Val) : aluVal true .mov v w = w := by
  simp [aluVal, aluBits, aluWord, aluProv]

theorem aluBits_add_comm (is64 : Bool) (x y : BitVec 64) :
    aluBits is64 .add x y = aluBits is64 .add y x := by
  simp only [aluBits, aluWord, BitVec.add_comm]

/-- An immediate moves as it is. -/
theorem aluVal_mov_imm (v : Val) (insn : BpfInsn) (is64 : Bool) :
    aluVal is64 .mov v (.number (insn.immOf is64)) = .number (insn.immOf is64) := by
  cases is64 with
  | true => exact aluVal_mov _ _
  | false => simp [aluVal, aluBits, aluWord, aluProv, Val.number, BpfInsn.immOf, BpfInsn.immU]

/-- A legal shift amount. -/
theorem DescribesWith.shift_le (h : DescribesWith L sized ρ state stack s)
    (hwf : StateWf n state stack) {src : Source} {is64 : Bool}
    (hshift : shiftOverflow state insn src is64 = none) :
    (s.operand insn src is64).bits.toNat ≤ (maxShift is64).toNat :=
  Nat.le_trans ((h.operand insn src is64).allows (hwf.operand insn src is64)).umax
    (umax_operand_le hshift)

/-- The two operands of an addition or subtraction move a pointer exactly. -/
theorem moves_exactly {op : AluOp} {is64 : Bool} {t : RegType} {r : RegState} {v w : Val}
    (hop : op = .add ∨ op = .sub) (hex : shiftExact t r.tnum is64 = true) (hr : r.Wf n)
    (hw : RegHolds L sized ρ r w) (ht : t.hasOffset = true) :
    ∃ d, (r.tnum.knownValue.map fun x => if op = .add then x else -x) = some d ∧
      aluBits is64 op v.bits w.bits = v.bits + d := by
  simp only [shiftExact, ht, Bool.not_true, Bool.false_or, Bool.and_eq_true] at hex
  obtain ⟨rfl, hknown⟩ := hex
  have hval : r.tnum.knownValue = some r.tnum.value := by simp [Tnum.knownValue, hknown]
  refine ⟨_, by rw [hval, Option.map_some], ?_⟩
  rw [hw.eq_of_knownValue hr hval]
  rcases hop with rfl | rfl
  · rfl
  · simp [aluBits, aluWord, BitVec.sub_eq_add_neg]

/-- A moved value is described by what the verifier moves. -/
theorem DescribesWith.movResult (h : DescribesWith L sized ρ state stack s)
    (hwf : StateWf n state stack) {src : Source} {is64 : Bool}
    (hex : aluPrecise state insn .mov src is64 = true) :
    RegHolds L sized ρ (movState (aluSrcState state insn src is64) src is64)
      (aluVal is64 .mov (s.regs insn.dst) (s.operand insn src is64)) := by
  have hop := h.operand insn src is64
  cases src with
  | imm =>
    rw [MState.operand, aluVal_mov_imm]
    exact hop
  | reg =>
    cases is64 with
    | true =>
      rw [aluVal_mov]
      exact hop
    | false =>
      refine .of_bounds rfl ?_
      change (mov32 _).Bounds ((BitVec.setWidth 32 _).setWidth 64)
      rw [setWidth_setWidth_32]
      exact bounds_mov32 (hop.allows (hwf.operand insn .reg false))
        (by simpa [aluPrecise] using hex)

/-- A pointer in the destination is moved by a number. -/
theorem DescribesWith.shiftResult (h : DescribesWith L sized ρ state stack s)
    (hwf : StateWf n state stack) {op : AluOp} {src : Source} {is64 : Bool}
    (hop : op = .add ∨ op = .sub)
    (hex : shiftExact (state.get insn.dst).regType (aluSrcState state insn src is64).tnum is64
      = true) (hnum : (s.operand insn src is64).isPtr = false) :
    RegHolds L sized ρ
      (.unbounded (shiftPtr (state.get insn.dst).regType
        ((aluSrcState state insn src is64).tnum.knownValue.map
          fun v => if op = .add then v else -v)))
      (aluVal is64 op (s.regs insn.dst) (s.operand insn src is64)) :=
  regHolds_unbounded ((h.regs insn.dst).type.shift
    (moves_exactly hop hex (hwf.operand insn src is64) (h.operand insn src is64))
    (aluProv_of_number hop hnum _))

/-- A pointer in the second operand is moved by the number in the destination. -/
theorem DescribesWith.swapResult (h : DescribesWith L sized ρ state stack s)
    (hwf : StateWf n state stack) {src : Source} {is64 : Bool}
    (hex : shiftExact (aluSrcState state insn src is64).regType (state.get insn.dst).tnum is64
      = true) (hnum : (s.regs insn.dst).isPtr = false) :
    RegHolds L sized ρ
      (.unbounded (shiftPtr (aluSrcState state insn src is64).regType
        (state.get insn.dst).tnum.knownValue))
      (aluVal is64 .add (s.regs insn.dst) (s.operand insn src is64)) := by
  have hprov := aluProv_add_number (w := s.operand insn src is64) hnum
    (aluBits is64 .add (s.regs insn.dst).bits (s.operand insn src is64).bits)
  refine regHolds_unbounded ((h.operand insn src is64).type.shift (fun ht => ?_) hprov)
  obtain ⟨d, hd, hbits⟩ := moves_exactly (v := s.operand insn src is64) (Or.inl rfl) hex
    (hwf.regs insn.dst) (h.regs insn.dst) ht
  exact ⟨d, by simpa using hd, (aluBits_add_comm is64 _ _).trans hbits⟩

/-- **The machine's result of an ALU instruction is described by the verifier's.** -/
theorem DescribesWith.aluResult (h : DescribesWith L sized ρ state stack s)
    (hwf : StateWf n state stack) {op : AluOp} {src : Source} {is64 : Bool} {r : RegState}
    (hr : AluResult state insn op src is64 r) (hex : aluPrecise state insn op src is64 = true)
    (hmix : src = .reg → ∀ q ∈ addend state insn op, (s.regs q).isPtr = false) :
    RegHolds L sized ρ r (aluVal is64 op (s.regs insn.dst) (s.operand insn src is64)) := by
  cases hr with
  | mov hmov =>
    subst hmov
    exact h.movResult hwf hex
  | neg _ _ => exact regHolds_scalarUnknown
  | binary hmov hneg _ hshift hb =>
    rw [aluPrecise_of_binary hmov hneg] at hex
    cases hb with
    | distance _ _ _ => exact regHolds_scalarUnknown
    | shift hd hs hopadd =>
      rw [if_pos hd, hs, Bool.false_or] at hex
      refine h.shiftResult hwf hopadd hex ?_
      cases src with
      | imm => rfl
      | reg =>
        refine hmix rfl insn.src ?_
        have hs' : (state.get insn.src).regType.isPtr = false := hs
        rcases hopadd with rfl | rfl <;> simp [addend, hd, hs']
    | swap hd hs hadd =>
      subst hadd
      rw [if_neg (by simp [hd]), if_pos (by simp [hs])] at hex
      refine h.swapResult hwf hex ?_
      cases src with
      | imm => cases hs
      | reg =>
        refine hmix rfl insn.dst ?_
        have hs' : (state.get insn.src).regType.isPtr = true := hs
        simp [addend, hd, hs']
    | scalar hd hs =>
      rw [if_neg (by simp [hd]), if_neg (by simpa using hs)] at hex
      have hdst := (h.regs insn.dst).allows (hwf.regs insn.dst)
      have hop := (h.operand insn src is64).allows (hwf.operand insn src is64)
      have hbounds := bounds_scalarAlu hdst.tnum hop.tnum hex fun hop => h.shift_le hwf (hshift hop)
      exact .of_bounds (RegState.regType_refineBounds _) hbounds

/-! ## LD_IMM64 -/

/-- **A loaded immediate is described by what its relocation stands for.** -/
theorem DescribesWith.loadImm64 (h : DescribesWith L sized ρ state stack s) (ω : Oracle) :
    DescribesWith L sized ρ (loadImm64 p s.pc insn state) stack
      (s.advance insn.dst (s.immediate L ω p insn)) := by
  unfold BpfVerifier.loadImm64 MState.immediate
  cases p.relocations.get s.pc with
  | none =>
    have hv : RegHolds L sized ρ (.scalarValue insn.ldValue) (.number insn.ldValue) :=
      .of_bounds rfl (RegState.bounds_scalarValue _)
    exact h.setAt _ hv _
  | some target =>
    cases target with
    | map _ => exact h.setAt _ regHolds_scalarUnknown _
    | data _ => exact h.set _ (.of_type (by simp [RegState.unbounded]) rfl)
    | coreFieldOffset => exact h.setAt _ (regHolds_kernelPtr (Or.inl rfl)) _

/-! ## Branches -/

/-- Resolving a nullable pointer keeps a register that holds it described. -/
theorem RegHolds.refineWithId {r : RegState} {v : Val} (h : RegHolds L sized ρ r v) (hwf : r.Wf n)
    {ptrId : ℕ} {newType : RegType} (hnew : TypeHolds L sized ρ newType (ρ ptrId)) :
    RegHolds L sized ρ (refineWithId ptrId newType r) v := by
  unfold BpfVerifier.refineWithId
  split
  · next inner pc id ht =>
    split
    · next hid =>
      have hv : v = ρ ptrId := by
        have htype := h.type
        rw [ht] at htype
        rw [← hid]
        exact htype.1
      rw [hv]
      split
      · next hnull =>
        rw [hnull] at hnew
        exact .of_type (by simp [RegState.null]) hnew
      · exact ⟨hnew, fun _ => ⟨(hwf.any (by simp [ht]) (by simp [ht]) _).tnum,
          (hwf.any (by simp [ht]) (by simp [ht]) _).umin,
          (hwf.any (by simp [ht]) (by simp [ht]) _).umax,
          (hwf.any (by simp [ht]) (by simp [ht]) _).signed⟩⟩
    · exact h
  · exact h

/-- **Resolving a nullable pointer**, in every register and spill that holds it. -/
theorem DescribesWith.refineWithId (h : DescribesWith L sized ρ state stack s)
    (hwf : StateWf n state stack) {ptrId : ℕ} {newType : RegType}
    (hnew : TypeHolds L sized ρ newType (ρ ptrId)) :
    DescribesWith L sized ρ (refineAllWithId state ptrId newType)
      (refineSpillsWithId stack ptrId newType) s where
  regs r := (h.regs r).refineWithId (hwf.regs r) hnew
  spills o r hr := by
    rw [getSpill_refineSpillsWithId] at hr
    obtain ⟨q, hq, rfl⟩ := Option.map_eq_some_iff.mp hr
    exact (h.spills o q hq).refineWithId (hwf.spills o q hq) hnew
  init := h.init

/-- Narrowing a register to bounds that allow its value. -/
theorem DescribesWith.narrow (h : DescribesWith L sized ρ state stack s) (dst : Reg)
    {r : RegState} (hr : r.IsScalar) (hb : r.Bounds (s.regs dst).bits) :
    DescribesWith L sized ρ (state.set dst r) stack s where
  regs q := by
    rw [VerifierState.get_set]
    split
    · next hq =>
      rw [hq]
      exact .of_bounds hr.type hb
    · exact h.regs q
  spills := h.spills
  init := h.init

/-- The comparison value the verifier knows is the machine's. -/
theorem DescribesWith.cmpVal (h : DescribesWith L sized ρ state stack s)
    (hwf : StateWf n state stack) {src : Source} {is32 : Bool} {val : BitVec 64}
    (hval : cmpVal state insn src is32 = some val) :
    (s.operand insn src (!is32)).bits = val := by
  cases src with
  | imm => exact Option.some.inj hval
  | reg => exact (h.regs insn.src).eq_of_knownValue (hwf.regs insn.src) hval

/-- What the two edges of a conditional jump describe. -/
def Branches.Describe (L : Layout) (sized : ℕ → BitVec 32 → BitVec 64 → Prop) (ρ : ℕ → Val)
    (b : Branches) (taken : Bool) (s : MState) : Prop :=
  (taken = true → DescribesWith L sized ρ b.taken b.takenStack s) ∧
    (taken = false → DescribesWith L sized ρ b.fall b.fallStack s)

/-- What holds of the two edges of a conditional jump. -/
def Branches.Holds (D : VerifierState → StackState → Prop) (b : Branches) (taken : Bool) : Prop :=
  (taken = true → D b.taken b.takenStack) ∧ (taken = false → D b.fall b.fallStack)

/-- A 64-bit null test resolves the tested pointer on both edges, for any account `D` of states that
is kept where it is resolved rightly. -/
theorem refineNull_holds {D : VerifierState → StackState → Prop} (h : D state stack) {v : Val}
    {inner : RegType} {id : ℕ} (hv : v = ρ id)
    (hcase : v.IsNull ∨ v.bits ≠ 0 ∧ TypeHolds L sized ρ inner v)
    (hnull : TypeHolds L sized ρ .null (ρ id) →
      D (refineAllWithId state id .null) (refineSpillsWithId stack id .null))
    (hinner : TypeHolds L sized ρ inner (ρ id) →
      D (refineAllWithId state id inner) (refineSpillsWithId stack id inner)) (op : JmpOp) :
    (refineNull ⟨state, stack, state, stack⟩ op inner id).Holds D (compare op v.bits 0) := by
  subst hv
  have hzero (hb : (ρ id).bits = 0) : TypeHolds L sized ρ .null (ρ id) :=
    hcase.resolve_right fun hne => hne.1 hb
  have hne (hb : (ρ id).bits ≠ 0) : TypeHolds L sized ρ inner (ρ id) :=
    (hcase.resolve_left fun hnull => hb hnull.bits_eq).2
  cases op with
  | jeq =>
    simp only [Branches.Holds, compare, decide_eq_true_eq, decide_eq_false_iff_not]
    exact ⟨fun hb => hnull (hzero hb), fun hb => hinner (hne hb)⟩
  | jne =>
    simp only [Branches.Holds, compare, decide_eq_true_eq, decide_eq_false_iff_not, ne_eq, not_not]
    exact ⟨fun hb => hinner (hne hb), fun hb => hnull (hzero hb)⟩
  | _ => exact ⟨fun _ => h, fun _ => h⟩

theorem DescribesWith.refineNull (h : DescribesWith L sized ρ state stack s)
    (hwf : StateWf n state stack) {op : JmpOp} {inner : RegType} {pc : Option ℕ} {id : ℕ}
    {dst : Reg} (ht : (state.get dst).regType = .ptrOrNull inner pc id) :
    (refineNull ⟨state, stack, state, stack⟩ op inner id).Describe L sized ρ
      (compare op (s.regs dst).bits 0) s := by
  obtain ⟨hv, hcase⟩ : s.regs dst = ρ id ∧ ((s.regs dst).IsNull ∨
      (s.regs dst).bits ≠ 0 ∧ TypeHolds L sized ρ inner (s.regs dst)) := by
    have htype := (h.regs dst).type
    rw [ht] at htype
    exact htype
  let D : VerifierState → StackState → Prop :=
    fun state stack => DescribesWith L sized ρ state stack s
  exact refineNull_holds (D := D) h hv hcase (fun hnew => h.refineWithId hwf hnew)
    (fun hnew => h.refineWithId hwf hnew) op

/-- **Both edges of a conditional jump describe the states that take them.** -/
theorem DescribesWith.refineBranch (h : DescribesWith L sized ρ state stack s)
    (hwf : StateWf n state stack) {op : JmpOp} {src : Source} {is32 : Bool}
    (hex : branchPrecise state insn op src is32 = true) :
    (refineBranch ⟨state, stack, state, stack⟩ insn op src is32).Describe L sized ρ
      (jumpTaken is32 op (s.regs insn.dst).bits (s.operand insn src (!is32)).bits) s := by
  unfold BpfVerifier.refineBranch
  split
  · next val inner pc id hval ht =>
    rw [h.cmpVal hwf hval]
    split
    · next hzero =>
      subst hzero
      have hval' : BpfVerifier.cmpVal state insn src is32 = some 0 := hval
      have ht' : (state.get insn.dst).regType = .ptrOrNull inner pc id := ht
      simp only [branchPrecise, hval', ht', Bool.not_eq_true', Bool.and_eq_false_iff,
        decide_true, Bool.true_eq_false, or_false, Bool.or_eq_false_iff,
        decide_eq_false_iff_not] at hex
      cases is32 with
      | false => exact h.refineNull hwf ht
      | true =>
        obtain ⟨hjeq, hjne⟩ := hex.resolve_left (by simp)
        unfold BpfVerifier.refineNull
        split
        · exact absurd rfl hjeq
        · exact absurd rfl hjne
        · exact ⟨fun _ => h, fun _ => h⟩
    · exact ⟨fun _ => h, fun _ => h⟩
  · next val hval ht =>
    rw [h.cmpVal hwf hval]
    have hval' : BpfVerifier.cmpVal state insn src is32 = some val := hval
    have ht' : (state.get insn.dst).regType = .scalar := ht
    have hb := (h.regs insn.dst).bounds ht'
    have hscalar : (state.get insn.dst).IsScalar := ⟨ht', (hwf.regs insn.dst).tnum⟩
    cases is32 with
    | false =>
      obtain ⟨hs₁, hs₂⟩ := isScalar_refineScalar64 hscalar op val
      obtain ⟨hb₁, hb₂⟩ : EdgeBounds (refineScalar64 _ _ op val) (compare op _ val) _ :=
        bounds_refineScalar64 hb op
      exact ⟨fun ht => h.narrow _ hs₁ (hb₁ ht), fun hf => h.narrow _ hs₂ (hb₂ hf)⟩
    | true =>
      have hsigned : op.isSigned = true → signed32Exact (state.get insn.dst) = true := by
        simpa [branchPrecise, hval', ht', Decidable.imp_iff_not_or] using hex
      obtain ⟨hs₁, hs₂⟩ := isScalar_refineScalar32 hscalar op val
      obtain ⟨hb₁, hb₂⟩ : EdgeBounds (refineScalar32 _ _ op val)
          (compare op (BitVec.setWidth 32 _) (val.setWidth 32)) _ :=
        bounds_refineScalar32 hb op hsigned
      exact ⟨fun ht => h.narrow _ hs₁ (hb₁ ht), fun hf => h.narrow _ hs₂ (hb₂ hf)⟩
  · exact ⟨fun _ => h, fun _ => h⟩

end BpfVerifier
