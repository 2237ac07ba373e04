import BpfVerifier.Soundness.Registers

/-!
# Soundness/Depicts — the machine states a verifier state describes, bounds read as recorded

`RegDepicts` is `RegHolds` with the bounds of a scalar read as recorded; a register of another type
has a tnum that is right about its value, and a nullable pointer is one to something.  Refining a
64-bit branch keeps it on both edges (`DepictsWith.edges64`).
-/

namespace BpfVerifier

open Word

variable (L : Layout) (sized : ℕ → BitVec 32 → BitVec 64 → Prop)

/-- The values of a register state. -/
structure RegDepicts (ρ : ℕ → Val) (r : RegState) (v : Val) : Prop where
  type : TypeHolds L sized ρ r.regType v
  tnum : r.tnum.Has v.bits
  bounds : r.regType = .scalar → r.Admits v.bits
  inner : ∀ inner pc id, r.regType = .ptrOrNull inner pc id → inner.isPtr = true

/-- The machine states of a verifier state, with the values `ρ` of the nullable pointers. -/
structure DepictsWith (ρ : ℕ → Val) (state : VerifierState) (stack : StackState)
    (s : MState) : Prop where
  regs : ∀ r, RegDepicts L sized ρ (state.get r) (s.regs r)
  spills : ∀ o r, stack.getSpill o = some r → RegDepicts L sized ρ r (readFrame s.frame o .dw)
  init : ∀ o i, StackState.toIndex o = some i → stack.init i = true → s.written o = true

/-- **The machine states a verifier state describes**, registers and spills with one id holding one
value. -/
def Depicts (state : VerifierState) (stack : StackState) (s : MState) : Prop :=
  ∃ ρ, DepictsWith L sized ρ state stack s

variable {L sized} {ρ : ℕ → Val} {state : VerifierState} {stack : StackState} {s : MState}
  {r : RegState} {v : Val} {insn : BpfInsn} {op : JmpOp} {src : Source}

/-! ## Registers -/

/-- Bounds read as recorded are bounds that do not wrap. -/
theorem RegDepicts.holds (h : RegDepicts L sized ρ r v) : RegHolds L sized ρ r v :=
  ⟨h.type, fun hs => (h.bounds hs).bounds⟩

theorem DepictsWith.describes (h : DepictsWith L sized ρ state stack s) :
    DescribesWith L sized ρ state stack s :=
  ⟨fun r => (h.regs r).holds, fun o r hr => (h.spills o r hr).holds, h.init⟩

/-- A scalar holds the words its bounds allow. -/
theorem RegDepicts.of_admits (hs : r.regType = .scalar) (h : r.Admits v.bits) :
    RegDepicts L sized ρ r v where
  type := by
    rw [hs]
    trivial
  tnum := h.tnum
  bounds _ := h
  inner _ _ _ ht := by
    rw [hs] at ht
    cases ht

theorem regDepicts_null (h : v.IsNull) : RegDepicts L sized ρ .null v where
  type := h
  tnum := Tnum.has_constant.mpr h.bits_eq
  bounds := by simp [RegState.null]
  inner := by simp [RegState.null]

/-- **In a well-formed state** it is enough that the types are right, and the bounds of the scalars:
no other register but null tracks bits, and a nullable pointer is a helper's result. -/
theorem regDepicts_iff_of_wf {n : ℕ} (hwf : r.Wf n) : RegDepicts L sized ρ r v ↔
    TypeHolds L sized ρ r.regType v ∧ (r.regType = .scalar → r.Admits v.bits) := by
  constructor
  · exact fun h => ⟨h.type, h.bounds⟩
  · rintro ⟨htype, hbounds⟩
    refine ⟨htype, ?_, hbounds, fun inner pc id ht => ?_⟩
    · by_cases hs : r.regType = .scalar
      · exact (hbounds hs).tnum
      · exact (RegHolds.of_type hs htype).allows hwf |>.tnum
    · have hids := hwf.ids
      rw [ht] at hids
      cases inner <;> first | rfl | cases hids.2

/-- The comparison value the verifier knows is the machine's. -/
theorem DepictsWith.cmpVal (h : DepictsWith L sized ρ state stack s) {is32 : Bool}
    {val : BitVec 64} (hval : cmpVal state insn src is32 = some val) :
    (s.operand insn src (!is32)).bits = val := by
  cases src with
  | imm => exact Option.some.inj hval
  | reg => exact (h.regs insn.src).tnum.eq_of_knownValue hval

/-! ## Null tests -/

/-- Resolving a nullable pointer keeps a register that holds it described. -/
theorem RegDepicts.refineWithId (h : RegDepicts L sized ρ r v) {ptrId : ℕ} {newType : RegType}
    (hnew : TypeHolds L sized ρ newType (ρ ptrId)) (hptr : newType = .null ∨ newType.isPtr = true) :
    RegDepicts L sized ρ (refineWithId ptrId newType r) v := by
  unfold BpfVerifier.refineWithId
  split
  · next inner pc id ht =>
    split
    · next hid =>
      have hv : v = ρ ptrId := by
        have htype := h.type
        rw [ht] at htype
        rw [← hid]
        exact htype.1
      split
      · next hnull =>
        rw [hnull, ← hv] at hnew
        exact regDepicts_null hnew
      · next hnull =>
        have hptr := hptr.resolve_left hnull
        have hne (t : RegType) (ht : t.isPtr = false) : newType ≠ t := by
          rintro rfl
          rw [ht] at hptr
          cases hptr
        exact
          { type := hv ▸ hnew
            tnum := h.tnum
            bounds := fun hs => absurd hs (hne _ rfl)
            inner := fun _ _ _ hs => absurd hs (hne _ rfl) }
    · exact h
  · exact h

/-- **Resolving a nullable pointer**, in every register and spill that holds it. -/
theorem DepictsWith.refineWithId (h : DepictsWith L sized ρ state stack s) {ptrId : ℕ}
    {newType : RegType} (hnew : TypeHolds L sized ρ newType (ρ ptrId))
    (hptr : newType = .null ∨ newType.isPtr = true) :
    DepictsWith L sized ρ (refineAllWithId state ptrId newType)
      (refineSpillsWithId stack ptrId newType) s where
  regs r := (h.regs r).refineWithId hnew hptr
  spills o r hr := by
    rw [getSpill_refineSpillsWithId] at hr
    obtain ⟨q, hq, rfl⟩ := Option.map_eq_some_iff.mp hr
    exact (h.spills o q hq).refineWithId hnew hptr
  init := h.init

/-- A nullable pointer is null, or the pointer it is tested for. -/
theorem DepictsWith.nullable (h : DepictsWith L sized ρ state stack s) {dst : Reg}
    {inner : RegType} {pc : Option ℕ} {id : ℕ}
    (ht : (state.get dst).regType = .ptrOrNull inner pc id) :
    s.regs dst = ρ id ∧ ((s.regs dst).IsNull ∨
      (s.regs dst).bits ≠ 0 ∧ TypeHolds L sized ρ inner (s.regs dst)) := by
  have htype := (h.regs dst).type
  rw [ht] at htype
  exact htype

/-- A 64-bit null test resolves the tested pointer on both edges. -/
theorem DepictsWith.refineNull (h : DepictsWith L sized ρ state stack s) {dst : Reg}
    {inner : RegType} {pc : Option ℕ} {id : ℕ}
    (ht : (state.get dst).regType = .ptrOrNull inner pc id) (op : JmpOp) :
    (refineNull ⟨state, stack, state, stack⟩ op inner id).Holds
      (fun state stack => DepictsWith L sized ρ state stack s)
      (compare op (s.regs dst).bits 0) := by
  obtain ⟨hv, hcase⟩ := h.nullable ht
  let D : VerifierState → StackState → Prop :=
    fun state stack => DepictsWith L sized ρ state stack s
  exact refineNull_holds (D := D) h hv hcase (fun hnew => h.refineWithId hnew (Or.inl rfl))
    (fun hnew => h.refineWithId hnew (Or.inr ((h.regs dst).inner _ _ _ ht))) op

/-! ## Scalars -/

/-- Narrowing a register to bounds that allow its value. -/
theorem DepictsWith.narrow (h : DepictsWith L sized ρ state stack s) (dst : Reg)
    (hr : r.regType = .scalar) (hb : r.Admits (s.regs dst).bits) :
    DepictsWith L sized ρ (state.set dst r) stack s where
  regs q := by
    rw [VerifierState.get_set]
    split
    · next hq =>
      rw [hq]
      exact .of_admits hr hb
    · exact h.regs q
  spills := h.spills
  init := h.init

/-- **Both edges of a 64-bit conditional jump describe the states that take them.** -/
theorem DepictsWith.edges64 (h : DepictsWith L sized ρ state stack s) (insn : BpfInsn)
    (op : JmpOp) (src : Source) :
    (refineBranch ⟨state, stack, state, stack⟩ insn op src false).Holds
      (fun state stack => DepictsWith L sized ρ state stack s)
      (jumpTaken false op (s.regs insn.dst).bits (s.operand insn src true).bits) := by
  unfold refineBranch
  split
  · next val inner pc id hval ht =>
    split
    · next hzero =>
      have hval : (s.operand insn src true).bits = val := h.cmpVal hval
      rw [hval, hzero]
      exact h.refineNull ht op
    · exact ⟨fun _ => h, fun _ => h⟩
  · next val hval ht =>
    have hval : (s.operand insn src true).bits = val := h.cmpVal hval
    rw [hval]
    have hb := (h.regs insn.dst).bounds ht
    obtain ⟨hs₁, hs₂⟩ := isScalar_refineScalar64 ⟨ht, hb.tnum.wf⟩ op val
    obtain ⟨hb₁, hb₂⟩ : EdgeHolds RegState.Admits (refineScalar64 _ _ op val)
        (compare op _ val) _ := reading_admits.edges64 hb op
    exact ⟨fun ht => h.narrow _ hs₁.type (hb₁ ht), fun hf => h.narrow _ hs₂.type (hb₂ hf)⟩
  · exact ⟨fun _ => h, fun _ => h⟩

/-! ## Entry -/

/-- An unbounded register that is not nullable holds the values of its type. -/
theorem regDepicts_unbounded {t : RegType} (ht : TypeHolds L sized ρ t v)
    (hn : t.isPtrOrNull = false) : RegDepicts L sized ρ (.unbounded t) v where
  type := ht
  tnum := Tnum.has_unknown
  bounds _ := RegState.admits_unbounded t v.bits
  inner inner pc id h := by
    rw [show t = .ptrOrNull inner pc id from h] at hn
    cases hn

/-- **Writing a described value to a register.** -/
theorem DepictsWith.set (h : DepictsWith L sized ρ state stack s) (dst : Reg)
    (hv : RegDepicts L sized ρ r v) :
    DepictsWith L sized ρ (state.set dst r) stack (s.advance dst v) where
  regs q := by
    rw [VerifierState.get_set, MState.regs_advance]
    split
    · exact hv
    · exact h.regs q
  spills := h.spills
  init := h.init

/-- **Entry is described by the verifier's entry state.** -/
theorem MState.Entry.depicts (h : s.Entry L) (ρ : ℕ → Val) :
    DepictsWith L sized ρ .entry .new s where
  regs r := by
    cases r with
    | r1 =>
      refine regDepicts_unbounded ?_ rfl
      change s.regs .r1 = ⟨L.ctxBase + 0, .ctx⟩
      simp [h.r1_eq]
    | r10 =>
      refine regDepicts_unbounded ?_ rfl
      change s.regs .r10 = ⟨L.frameTop + 0, .frame⟩
      simp [h.r10_eq]
    | _ => exact regDepicts_unbounded trivial rfl
  spills o r hr := by simp [StackState.getSpill, StackState.new] at hr
  init o i _ hi := by simp [StackState.new] at hi

end BpfVerifier
