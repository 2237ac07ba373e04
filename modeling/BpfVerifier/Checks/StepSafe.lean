import BpfVerifier.Checks.NullSound
import BpfVerifier.Checks.StackSound
import BpfVerifier.Checks.TypeSound

/-!
# Checks/StepSafe — no step of an accepted programme gets stuck, where the passes look

`openNeeds` lists what `exec_insn` asks of its operands that no pass establishes: the kinds of
registers the type pass has lost, slots that were written, operands of comparisons, known helpers.
`execInsnPath_isSome` says that the three passes establish all the rest.
-/

namespace BpfVerifier.Fstar

/-- What the three passes have lost at a state of a run. -/
structure Lost where
  nulls : Marks
  frames : Marks
  types : Marks

/-- What is lost a number of steps into a run. -/
def lostAfter (prog : BpfProgram) (init : BpfState) (sched : PathSchedule) (n : ℕ) : Lost where
  nulls := nullsLost prog init sched n
  frames := framesLost prog init sched n
  types := typesLost prog init sched n

namespace RegVal

def isNumber : RegVal → Bool
  | .scalar _ => true
  | _ => false

/-- ADD and SUB of an immediate apply. -/
def isMovable : RegVal → Bool
  | .scalar _ | .framePtr _ | .ctxPtr _ => true
  | _ => false

/-- A store may go through it, unless it is null. -/
def isStoreBase : RegVal → Bool
  | .null | .framePtr _ | .ringBufPtr _ => true
  | _ => false

end RegVal

section

variable (lost : Lost) (st : BpfState)

/-- A register whose kind is lost meets a test. -/
def Lost.kind (test : RegVal → Bool) (r : Reg) : Bool := !lost.types r || test (st.regs r)

/-- A register is no lost null and no lost frame pointer. -/
def Lost.sound (r : Reg) : Bool := !lost.nulls r && !((st.regs r).isFramePtr && lost.frames r)

/-- A load from the frame finds a slot. -/
def frameWritten (src : Reg) (off : BitVec 32) (width : MemWidth) : Bool :=
  match st.regs src with
  | .framePtr ptrOff => (stackRead st.stack (ptrOff + signExtendToInt off) width).isSome
  | _ => true

/-- **What the passes leave open** at an instruction: registers whose kind is lost hold what the
operation needs, no access goes through a lost null or a lost frame pointer, a load from the frame
finds a slot, the operands of a comparison are comparable, and a called helper is known. -/
def openNeeds : Insn → Bool
  | .alu64Reg op dst src =>
    op = .mov || lost.kind st RegVal.isNumber dst && lost.kind st RegVal.isNumber src
  | .alu64Imm op dst _ => op = .mov ||
    if op = .add ∨ op = .sub then lost.kind st RegVal.isMovable dst
    else lost.kind st RegVal.isNumber dst
  | .alu32Reg op dst src =>
    (op = .mov || lost.kind st RegVal.isNumber dst) && lost.kind st RegVal.isNumber src
  | .alu32Imm op dst _ => op = .mov || lost.kind st RegVal.isNumber dst
  | .ldImm64 _ _ => true
  | .ldx width _ src off =>
    lost.sound st src && lost.kind st (!·.isNumber) src && frameWritten st src off width
  | .stx _ dst src _ =>
    lost.sound st dst && lost.kind st RegVal.isStoreBase dst && lost.kind st RegVal.isNumber src
  | .st _ dst _ _ => lost.sound st dst && lost.kind st RegVal.isStoreBase dst
  | .jmp64Reg _ dst src _ =>
    (regValForJmp (st.regs dst)).isSome && (regValForJmp (st.regs src)).isSome
  | .jmp64Imm op dst _ _ => op = .jeq || op = .jne || (st.regs dst).isNumber
  | .jmp32Reg _ dst src _ => (st.regs dst).isNumber && (st.regs src).isNumber
  | .jmp32Imm _ dst _ _ => (st.regs dst).isNumber
  | .jmpJa _ => true
  | .call hid => (getHelperSpec hid).isSome
  | .exit => true

end

theorem RegVal.isNumber_iff {v : RegVal} : v.isNumber = true ↔ ∃ n, v = .scalar n := by
  cases v <;> simp [RegVal.isNumber]

/-! ## What the passes establish -/

section

variable {abs : AbsStateTs} {st : BpfState} {lost : Lost} {r : Reg}

/-- An operand accepted as a number is one, when its kind is known or left to be one. -/
theorem isNumber_of_check (h : TypesIn abs st.regs lost.types)
    (hcheck : isScalarType (abs r) = true) (hopen : lost.kind st RegVal.isNumber r = true) :
    ∃ n, st.regs r = .scalar n := by
  cases hm : lost.types r with
  | true => exact RegVal.isNumber_iff.mp (by simpa [Lost.kind, hm] using hopen)
  | false =>
    have hknown := h r hm
    cases habs : abs r <;> simp_all [isScalarType, KnownAs]

/-- A load base is no number. -/
theorem ne_scalar_of_check (h : TypesIn abs st.regs lost.types) (hcheck : isLoadBase (abs r) = true)
    (hopen : lost.kind st (!·.isNumber) r = true) (n : BitVec 64) : st.regs r ≠ .scalar n := by
  intro hn
  cases hm : lost.types r with
  | true => simp [Lost.kind, hm, hn, RegVal.isNumber] at hopen
  | false =>
    have hknown := h r hm
    cases habs : abs r <;> simp_all [isLoadBase, KnownAs]

/-- A store base is a pointer to the frame or to a ring-buffer record, or null. -/
theorem isStoreBase_of_check (h : TypesIn abs st.regs lost.types)
    (hcheck : isStoreBase (abs r) = true) (hopen : lost.kind st RegVal.isStoreBase r = true) :
    (st.regs r).isStoreBase = true := by
  cases hm : lost.types r with
  | true => simpa [Lost.kind, hm] using hopen
  | false =>
    have hknown := h r hm
    cases habs : abs r <;> simp_all [isStoreBase, KnownAs] <;>
      · obtain ⟨x, hx⟩ := hknown
        rw [hx]
        rfl

/-- What ADD or SUB of an immediate is applied to can be moved. -/
theorem isMovable_of_check {abs' : AbsStateTs} {op : AluOp} {imm : BitVec 32}
    (hop : op = .add ∨ op = .sub) (h : TypesIn abs st.regs lost.types)
    (hcheck : checkInsnTs abs (.alu64Imm op r imm) = some abs')
    (hopen : lost.kind st RegVal.isMovable r = true) : (st.regs r).isMovable = true := by
  cases hm : lost.types r with
  | true => simpa [Lost.kind, hm] using hopen
  | false =>
    have hknown := h r hm
    cases habs : abs r <;> rw [habs] at hknown
    case TUnknown => exact hknown.elim
    case TScalar | TFramePtr | TCtxPtr =>
      obtain ⟨x, hx⟩ := hknown
      rw [hx]
      rfl
    all_goals rcases hop with rfl | rfl <;> simp [checkInsnTs, habs] at hcheck

end

/-! ## Steps -/

variable {prog : BpfProgram}

/-- The three passes accept a programme. -/
structure AllChecked (prog : BpfProgram) : Prop where
  stack : stackBoundsCheck prog = true
  types : typeCheck prog = true
  nulls : nullCheck prog = true

/-- What the passes know of a state. -/
structure AllSeen (prog : BpfProgram) (st : BpfState) (lost : Lost) : Prop where
  nulls : NullsSeen prog st lost.nulls
  frames : FramesSeen prog st lost.frames
  types : TypesSeen prog st lost.types
  maps : MapsBacked st

/-- A load through a register that is no number and not null succeeds. -/
theorem execLdxWith_isSome {st : BpfState} {width : MemWidth} {dst src : Reg} {off : BitVec 32}
    (hnum : ∀ n, st.regs src ≠ .scalar n) (hnull : st.regs src ≠ .null) (hmaps : MapsBacked st)
    (hframe : ∀ ptrOff, st.regs src = .framePtr ptrOff →
      (st.stackLoad (ptrOff + signExtendToInt off) width).isSome = true) :
    (execLdxWith st st.stackLoad width dst src off).isSome = true := by
  unfold execLdxWith
  cases hsrc : st.regs src with
  | scalar n => exact absurd hsrc (hnum n)
  | framePtr ptrOff => exact setNumber_isSome (hframe ptrOff hsrc)
  | mapValuePtr id => exact setNumber_isSome (hmaps src id hsrc)
  | ringBufPtr id =>
    dsimp only
    split <;> rfl
  | ctxPtr ptrOff => rfl
  | null => exact absurd hsrc hnull

/-- A store of a number through a frame pointer in bounds or into a ring-buffer record succeeds. -/
theorem execStoreWith_isSome {st : BpfState} {width : MemWidth} {dst : Reg} {off : BitVec 32}
    {v : Option (BitVec 64)} (hv : v.isSome = true) (hbase : (st.regs dst).isStoreBase = true)
    (hnull : st.regs dst ≠ .null)
    (hframe : ∀ ptrOff, st.regs dst = .framePtr ptrOff →
      stackOffsetValid (ptrOff + signExtendToInt off) width = true) :
    (execStoreWith st st.stackStore width dst off v).isSome = true := by
  obtain ⟨n, rfl⟩ := Option.isSome_iff_exists.mp hv
  cases hdst : st.regs dst with
  | framePtr ptrOff => simp [execStoreWith, hdst, BpfState.stackStore, hframe ptrOff hdst]
  | ringBufPtr id => simp [execStoreWith, hdst]
  | null => exact absurd hdst hnull
  | _ => simp [hdst, RegVal.isStoreBase] at hbase

section

variable {st : BpfState} {lost : Lost} {insn : Insn}

/-- An access through a register that is not lost is not through null, and inside the frame. -/
theorem base_sound (hall : AllChecked prog) (hinsn : prog[st.pc.toNat]? = some insn)
    (hseen : AllSeen prog st lost) {base : Reg} (hbase : insn.base = some base)
    (hsound : lost.sound st base = true) :
    st.regs base ≠ .null ∧ ∀ off width ptrOff, insn.access = some (off, width) →
      st.regs base = .framePtr ptrOff →
      stackOffsetValid (ptrOff + signExtendToInt off) width = true := by
  simp only [Lost.sound, Bool.and_eq_true, Bool.not_eq_true', Bool.and_eq_false_iff] at hsound
  obtain ⟨hnulls, hframes⟩ := hsound
  refine ⟨base_ne_null_of_nullsSeen hall.nulls hseen.nulls hinsn hbase hnulls, ?_⟩
  intro off width ptrOff haccess hptr
  have hm : lost.frames base = false := by
    rcases hframes with hnot | hm
    · rw [hptr] at hnot
      cases hnot
    · exact hm
  exact stackOffsetValid_of_framesSeen hall.stack hseen.frames hinsn hbase haccess hm hptr

/-- The arithmetic of an accepted programme is not stuck. -/
theorem execAlu_isSome {abs abs' : AbsStateTs} (htypes : TypesIn abs st.regs lost.types)
    (hcheck : checkInsnTs abs insn = some abs') (hopen : openNeeds lost st insn = true) {dst : Reg}
    (hdst : insn.writes = some dst) (hbase : insn.base = none) :
    (execInsn st insn).isSome = true := by
  cases insn with
  | alu64Reg op dst src =>
    by_cases hop : op = .mov
    · subst hop
      rfl
    have hscalar : isScalarType (abs dst) = true ∧ isScalarType (abs src) = true := by
      cases op <;> simp_all [checkInsnTs]
    simp only [openNeeds, hop, decide_false, Bool.false_or, Bool.and_eq_true] at hopen
    obtain ⟨d, hd⟩ := isNumber_of_check htypes hscalar.1 hopen.1
    obtain ⟨s, hs⟩ := isNumber_of_check htypes hscalar.2 hopen.2
    rw [execInsn, execAlu64Reg_eq hop hd hs]
    exact setNumber_isSome (alu64_isSome op d s)
  | alu64Imm op dst imm =>
    by_cases hmov : op = .mov
    · subst hmov
      rfl
    simp only [openNeeds, hmov, decide_false, Bool.false_or] at hopen
    by_cases hop : op = .add ∨ op = .sub
    · rw [if_pos hop] at hopen
      have hmovable := isMovable_of_check hop htypes hcheck hopen
      cases hreg : st.regs dst with
      | scalar d =>
        rw [execInsn, execAlu64Imm_eq hmov hreg]
        exact setNumber_isSome (alu64_isSome op d _)
      | framePtr off => rcases hop with rfl | rfl <;> simp [execInsn, execAlu64Imm, hreg]
      | ctxPtr off => rcases hop with rfl | rfl <;> simp [execInsn, execAlu64Imm, hreg]
      | _ => simp [hreg, RegVal.isMovable] at hmovable
    · rw [if_neg hop] at hopen
      have hscalar : isScalarType (abs dst) = true := by
        cases op <;> simp_all [checkInsnTs]
      obtain ⟨d, hd⟩ := isNumber_of_check htypes hscalar hopen
      rw [execInsn, execAlu64Imm_eq hmov hd]
      exact setNumber_isSome (alu64_isSome op d _)
  | alu32Reg op dst src =>
    have hsrcScalar : isScalarType (abs src) = true := by
      cases op <;> simp_all [checkInsnTs]
    simp only [openNeeds, Bool.and_eq_true] at hopen
    obtain ⟨s, hs⟩ := isNumber_of_check htypes hsrcScalar hopen.2
    by_cases hop : op = .mov
    · subst hop
      rw [execInsn, execAlu32Reg_mov hs]
      exact setNumber_isSome (alu32_isSome .mov s s)
    have hscalar : isScalarType (abs dst) = true := by
      cases op <;> simp_all [checkInsnTs]
    obtain ⟨d, hd⟩ := isNumber_of_check htypes hscalar (by simpa [hop] using hopen.1)
    rw [execInsn, execAlu32Reg_eq hop hd hs]
    exact setNumber_isSome (alu32_isSome op d s)
  | alu32Imm op dst imm =>
    by_cases hop : op = .mov
    · subst hop
      rfl
    have hscalar : isScalarType (abs dst) = true := by
      cases op <;> simp_all [checkInsnTs]
    obtain ⟨d, hd⟩ := isNumber_of_check htypes hscalar (by simpa [openNeeds, hop] using hopen)
    rw [execInsn, execAlu32Imm_eq hop hd]
    exact setNumber_isSome (alu32_isSome op d _)
  | ldImm64 dst imm => rfl
  | ldx width dst src off => simp [Insn.base] at hbase
  | _ => simp [Insn.writes] at hdst

/-- Comparisons whose operands are comparable are not stuck. -/
theorem execBranch_isSome {offset : Int} (hopen : openNeeds lost st insn = true)
    (hoff : insn.branchOffset = some offset) : (execInsn st insn).isSome = true := by
  cases insn with
  | jmp64Reg op dst src off =>
    simp only [openNeeds, Bool.and_eq_true] at hopen
    obtain ⟨d, hd⟩ := Option.isSome_iff_exists.mp hopen.1
    obtain ⟨s, hs⟩ := Option.isSome_iff_exists.mp hopen.2
    simp [execInsn, execJmp64Reg, hd, hs]
  | jmp64Imm op dst imm off =>
    by_cases hop : op = .jeq ∨ op = .jne
    · cases hreg : st.regs dst <;> simp [execInsn, execJmp64Imm, hop, hreg, regValIsZero]
    · have hnumber : (st.regs dst).isNumber = true := by
        simp only [not_or] at hop
        simpa [openNeeds, hop] using hopen
      obtain ⟨d, hd⟩ := RegVal.isNumber_iff.mp hnumber
      simp [execInsn, execJmp64Imm, hop, hd, scalarVal]
  | jmp32Reg op dst src off =>
    simp only [openNeeds, Bool.and_eq_true] at hopen
    obtain ⟨d, hd⟩ := RegVal.isNumber_iff.mp hopen.1
    obtain ⟨s, hs⟩ := RegVal.isNumber_iff.mp hopen.2
    simp [execInsn, execJmp32Reg, hd, hs, scalarVal]
  | jmp32Imm op dst imm off =>
    obtain ⟨d, hd⟩ := RegVal.isNumber_iff.mp hopen
    simp [execInsn, execJmp32Imm, hd, scalarVal]
  | jmpJa off => rfl
  | _ => simp [Insn.branchOffset] at hoff

/-- **An accepted instruction that the passes see, and whose open needs are met, is not stuck.** -/
theorem execInsn_isSome (hall : AllChecked prog) (hinsn : prog[st.pc.toNat]? = some insn)
    (hseen : AllSeen prog st lost) (hopen : openNeeds lost st insn = true)
    (hcall : insn.isCall = false) : (execInsn st insn).isSome = true := by
  obtain ⟨abs, abs', habs, hcheck, -⟩ := tsAt_of_typeCheck hall.types hinsn
  have htypes : TypesIn abs st.regs lost.types := hseen.types abs habs
  cases insn with
  | ldx width dst src off =>
    simp only [openNeeds, Bool.and_eq_true] at hopen
    obtain ⟨⟨hsound, hkind⟩, hwritten⟩ := hopen
    have hbase : isLoadBase (abs src) = true := by
      by_contra hne
      simp_all [checkInsnTs]
    obtain ⟨hnull, hvalid⟩ := base_sound hall hinsn hseen rfl hsound
    refine execLdxWith_isSome (ne_scalar_of_check htypes hbase hkind) hnull hseen.maps ?_
    intro ptrOff hptr
    obtain ⟨v, hv⟩ := Option.isSome_iff_exists.mp (by simpa [frameWritten, hptr] using hwritten)
    rw [BpfState.stackLoad_eq_some.mpr ⟨hvalid off width ptrOff rfl hptr, hv⟩]
    rfl
  | stx width dst src off =>
    simp only [openNeeds, Bool.and_eq_true] at hopen
    obtain ⟨⟨hsound, hkind⟩, hnumber⟩ := hopen
    have hbases : isStoreBase (abs dst) = true ∧ isScalarType (abs src) = true := by
      by_contra hne
      simp_all [checkInsnTs]
    obtain ⟨s, hs⟩ := isNumber_of_check htypes hbases.2 hnumber
    obtain ⟨hnull, hvalid⟩ := base_sound hall hinsn hseen rfl hsound
    exact execStoreWith_isSome (by simp [hs, scalarVal])
      (isStoreBase_of_check htypes hbases.1 hkind) hnull fun ptrOff => hvalid off width ptrOff rfl
  | st width dst off imm =>
    simp only [openNeeds, Bool.and_eq_true] at hopen
    obtain ⟨hsound, hkind⟩ := hopen
    have hbase : isStoreBase (abs dst) = true := by
      by_contra hne
      simp_all [checkInsnTs]
    have hvalue : (some (signExtendImm imm)).isSome = true := rfl
    obtain ⟨hnull, hvalid⟩ := base_sound hall hinsn hseen rfl hsound
    exact execStoreWith_isSome hvalue (isStoreBase_of_check htypes hbase hkind) hnull
      fun ptrOff => hvalid off width ptrOff rfl
  | call hid => simp [Insn.isCall] at hcall
  | exit => rfl
  | jmp64Reg op dst src off => exact execBranch_isSome hopen rfl
  | jmp64Imm op dst imm off => exact execBranch_isSome hopen rfl
  | jmp32Reg op dst src off => exact execBranch_isSome hopen rfl
  | jmp32Imm op dst imm off => exact execBranch_isSome hopen rfl
  | jmpJa off => rfl
  | _ => exact execAlu_isSome htypes hcheck hopen rfl rfl

/-- The same under a schedule, calls included. -/
theorem execInsnPath_isSome (hall : AllChecked prog) (sched : PathSchedule)
    (hinsn : prog[st.pc.toNat]? = some insn) (hseen : AllSeen prog st lost)
    (hopen : openNeeds lost st insn = true) : (execInsnPath st insn sched).1.isSome = true := by
  cases hcall : insn.isCall with
  | false =>
    have hne : ∀ hid, insn ≠ .call hid := by
      rintro hid rfl
      simp [Insn.isCall] at hcall
    rw [execInsnPath_of_ne_call hne]
    exact execInsn_isSome hall hinsn hseen hopen hcall
  | true =>
    cases insn with
    | call hid =>
      obtain ⟨spec, hspec⟩ := Option.isSome_iff_exists.mp hopen
      simp only [execInsnPath, hspec, execHelperPath_eq]
      split <;> rfl
    | _ => simp [Insn.isCall] at hcall

end

/-- **The passes see every state of a run**, up to what they have lost. -/
theorem allSeen_after (hall : AllChecked prog) {init : BpfState} {sched : PathSchedule}
    (hpc : init.pc = 0) (h10 : init.regs .r10 = .framePtr 0) (h1 : init.regs .r1 = .ctxPtr 0)
    (hmaps : MapsBacked init) {n : ℕ} {c : BpfState × PathSchedule}
    (hc : (pathInterp prog).after n (init, sched) = some c) :
    AllSeen prog c.1 (lostAfter prog init sched n) where
  nulls := (nullsSeen_after hall.nulls hc).1
  frames := framesSeen_after hall.stack h10 hc
  types := typesSeen_after hall.types hpc h10 h1 hc
  maps := mapsBacked_after hmaps hc

end BpfVerifier.Fstar
