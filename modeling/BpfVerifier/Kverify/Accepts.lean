import BpfVerifier.Kverify.Coverage

/-!
# Kverify/Accepts — what an instruction without an error does

`Accepts` lists, one constructor per kind of instruction, what a `transfer` that reports no error
has checked and what it leaves.  Every invariant of the walk is a case analysis on it.
-/

namespace BpfVerifier

/-- The verifier lets the register be read. -/
def Readable (state : VerifierState) (r : Reg) : Prop :=
  r = .r10 ∨ (state.get r).regType ≠ .uninit

theorem checkRegReadable_eq_none {state : VerifierState} {r : Reg} {pc : ℕ}
    {loc : Option SourceLoc} : checkRegReadable state r pc loc = none ↔ Readable state r := by
  unfold checkRegReadable Readable RegState.isReadable
  by_cases h₁ : r = .r10
  · simp [h₁]
  · by_cases h₂ : (state.get r).regType = .uninit <;> simp [h₁, h₂]

/-- **What processing one instruction checks and leaves, when it reports no error.** -/
inductive Accepts (p : Program) (pc : ℕ) (insn : BpfInsn) (state : VerifierState)
    (stack : StackState) (idGen : ℕ) : Outcome → Prop
  | exit : insn.opcode = .exit → checkExit state pc (p.loc pc) = none →
      Accepts p pc insn state stack idGen (.exit none)
  | call {helper : HelperSpec} : insn.opcode = .call → getHelper insn.imm = some helper →
      checkArgs state pc (p.loc pc) helper = none →
      Accepts p pc insn state stack idGen
        (.goto (pc + 1) (clobber (state.set .r0 (callReturn state helper.retType pc idGen).1))
          (trackHelperWrite (state.set .r0 (callReturn state helper.retType pc idGen).1) stack
            helper)
          (callReturn state helper.retType pc idGen).2)
  | ja {t : ℕ} : insn.opcode = .jmpJa → p.target pc insn = some t →
      Accepts p pc insn state stack idGen (.goto t state stack idGen)
  | jmp {op : JmpOp} {src : Source} {t : ℕ} (is32 : Bool) :
      insn.opcode = (if is32 then .jmp32 op src else .jmp64 op src) →
      (∀ r ∈ jmpReads insn src, Readable state r) → p.target pc insn = some t →
      Accepts p pc insn state stack idGen
        (.branch t (pc + 1) (refineBranch ⟨state, stack, state, stack⟩ insn op src is32))
  | alu {op : AluOp} {src : Source} {s : VerifierState} (is64 : Bool) :
      insn.opcode = (if is64 then .alu64 op src else .alu32 op src) →
      (∀ r ∈ aluReads insn op src, Readable state r) →
      checkAlu state insn op src is64 pc (p.loc pc) = .ok s →
      Accepts p pc insn state stack idGen (.goto (pc + 1) s stack idGen)
  | ldImm64 : insn.opcode = .ldImm64 →
      Accepts p pc insn state stack idGen (.goto (pc + 1) (loadImm64 p pc insn state) stack idGen)
  | ldx {width : MemWidth} : insn.opcode = .ldx width → Readable state insn.src →
      accessError (state.get insn.src) insn.src insn.off (widthBytes width) pc (p.loc pc)
        p.sourceLocs = none →
      uninitStackRead stack (state.get insn.src) insn.off (widthBytes width) pc (p.loc pc) = none →
      Accepts p pc insn state stack idGen
        (.goto (pc + 1)
          (state.setAt insn.dst
            (loadResult stack (state.get insn.src) insn.off (widthBytes width)) pc)
          stack idGen)
  | stx {width : MemWidth} : insn.opcode = .stx width → Readable state insn.dst →
      Readable state insn.src →
      storeLeak (state.get insn.dst).regType (state.get insn.src).regType = false →
      accessError (state.get insn.dst) insn.dst insn.off (widthBytes width) pc (p.loc pc)
        p.sourceLocs = none →
      Accepts p pc insn state stack idGen
        (.goto (pc + 1) state
          (storeStack stack (state.get insn.dst) (some (state.get insn.src)) insn.off
            (widthBytes width))
          idGen)
  | st {width : MemWidth} : insn.opcode = .st width → Readable state insn.dst →
      accessError (state.get insn.dst) insn.dst insn.off (widthBytes width) pc (p.loc pc)
        p.sourceLocs = none →
      Accepts p pc insn state stack idGen
        (.goto (pc + 1) state
          (storeStack stack (state.get insn.dst) none insn.off (widthBytes width)) idGen)

/-- Registers that pass leave the continuation to decide. -/
theorem requireReadable_of_error {state : VerifierState} {regs : List Reg} {pc : ℕ}
    {loc : Option SourceLoc} {k : Outcome}
    (h : (requireReadable state regs pc loc k).error = none) :
    (∀ r ∈ regs, Readable state r) ∧ requireReadable state regs pc loc k = k := by
  unfold requireReadable at h ⊢
  split at h
  · cases h
  · next hnone =>
    rw [List.findSome?_eq_none_iff] at hnone
    exact ⟨fun r hr => checkRegReadable_eq_none.mp (hnone r hr), rfl⟩

/-- A check that passes hands its result on. -/
theorem Outcome.ofExcept_of_error {α : Type} {r : Except VerifyError α} {k : α → Outcome}
    (h : (Outcome.ofExcept r k).error = none) : ∃ a, r = .ok a ∧ Outcome.ofExcept r k = k a := by
  cases r with
  | error e => cases h
  | ok a => exact ⟨a, rfl, rfl⟩

theorem checkCall_eq_ok {state : VerifierState} {stack : StackState} {insn : BpfInsn} {pc : ℕ}
    {loc : Option SourceLoc} {idGen : ℕ} {r : VerifierState × StackState × ℕ}
    (h : checkCall state stack insn pc loc idGen = .ok r) :
    ∃ helper, getHelper insn.imm = some helper ∧ checkArgs state pc loc helper = none ∧
      r = (clobber (state.set .r0 (callReturn state helper.retType pc idGen).1),
        trackHelperWrite (state.set .r0 (callReturn state helper.retType pc idGen).1) stack helper,
        (callReturn state helper.retType pc idGen).2) := by
  unfold checkCall at h
  split at h
  · cases h
  · next helper hhelper =>
    split at h
    · cases h
    · next hargs => exact ⟨helper, hhelper, hargs, (Except.ok.inj h).symm⟩

theorem checkLoad_eq_ok {state s : VerifierState} {stack : StackState} {insn : BpfInsn}
    {width : MemWidth} {pc : ℕ} {loc : Option SourceLoc} {locs : List (Option SourceLoc)}
    (h : checkLoad state stack insn width pc loc locs = .ok s) :
    accessError (state.get insn.src) insn.src insn.off (widthBytes width) pc loc locs = none ∧
      uninitStackRead stack (state.get insn.src) insn.off (widthBytes width) pc loc = none ∧
      s = state.setAt insn.dst
        (loadResult stack (state.get insn.src) insn.off (widthBytes width)) pc := by
  unfold checkLoad at h
  dsimp only at h
  split at h
  · cases h
  · next hacc =>
    split at h
    · cases h
    · next hinit => exact ⟨hacc, hinit, (Except.ok.inj h).symm⟩

theorem checkStore_eq_ok {state : VerifierState} {stack k : StackState} {insn : BpfInsn}
    {width : MemWidth} {val : Option RegState} {pc : ℕ} {loc : Option SourceLoc}
    {locs : List (Option SourceLoc)}
    (h : checkStore state stack insn width val pc loc locs = .ok k) :
    (∀ v, val = some v → storeLeak (state.get insn.dst).regType v.regType = false) ∧
      accessError (state.get insn.dst) insn.dst insn.off (widthBytes width) pc loc locs = none ∧
      k = storeStack stack (state.get insn.dst) val insn.off (widthBytes width) := by
  unfold checkStore at h
  dsimp only at h
  split at h
  · cases h
  · next hleak =>
    split at h
    · cases h
    · next hacc =>
      refine ⟨fun v hv => ?_, hacc, (Except.ok.inj h).symm⟩
      simpa [hv] using hleak

/-! ## ALU -/

/-- **The results of a two-operand ALU instruction.** -/
inductive Binary (dst src : RegState) (op : AluOp) (is64 : Bool) : RegState → Prop
  /-- The distance between two pointers is a number. -/
  | distance : dst.regType.isPtr = true → src.regType.isPtr = true → op = .sub →
      Binary dst src op is64 .scalarUnknown
  /-- A pointer is moved by the second operand. -/
  | shift : dst.regType.isPtr = true → src.regType.isPtr = false → op = .add ∨ op = .sub →
      Binary dst src op is64 (.unbounded (shiftPtr dst.regType
        (src.tnum.knownValue.map fun v => if op = .add then v else -v)))
  /-- The second operand is a pointer, moved by the first. -/
  | swap : dst.regType.isPtr = false → src.regType.isPtr = true → op = .add →
      Binary dst src op is64 (.unbounded (shiftPtr src.regType dst.tnum.knownValue))
  | scalar : dst.regType.isPtr = false → ¬(op = .add ∧ src.regType.isPtr = true) →
      Binary dst src op is64 (scalarAlu dst src op is64)

/-- A pointer that a two-operand ALU instruction moves, and the amount if it is known. -/
inductive Moves (dst src : RegState) (op : AluOp) : RegType → Option (BitVec 64) → Prop
  | shift : dst.regType.isPtr = true → src.regType.isPtr = false → op = .add ∨ op = .sub →
      Moves dst src op dst.regType (src.tnum.knownValue.map fun v => if op = .add then v else -v)
  | swap : dst.regType.isPtr = false → src.regType.isPtr = true → op = .add →
      Moves dst src op src.regType dst.tnum.knownValue

theorem binary_of_aluBinary {dst src r : RegState} {op : AluOp} {is64 : Bool} {insn : BpfInsn}
    {pc : ℕ} {loc : Option SourceLoc} (h : aluBinary dst src op is64 insn pc loc = .ok r) :
    Binary dst src op is64 r := by
  unfold aluBinary at h
  dsimp only at h
  split at h
  · next hdst =>
    split at h
    · next hop =>
      split at h
      · next hsrc =>
        split at h
        · next hsub =>
          obtain rfl := Except.ok.inj h
          exact .distance hdst hsrc hsub
        · cases h
      · next hsrc =>
        obtain rfl := Except.ok.inj h
        exact .shift hdst (Bool.eq_false_iff.mpr hsrc) hop
    · cases h
  · next hdst =>
    split at h
    · next hswap =>
      obtain rfl := Except.ok.inj h
      exact .swap (Bool.eq_false_iff.mpr hdst) hswap.2 hswap.1
    · next hswap =>
      obtain rfl := Except.ok.inj h
      exact .scalar (Bool.eq_false_iff.mpr hdst) hswap

/-- **The results of an ALU instruction**, with the operand checks it has passed. -/
inductive AluResult (state : VerifierState) (insn : BpfInsn) (op : AluOp) (src : Source)
    (is64 : Bool) : RegState → Prop
  | mov : op = .mov →
      AluResult state insn op src is64 (movState (aluSrcState state insn src is64) src is64)
  | neg : op = .neg → (state.get insn.dst).regType.isPtr = false →
      AluResult state insn op src is64 .scalarUnknown
  | binary {r : RegState} : op ≠ .mov → op ≠ .neg →
      (op = .div ∨ op = .mod → divByZero state insn src = none) →
      (op = .lsh ∨ op = .rsh ∨ op = .arsh → shiftOverflow state insn src is64 = none) →
      Binary (state.get insn.dst) (aluSrcState state insn src is64) op is64 r →
      AluResult state insn op src is64 r

theorem checkAlu_eq_ok {state s : VerifierState} {insn : BpfInsn} {op : AluOp} {src : Source}
    {is64 : Bool} {pc : ℕ} {loc : Option SourceLoc}
    (h : checkAlu state insn op src is64 pc loc = .ok s) :
    ∃ r, AluResult state insn op src is64 r ∧ s = state.setAt insn.dst r pc := by
  unfold checkAlu at h
  dsimp only at h
  split at h
  · exact ⟨_, .mov rfl, (Except.ok.inj h).symm⟩
  · split at h
    · cases h
    · next hptr =>
      exact ⟨_, .neg rfl (Bool.eq_false_iff.mpr hptr), (Except.ok.inj h).symm⟩
  · next hmov hneg =>
    split at h
    · cases h
    · next hdiv =>
      split at h
      · cases h
      · next hshift =>
        split at h
        · cases h
        · next r hr =>
          refine ⟨r, .binary hmov hneg ?_ ?_ (binary_of_aluBinary hr), (Except.ok.inj h).symm⟩
          · intro hop
            simpa [hop] using hdiv
          · intro hop
            simpa [hop] using hshift

section

variable {p : Program} {pc : ℕ} {insn : BpfInsn} {state : VerifierState} {stack : StackState}
  {idGen : ℕ}

theorem accepts_jump {op : JmpOp} {src : Source} (is32 : Bool)
    (hop : insn.opcode = if is32 then .jmp32 op src else .jmp64 op src)
    (h : (jump p pc insn op src is32 state stack).error = none) :
    Accepts p pc insn state stack idGen (jump p pc insn op src is32 state stack) := by
  obtain ⟨hreads, heq⟩ := requireReadable_of_error h
  unfold jump
  rw [heq]
  rw [jump, heq] at h
  split at h
  · cases h
  · next t ht => exact .jmp is32 hop hreads ht

theorem accepts_alu {op : AluOp} {src : Source} (is64 : Bool)
    (hop : insn.opcode = if is64 then .alu64 op src else .alu32 op src)
    (h : (alu p pc insn op src is64 state stack idGen).error = none) :
    Accepts p pc insn state stack idGen (alu p pc insn op src is64 state stack idGen) := by
  obtain ⟨hreads, heq⟩ := requireReadable_of_error h
  unfold alu
  rw [heq]
  rw [alu, heq] at h
  obtain ⟨s, hs, heq'⟩ := Outcome.ofExcept_of_error h
  rw [heq']
  exact .alu is64 hop hreads hs

/-- **A transfer without an error is one of the accepted cases.** -/
theorem accepts_of_error (h : (transfer p pc insn state stack idGen).error = none) :
    Accepts p pc insn state stack idGen (transfer p pc insn state stack idGen) := by
  unfold transfer at h ⊢
  cases hop : insn.opcode with
  | unknown raw => simp [hop, Outcome.error] at h
  | exit =>
    simp only [hop, Outcome.error] at h ⊢
    rw [h]
    exact .exit hop h
  | call =>
    simp only [hop] at h ⊢
    obtain ⟨r, hr, heq⟩ := Outcome.ofExcept_of_error h
    obtain ⟨helper, hhelper, hargs, rfl⟩ := checkCall_eq_ok hr
    rw [heq]
    exact .call hop hhelper hargs
  | jmpJa =>
    simp only [hop] at h ⊢
    cases ht : p.target pc insn with
    | none => simp [ht, Outcome.error] at h
    | some t => exact .ja hop ht
  | jmp64 op src =>
    simp only [hop] at h ⊢
    exact accepts_jump false (by simpa using hop) h
  | jmp32 op src =>
    simp only [hop] at h ⊢
    exact accepts_jump true (by simpa using hop) h
  | alu64 op src =>
    simp only [hop] at h ⊢
    exact accepts_alu true (by simpa using hop) h
  | alu32 op src =>
    simp only [hop] at h ⊢
    exact accepts_alu false (by simpa using hop) h
  | ldImm64 => exact .ldImm64 hop
  | ldx width =>
    simp only [hop] at h ⊢
    obtain ⟨hreads, heq⟩ := requireReadable_of_error h
    rw [heq] at h ⊢
    obtain ⟨s, hs, heq'⟩ := Outcome.ofExcept_of_error h
    obtain ⟨hacc, hinit, rfl⟩ := checkLoad_eq_ok hs
    rw [heq']
    exact .ldx hop (hreads _ (by simp)) hacc hinit
  | stx width =>
    simp only [hop] at h ⊢
    obtain ⟨hreads, heq⟩ := requireReadable_of_error h
    rw [heq] at h ⊢
    obtain ⟨k, hk, heq'⟩ := Outcome.ofExcept_of_error h
    obtain ⟨hleak, hacc, rfl⟩ := checkStore_eq_ok hk
    rw [heq']
    exact .stx hop (hreads _ (by simp)) (hreads _ (by simp)) (hleak _ rfl) hacc
  | st width =>
    simp only [hop] at h ⊢
    obtain ⟨hreads, heq⟩ := requireReadable_of_error h
    rw [heq] at h ⊢
    obtain ⟨k, hk, heq'⟩ := Outcome.ofExcept_of_error h
    obtain ⟨-, hacc, rfl⟩ := checkStore_eq_ok hk
    rw [heq']
    exact .st hop (hreads _ (by simp)) hacc

end

/-- The outcome of a visit without an error. -/
theorem Visit.accepts {p : Program} {v : Visit} (h : (v.outcome p).error = none) :
    Accepts p v.pc v.insn v.state v.stack v.idGen (v.outcome p) := accepts_of_error h

/-! ## Calls -/

/-- The arguments a call has passed are initialised and of the declared types. -/
theorem arg_of_checkArgs {state : VerifierState} {pc : ℕ} {loc : Option SourceLoc}
    {helper : HelperSpec} (h : checkArgs state pc loc helper = none) {reg : Reg} {a : ArgType}
    (hmem : (reg, some a) ∈ argRegs.zip helper.args) :
    (state.get reg).regType ≠ .uninit ∧ a.accepts (state.get reg).regType = true := by
  obtain ⟨i, hi⟩ := List.getElem?_of_mem hmem
  have hzip : ((reg, some a), i) ∈ (argRegs.zip helper.args).zipIdx :=
    List.mem_zipIdx_iff_getElem?.mpr hi
  have hnone := List.findSome?_eq_none_iff.mp h _ hzip
  simp only [Option.bind_some] at hnone
  unfold checkArg at hnone
  dsimp only at hnone
  split at hnone
  · cases hnone
  · next hinit =>
    split at hnone
    · next hacc => exact ⟨hinit, hacc⟩
    · cases hnone

/-- An accepted call names a helper of the table and has checked its arguments. -/
theorem Accepts.exists_helper {p : Program} {pc idGen : ℕ} {insn : BpfInsn}
    {state : VerifierState} {stack : StackState} {o : Outcome}
    (h : Accepts p pc insn state stack idGen o) (hop : insn.opcode = .call) :
    ∃ helper, getHelper insn.imm = some helper ∧ checkArgs state pc (p.loc pc) helper = none := by
  cases h with
  | call _ hhelper hargs => exact ⟨_, hhelper, hargs⟩
  | jmp is32 hop' _ _ => cases is32 <;> simp [hop] at hop'
  | alu is64 hop' _ _ => cases is64 <;> simp [hop] at hop'
  | _ => simp_all

theorem Accepts.args {p : Program} {pc idGen : ℕ} {insn : BpfInsn} {state : VerifierState}
    {stack : StackState} {o : Outcome} (h : Accepts p pc insn state stack idGen o)
    (hop : insn.opcode = .call) {helper : HelperSpec} (hhelper : getHelper insn.imm = some helper) :
    checkArgs state pc (p.loc pc) helper = none := by
  obtain ⟨helper', hhelper', hargs⟩ := h.exists_helper hop
  obtain rfl := Option.some.inj (hhelper'.symm.trans hhelper)
  exact hargs

theorem get_clobber (s : VerifierState) (r : Reg) :
    (clobber s).get r = if r ∈ argRegs then .uninit else s.get r := by
  simp only [clobber, argRegs, List.foldl_cons, List.foldl_nil, VerifierState.get_set]
  cases r <;> simp

end BpfVerifier
