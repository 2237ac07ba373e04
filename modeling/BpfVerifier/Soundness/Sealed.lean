import BpfVerifier.Soundness.Simulation

/-!
# Soundness/Sealed — where pointers may be

A state is sealed when no register typed as a scalar holds a pointer, every pointer in the frame is
a tracked spill, and none is stored outside the frame.  A few transfers can break the seal without
losing a value; those that do not (`transferSeals`) keep it from one state to the next
(`Accepts.seals`).
-/

namespace BpfVerifier

open Loop

variable {p : Program} {L : Layout} {sized : ℕ → BitVec 32 → BitVec 64 → Prop} {ρ : ℕ → Val}
  {state state' : VerifierState} {stack stack' : StackState} {s s' : MState} {n pc : ℕ}
  {insn : BpfInsn}

/-! ## Transfers that keep the seal -/

/-- The types of numbers. -/
def RegType.isNumber : RegType → Bool
  | scalar | null => true
  | _ => false

/-- A result typed as a scalar is computed from numbers, or is the distance of two pointers. -/
def aluSeals (state : VerifierState) (insn : BpfInsn) (op : AluOp) (src : Source)
    (is64 : Bool) : Bool :=
  let dst := (state.get insn.dst).regType
  let operand := (aluSrcState state insn src is64).regType
  match op with
  | .mov => src = .imm || is64 || operand.isNumber
  | .neg => true
  | _ =>
    if dst.isPtr then if operand.isPtr then operand ≠ .kernelPtr else operand.isNumber
    else dst.isNumber && (operand.isNumber || (op = .add && operand.isPtr))

/-- A full store puts a pointer into the frame only, or where loads expect one. -/
def storeSeals (base val : RegType) (width : MemWidth) : Bool :=
  match base with
  | .framePtr _ => val ≠ .uninit
  | .mapValuePtr .. | .ringBufPtr .. | .dataPtr _ => width ≠ .dw || val.isNumber
  | _ => true

/-- Processing the instruction lets no pointer pass for a number. -/
def transferSeals (insn : BpfInsn) (state : VerifierState) : Bool :=
  match insn.opcode with
  | .alu64 op src => aluSeals state insn op src true
  | .alu32 op src => aluSeals state insn op src false
  | .stx width => storeSeals (state.get insn.dst).regType (state.get insn.src).regType width
  | _ => true

/-- What is asked of the operations other than MOV and NEG. -/
theorem aluSeals_of_binary {op : AluOp} {src : Source} {is64 : Bool} (hmov : op ≠ .mov)
    (hneg : op ≠ .neg) :
    aluSeals state insn op src is64
      = if (state.get insn.dst).regType.isPtr then
          if (aluSrcState state insn src is64).regType.isPtr then
            decide ((aluSrcState state insn src is64).regType ≠ .kernelPtr)
          else (aluSrcState state insn src is64).regType.isNumber
        else (state.get insn.dst).regType.isNumber &&
          ((aluSrcState state insn src is64).regType.isNumber ||
            (op = .add && (aluSrcState state insn src is64).regType.isPtr)) := by
  unfold aluSeals
  split
  · exact absurd rfl hmov
  · exact absurd rfl hneg
  · rfl

theorem transferSeals_alu {op : AluOp} {src : Source} {is64 : Bool}
    (hop : insn.opcode = if is64 then .alu64 op src else .alu32 op src) (state : VerifierState) :
    transferSeals insn state = aluSeals state insn op src is64 := by
  cases is64 <;> simp only [transferSeals, hop, Bool.false_eq_true, if_false, if_true]

/-! ## Sealed states -/

/-- **Pointers are where the verifier knows of them.** -/
structure Sealed (state : VerifierState) (stack : StackState) (s : MState) : Prop where
  regs : ∀ r, (state.get r).regType = .scalar → (s.regs r).isPtr = false
  frame : ∀ k, (readFrame s.frame k .dw).isPtr = true →
    ∃ q, stack.getSpill k = some q ∧ q.regType ≠ .scalar
  stored : ∀ v ∈ s.stored, v.isPtr = false

/-- A register typed as a number holds none. -/
theorem Sealed.isPtr_eq (h : Sealed state stack s) (hd : DescribesWith L sized ρ state stack s)
    {r : Reg} (hr : (state.get r).regType.isNumber = true) : (s.regs r).isPtr = false := by
  cases ht : (state.get r).regType with
  | scalar => exact h.regs r ht
  | null =>
    have htype := (hd.regs r).type
    rw [ht] at htype
    exact Val.IsNull.isPtr_eq htype
  | _ => simp [ht, RegType.isNumber] at hr

theorem Sealed.operand (h : Sealed state stack s) (hd : DescribesWith L sized ρ state stack s)
    {src : Source} {is64 : Bool}
    (hr : (aluSrcState state insn src is64).regType.isNumber = true) :
    (s.operand insn src is64).isPtr = false := by
  cases src with
  | imm => rfl
  | reg => exact h.isPtr_eq hd hr

/-- Writing a register keeps the seal, if a scalar is no pointer. -/
theorem Sealed.advance (h : Sealed state stack s) (dst : Reg) {r : RegState} {v : Val}
    (hv : r.regType = .scalar → v.isPtr = false) :
    Sealed (state.set dst r) stack (s.advance dst v) where
  regs q hq := by
    rw [VerifierState.get_set] at hq
    rw [MState.regs_advance]
    split at hq
    · next heq =>
      rw [if_pos heq]
      exact hv hq
    · next hne =>
      rw [if_neg hne]
      exact h.regs q hq
  frame := h.frame
  stored := h.stored

/-- Moving on keeps the seal. -/
theorem Sealed.withPc (h : Sealed state stack s) (pc : ℕ) :
    Sealed state stack { s with pc := pc } := ⟨h.regs, h.frame, h.stored⟩

/-! ## ALU results -/

/-- An operation on numbers makes no pointer. -/
theorem isPtr_aluVal {is64 : Bool} {op : AluOp} {v w : Val} (hv : v.isPtr = false)
    (hw : w.isPtr = false) : (aluVal is64 op v w).isPtr = false := by
  have hprov (bits : BitVec 64) : (aluProv op v w bits).isPtr = false := by
    have hw' : w.prov.isPtr = false := hw
    cases op <;> simp only [aluProv, hv, hw, Bool.false_and, Bool.false_eq_true, if_false]
    all_goals first | rfl | skip
    split
    · exact hw'
    · rfl
  exact hprov _

/-- A move of a number makes no pointer. -/
theorem isPtr_aluVal_mov {is64 : Bool} {v w : Val} (hw : w.isPtr = false) :
    (aluVal is64 .mov v w).isPtr = false := by
  change (if aluBits is64 .mov v.bits w.bits = w.bits then w.prov else .number).isPtr = false
  split
  · exact hw
  · rfl

/-- The distance of two pointers is no pointer. -/
theorem isPtr_aluVal_sub {is64 : Bool} {v w : Val} (hw : w.isPtr = true) :
    (aluVal is64 .sub v w).isPtr = false := by
  change (if v.isPtr && !w.isPtr then v.prov else .number).isPtr = false
  rw [hw, Bool.not_true, Bool.and_false, if_neg Bool.false_ne_true]
  rfl

/-- A tracked pointer other than a kernel pointer is one. -/
theorem PointsTo.isPtr {t : RegType} {v : Val} (h : PointsTo L sized t v) (ht : t ≠ .kernelPtr) :
    v.isPtr = true := by
  cases h with
  | kernel _ => exact absurd rfl ht
  | _ => rfl

/-- A moved pointer is typed as one. -/
theorem shiftPtr_ne_scalar {t : RegType} (ht : t.isPtr = true) (delta : Option (BitVec 64)) :
    shiftPtr t delta ≠ .scalar := by
  cases t <;> cases delta <;> simp_all [shiftPtr, RegType.isPtr]

/-- **An ALU result typed as a scalar is no pointer.** -/
theorem Sealed.aluResult (h : Sealed state stack s) (hd : DescribesWith L sized ρ state stack s)
    {op : AluOp} {src : Source} {is64 : Bool} {r : RegState}
    (hr : AluResult state insn op src is64 r) (hex : aluSeals state insn op src is64 = true)
    (hscalar : r.regType = .scalar) :
    (aluVal is64 op (s.regs insn.dst) (s.operand insn src is64)).isPtr = false := by
  cases hr with
  | mov hmov =>
    subst hmov
    cases src with
    | imm => exact isPtr_aluVal_mov rfl
    | reg =>
      cases is64 with
      | true =>
        rw [aluVal_mov]
        exact h.regs insn.src hscalar
      | false => exact isPtr_aluVal_mov (h.operand hd (by simpa [aluSeals] using hex))
  | neg hneg _ =>
    subst hneg
    rfl
  | binary hmov hneg _ _ hb =>
    rw [aluSeals_of_binary hmov hneg] at hex
    cases hb with
    | distance hdst hsrc hsub =>
      subst hsub
      rw [if_pos hdst, if_pos hsrc, decide_eq_true_eq] at hex
      exact isPtr_aluVal_sub (((hd.operand insn src is64).type.pointsTo hsrc).isPtr hex)
    | shift hdst _ _ => exact absurd hscalar (shiftPtr_ne_scalar hdst _)
    | swap _ hsrc _ => exact absurd hscalar (shiftPtr_ne_scalar hsrc _)
    | scalar hdst hsrc =>
      rw [if_neg (by simp [hdst]), Bool.and_eq_true, Bool.or_eq_true, Bool.and_eq_true,
        decide_eq_true_eq] at hex
      obtain ⟨hnum, hnum'⟩ := hex
      replace hnum' := hnum'.resolve_right hsrc
      exact isPtr_aluVal (h.isPtr_eq hd hnum) (h.operand hd hnum')

/-- **A sealed state mixes no pointers**: what is added to a pointer is a number. -/
theorem Sealed.unmixedAt (h : Sealed state stack s) (hd : DescribesWith L sized ρ state stack s)
    (hex : transferSeals insn state = true) : UnmixedAt state insn s := by
  intro op is64 hop q hq
  rw [transferSeals_alu hop] at hex
  have hsrc : (aluSrcState state insn .reg is64).regType = (state.get insn.src).regType := rfl
  unfold addend at hq
  dsimp only at hq
  split at hq
  · next hcond =>
    obtain rfl := Option.some.inj hq
    simp only [Bool.and_eq_true, Bool.not_eq_true', Bool.or_eq_true, decide_eq_true_eq] at hcond
    obtain ⟨⟨hdst, hsrc'⟩, hadd⟩ := hcond
    rw [aluSeals_of_binary (by rintro rfl; simp at hadd) (by rintro rfl; simp at hadd), hsrc,
      if_pos hdst, if_neg (by simp [hsrc'])] at hex
    exact h.isPtr_eq hd hex
  · split at hq
    · next hcond =>
      obtain rfl := Option.some.inj hq
      simp only [Bool.and_eq_true, Bool.not_eq_true', decide_eq_true_eq] at hcond
      obtain ⟨⟨hdst, -⟩, rfl⟩ := hcond
      rw [aluSeals_of_binary (by decide) (by decide), if_neg (by simp [hdst])] at hex
      exact h.isPtr_eq hd (Bool.and_eq_true_iff.mp hex).1
    · cases hq

/-! ## The frame -/

/-- **A pointer read after a write** was there before, untouched, or begins at the write. -/
theorem isPtr_readFrame_overwrite {f : BitVec 64 → Frag} {o k : BitVec 64} {m : ℕ} {new : ℕ → Frag}
    (hnew : ∀ j, (new j).idx = j ∨ (new j).val.isPtr = false)
    (h : (readFrame (overwrite f o m new) k .dw).isPtr = true) :
    ((readFrame f k .dw).isPtr = true ∧ ∀ i < 8, m ≤ (k + BitVec.ofNat 64 i - o).toNat) ∨
      (k = o ∧ ∃ j < m, (new j).val.isPtr = true) := by
  have hwhole : wholeAt (overwrite f o m new) k = true ∧
      (overwrite f o m new k).val.isPtr = true := by
    unfold readFrame at h
    split at h
    · next hcond => exact ⟨(Bool.and_eq_true_iff.mp hcond).2, h⟩
    · cases h
  obtain ⟨hall, hptr⟩ := hwhole
  simp only [wholeAt, List.all_eq_true, List.mem_range, decide_eq_true_eq] at hall
  by_cases hfree : ∀ i < 8, m ≤ (k + BitVec.ofNat 64 i - o).toNat
  · rw [readFrame_congr fun i hi => overwrite_of_le (hfree i hi)] at h
    exact Or.inl ⟨h, hfree⟩
  · right
    obtain ⟨i, hnot⟩ := not_forall.mp hfree
    obtain ⟨hi, hle⟩ := Classical.not_imp.mp hnot
    have hlt := Nat.not_le.mp hle
    have hbyte := hall i hi
    rw [overwrite, if_pos hlt] at hbyte
    -- the written byte is byte `i` of the pointer, so the write begins at `k`
    have hval : (new (k + BitVec.ofNat 64 i - o).toNat).val.isPtr = true := by
      rw [hbyte]
      exact hptr
    have hidx : i = (k + BitVec.ofNat 64 i - o).toNat := by
      rcases hnew (k + BitVec.ofNat 64 i - o).toNat with hj | hj
      · rw [← hj, hbyte]
      · rw [hj] at hval
        cases hval
    refine ⟨?_, _, hlt, hval⟩
    have hzero : k + BitVec.ofNat 64 i - o = BitVec.ofNat 64 i := by
      refine BitVec.eq_of_toNat_eq ?_
      rw [← hidx, BitVec.toNat_ofNat, Nat.mod_eq_of_lt (show i < 2 ^ 64 by omega)]
    have hadd : k + BitVec.ofNat 64 i = o + BitVec.ofNat 64 i := by
      rw [BitVec.add_comm o]
      exact BitVec.sub_eq_iff_eq_add.mp hzero
    simpa using hadd

/-- **A write to the frame keeps the seal** if the pointers it leaves alone stay tracked, and one it
writes is. -/
theorem Sealed.writeFrame (h : Sealed state stack s) {o : BitVec 64} {m : ℕ} {new : ℕ → Frag}
    {written : BitVec 64 → Bool} (hnew : ∀ j, (new j).idx = j ∨ (new j).val.isPtr = false)
    (hold : ∀ k q, (0 < m → k ≠ o) → stack.getSpill k = some q → q.regType ≠ .scalar →
      ∃ q', stack'.getSpill k = some q' ∧ q'.regType ≠ .scalar)
    (hptr : ∀ j, (new j).val.isPtr = true →
      ∃ q, stack'.getSpill o = some q ∧ q.regType ≠ .scalar) :
    Sealed state stack' { s with frame := overwrite s.frame o m new, written := written } where
  regs := h.regs
  frame k hk := by
    rcases isPtr_readFrame_overwrite hnew hk with ⟨hread, hfree⟩ | ⟨rfl, j, -, hj⟩
    · obtain ⟨q, hq, hne⟩ := h.frame k hread
      refine hold k q (fun hm heq => ?_) hq hne
      have hfirst := hfree 0 (by decide)
      simp only [heq, BitVec.add_zero, BitVec.sub_self, BitVec.toNat_zero] at hfirst
      omega
    · exact hptr j hj
  stored := h.stored

/-! ## Loads and stores -/

/-- A narrow read of the frame is a number. -/
theorem isPtr_readFrame_of_ne {f : BitVec 64 → Frag} {o : BitVec 64} {width : MemWidth}
    (h : width ≠ .dw) : (readFrame f o width).isPtr = false := by
  rw [readFrame, decide_eq_false h, Bool.false_and, if_neg Bool.false_ne_true]
  rfl

/-- **A load typed as a scalar is no pointer.** -/
theorem Sealed.load (h : Sealed state stack s) (hd : DescribesWith L sized ρ state stack s)
    {base : Reg} {off : BitVec 64} {width : MemWidth}
    (hbase : (state.get base).regType.isPtr = true) (ω : Oracle)
    (hscalar :
      (loadResult stack (state.get base) off (widthBytes width)).regType = .scalar) :
    (s.loadVal L ω (s.regs base) off width).isPtr = false := by
  have hpoints := (hd.regs base).type.pointsTo hbase
  unfold loadResult at hscalar
  -- context and kernel memory: an 8-byte load is typed as a pointer
  have hkernel (hs : (if widthBytes width = 8 then RegState.kernelPtr
      else .scalarUnknown).regType = .scalar) : width ≠ .dw := by
    rintro rfl
    cases hs
  have hreload : (if width = .dw then (ω.reload.bind fun i => s.stored[i]?).getD (.number ω.bits)
      else .number (MState.truncate width ω.bits)).isPtr = false := by
    split
    · cases hr : ω.reload.bind fun i => s.stored[i]? with
      | none => rfl
      | some v =>
        obtain ⟨i, -, hi⟩ := Option.bind_eq_some_iff.mp hr
        exact h.stored v (List.mem_of_getElem? hi)
    · rfl
  generalize (state.get base).regType = t at hpoints hscalar
  generalize s.regs base = v at hpoints ⊢
  cases hpoints with
  | frame o =>
    simp only [MState.loadVal, L.offset_add]
    by_cases hw : width = .dw
    · subst hw
      rw [Bool.eq_false_iff]
      intro hread
      obtain ⟨q, hq, hne⟩ := h.frame _ hread
      simp only [widthBytes, if_true, hq, Option.getD_some] at hscalar
      exact hne hscalar
    · exact isPtr_readFrame_of_ne hw
  | ctx o =>
    simp only [MState.loadVal, hkernel hscalar, decide_false, Bool.false_and,
      Bool.false_eq_true, if_false]
    rfl
  | kernel hk =>
    rcases hk with hk | hk
    all_goals
      simp only [MState.loadVal, hk, hkernel hscalar, decide_false, Bool.false_and,
        Bool.false_eq_true, if_false]
      rfl
  | _ => exact hreload

/-- A number may be stored outside the frame. -/
theorem Sealed.stash (h : Sealed state stack s) {width : MemWidth} {v : Val}
    (hv : width = .dw → v.isPtr = false) :
    Sealed state stack (if width = .dw then { s with stored := s.stored ++ [v] } else s) := by
  split
  · next hw =>
    refine ⟨h.regs, h.frame, fun w hmem => ?_⟩
    rcases List.mem_append.mp hmem with hmem | hmem
    · exact h.stored w hmem
    · obtain rfl := List.mem_singleton.mp hmem
      exact hv hw
  · exact h

/-- Only the bytes of a full store are a pointer's. -/
theorem of_isPtr_storeFrag {v : Val} {width : MemWidth} {j : ℕ}
    (h : (storeFrag v width j).val.isPtr = true) : width = .dw ∧ v.isPtr = true := by
  unfold storeFrag at h
  dsimp only at h
  split at h
  · next hw => exact ⟨hw, h⟩
  · cases h

/-- A pointer is spilled where it is stored, if it is typed as one. -/
theorem RegType.isNumber_of_not_ptr {t : RegType} (hu : t ≠ .uninit)
    (h : ¬(t.isPtr = true ∨ t.isPtrOrNull = true)) : t.isNumber = true := by
  cases t <;> simp_all [RegType.isPtr, RegType.isPtrOrNull, RegType.isNumber]

/-- **An accepted store keeps the seal**, if a pointer is stored where loads expect one. -/
theorem Sealed.store (h : Sealed state stack s) (hd : DescribesWith L sized ρ state stack s)
    {base : Reg} {off : BitVec 64} {width : MemWidth} {val : Option RegState} {v : Val}
    (hbase : (state.get base).regType.isPtr = true)
    (hval : (∀ r, val = some r → r.regType.isNumber = true) → v.isPtr = false)
    (hex : ∀ r, val = some r → storeSeals (state.get base).regType r.regType width = true) :
    Sealed state (storeStack stack (state.get base) val off (widthBytes width))
      (s.storeVal L (s.regs base) off width v) := by
  have hpoints := (hd.regs base).type.pointsTo hbase
  unfold storeStack
  generalize (state.get base).regType = t at hpoints hex
  generalize s.regs base = b at hpoints
  -- outside the frame
  have hstash (hnum : ∀ r, val = some r → (width ≠ .dw || r.regType.isNumber) = true) :
      Sealed state stack (if width = .dw then { s with stored := s.stored ++ [v] } else s) := by
    refine h.stash fun hw => hval fun r hr => ?_
    simpa [hw] using hnum r hr
  cases hpoints with
  | frame o =>
    have hpos := widthBytes_pos width
    simp only [MState.storeVal, L.offset_add]
    have hplain (hnum : width = .dw → v.isPtr = false) (written : BitVec 64 → Bool) :
        Sealed state ((stack.clearSpill (o + off)).markWritten (o + off) (widthBytes width))
          { s with
            frame := overwrite s.frame (o + off) (widthBytes width) (storeFrag v width)
            written := written } := by
      refine h.writeFrame (fun j => Or.inl rfl) (fun k q hk hq hne => ⟨q, ?_, hne⟩) fun j hj => ?_
      · rw [StackState.getSpill_markWritten, StackState.getSpill_clearSpill, if_neg (hk hpos), hq]
      · obtain ⟨hw, hv⟩ := of_isPtr_storeFrag hj
        rw [hnum hw] at hv
        cases hv
    split
    · next r =>
      split
      · next hspill =>
        refine h.writeFrame (fun j => Or.inl rfl) (fun k q hk hq hne => ⟨q, ?_, hne⟩)
          fun j _ => ⟨r, ?_, ?_⟩
        · rw [StackState.getSpill_spill, if_neg (hk hpos), hq]
        · rw [StackState.getSpill_spill, if_pos rfl]
        · intro hr
          rw [hr] at hspill
          simp [RegType.isPtr, RegType.isPtrOrNull] at hspill
      · next hspill =>
        refine hplain (fun hw => hval fun q hq => ?_) _
        obtain rfl := Option.some.inj hq
        have hinit : r.regType ≠ .uninit := by simpa [storeSeals] using hex r rfl
        subst hw
        exact RegType.isNumber_of_not_ptr hinit fun hptr => hspill ⟨rfl, hptr⟩
    · exact hplain (fun _ => hval fun q hq => by cases hq) _
  | ctx o => exact h
  | kernel hk =>
    rcases hk with hk | hk
    all_goals
      simp only [MState.storeVal, hk]
      exact h
  | _ => exact hstash hex

/-! ## Helper calls -/

/-- Tracking what a helper writes forgets no spilled pointer. -/
theorem exists_getSpill_trackHelperWrite {helper : HelperSpec} {k : BitVec 64} {q : RegState}
    (hq : stack.getSpill k = some q) (hne : q.regType ≠ .scalar) :
    ∃ q', (trackHelperWrite state stack helper).getSpill k = some q' ∧ q'.regType ≠ .scalar := by
  cases hw : writesArg1 helper with
  | false => exact ⟨q, by rw [trackHelperWrite_of_not_writes hw, hq], hne⟩
  | true =>
    cases ht : (state.get .r1).regType with
    | framePtr o =>
      rw [getSpill_trackHelperWrite ht hw]
      split
      · exact ⟨.kernelPtr, rfl, by decide⟩
      · exact ⟨q, hq, hne⟩
    | _ => exact ⟨q, by simp only [trackHelperWrite, ht, hq], hne⟩

/-- Filling the output buffer keeps the seal: it writes plain data. -/
theorem Sealed.fillBuffer (h : Sealed state stack s) (ω : Oracle) (helper : HelperSpec) :
    Sealed state (trackHelperWrite state stack helper) (s.fillBuffer L ω helper) := by
  have hsame : Sealed state (trackHelperWrite state stack helper) s := by
    refine ⟨h.regs, fun k hk => ?_, h.stored⟩
    obtain ⟨q, hq, hne⟩ := h.frame k hk
    exact exists_getSpill_trackHelperWrite hq hne
  unfold MState.fillBuffer
  split
  · split
    · exact h.writeFrame (fun j => Or.inr rfl)
        (fun k q _ hq hne => exists_getSpill_trackHelperWrite hq hne) fun j hj => by cases hj
    · exact hsame
  · exact hsame

/-- A result typed as a scalar is a number. -/
theorem isPtr_returned (ω : Oracle) {ret : HelperReturn} {pc : ℕ}
    (h : (callReturn state ret pc n).1.regType = .scalar) :
    (s.returned L ω ret).isPtr = false := by
  cases ret with
  | scalar => rfl
  | errorCode => rfl
  | _ => cases h

/-- **A helper call keeps the seal.** -/
theorem Sealed.call (h : Sealed state stack s) (ω : Oracle) (helper : HelperSpec) :
    Sealed (clobber (state.set .r0 (callReturn state helper.retType s.pc n).1))
      (trackHelperWrite (state.set .r0 (callReturn state helper.retType s.pc n).1) stack helper)
      (s.callHelper L ω helper) := by
  have hfill := (h.fillBuffer ω helper : Sealed state _ (s.fillBuffer L ω helper))
  rw [trackHelperWrite_set_r0]
  refine ⟨fun r hr => ?_, hfill.frame, hfill.stored⟩
  rw [get_clobber, VerifierState.get_set] at hr
  unfold MState.callHelper
  dsimp only
  by_cases hr0 : r = .r0
  · rw [if_neg (by simp [hr0, argRegs]), if_pos hr0] at hr
    rw [if_pos hr0]
    exact isPtr_returned ω hr
  · rw [if_neg hr0] at hr ⊢
    split at hr
    · cases hr
    · next harg =>
      rw [if_neg harg]
      exact h.regs r hr

/-! ## Branches -/

/-- Resolving a nullable pointer makes no scalar. -/
theorem regType_of_refineWithId {ptrId : ℕ} {newType : RegType} (hnew : newType ≠ .scalar)
    {r : RegState} (h : (refineWithId ptrId newType r).regType = .scalar) :
    r.regType = .scalar := by
  unfold refineWithId at h
  split at h
  · next ht =>
    split at h
    · split at h
      · cases h
      · exact absurd h hnew
    · exact h
  · exact h

theorem Sealed.refineWithId (h : Sealed state stack s) {ptrId : ℕ} {newType : RegType}
    (hnew : newType ≠ .scalar) :
    Sealed (refineAllWithId state ptrId newType) (refineSpillsWithId stack ptrId newType) s where
  regs r hr := h.regs r (regType_of_refineWithId hnew hr)
  frame k hk := by
    obtain ⟨q, hq, hne⟩ := h.frame k hk
    refine ⟨BpfVerifier.refineWithId ptrId newType q, ?_, fun hr => ?_⟩
    · rw [getSpill_refineSpillsWithId, hq, Option.map_some]
    · exact hne (regType_of_refineWithId hnew hr)
  stored := h.stored

/-- Narrowing a scalar keeps the seal. -/
theorem Sealed.narrow (h : Sealed state stack s) {dst : Reg}
    (ht : (state.get dst).regType = .scalar) (r : RegState) : Sealed (state.set dst r) stack s where
  regs q hq := by
    rw [VerifierState.get_set] at hq
    split at hq
    · next heq =>
      rw [heq]
      exact h.regs dst ht
    · exact h.regs q hq
  frame := h.frame
  stored := h.stored

/-- **Both edges of a conditional jump keep the seal.** -/
theorem Sealed.refineBranch (h : Sealed state stack s) (hwf : StateWf n state stack)
    (insn : BpfInsn) (op : JmpOp) (src : Source) (is32 : Bool) :
    Sealed (refineBranch ⟨state, stack, state, stack⟩ insn op src is32).taken
        (refineBranch ⟨state, stack, state, stack⟩ insn op src is32).takenStack s ∧
      Sealed (refineBranch ⟨state, stack, state, stack⟩ insn op src is32).fall
        (refineBranch ⟨state, stack, state, stack⟩ insn op src is32).fallStack s := by
  unfold BpfVerifier.refineBranch
  split
  · next val inner pc id _ ht =>
    split
    · have hinner : inner ≠ .scalar := by
        rintro rfl
        have hids := (hwf.regs insn.dst).ids
        rw [show (state.get insn.dst).regType = _ from ht] at hids
        cases hids.2
      have hnull : RegType.null ≠ .scalar := by decide
      unfold refineNull
      split
      · exact ⟨h.refineWithId hnull, h.refineWithId hinner⟩
      · exact ⟨h.refineWithId hinner, h.refineWithId hnull⟩
      · exact ⟨h, h⟩
    · exact ⟨h, h⟩
  · next ht => exact ⟨h.narrow ht _, h.narrow ht _⟩
  · exact ⟨h, h⟩

/-! ## One step -/

/-- A relocated immediate typed as a scalar is a number. -/
theorem Sealed.loadImm64 (h : Sealed state stack s) (ω : Oracle) :
    Sealed (loadImm64 p s.pc insn state) stack (s.advance insn.dst (s.immediate L ω p insn)) := by
  unfold BpfVerifier.loadImm64 MState.immediate
  cases p.relocations.get s.pc with
  | none => exact h.advance _ fun _ => rfl
  | some target =>
    cases target with
    | data _ => exact h.advance _ fun hs => by cases hs
    | _ => exact h.advance _ fun _ => rfl

/-- **A step of the machine keeps the seal.** -/
theorem Accepts.seals {o : Outcome} (h : Accepts p s.pc insn state stack n o)
    (hd : DescribesWith L sized ρ state stack s) (hwf : StateWf n state stack)
    (hs : Sealed state stack s) (hex : transferSeals insn state = true) {ω : Oracle}
    (hstep : s.execute L ω p insn = some s') :
    ∀ i ∈ o.successors, Sealed i.state i.stack s' := by
  cases h with
  | exit hop _ => simp [MState.execute, hop] at hstep
  | call hop hhelper _ =>
    simp only [MState.execute, hop, hhelper, Option.map_some, Option.some.injEq] at hstep
    subst hstep
    intro i hi
    obtain rfl := List.mem_singleton.mp hi
    exact hs.call ω _
  | ja hop ht =>
    simp only [MState.execute, hop, ht, Option.map_some, Option.some.injEq] at hstep
    subst hstep
    intro i hi
    obtain rfl := List.mem_singleton.mp hi
    exact hs.withPc _
  | @jmp op src t is32 hop _ ht =>
    rw [MState.execute_jmp hop] at hstep
    have hpc : ∃ pc, s' = { s with pc := pc } := by
      rcases MState.of_branch hstep with ⟨-, t', -, hs'⟩ | ⟨-, hs'⟩
      · exact ⟨t', hs'⟩
      · exact ⟨s.pc + 1, hs'⟩
    obtain ⟨pc', rfl⟩ := hpc
    obtain ⟨htaken, hfall⟩ := hs.refineBranch hwf insn op src is32
    intro i hi
    simp only [Outcome.successors, List.mem_cons, List.not_mem_nil, or_false] at hi
    rcases hi with rfl | rfl
    · exact hfall.withPc _
    · exact htaken.withPc _
  | @alu op src st is64 hop _ halu =>
    rw [transferSeals_alu hop] at hex
    rw [MState.execute_alu hop, Option.some.injEq] at hstep
    subst hstep
    obtain ⟨r, hr, rfl⟩ := checkAlu_eq_ok halu
    intro i hi
    obtain rfl := List.mem_singleton.mp hi
    exact hs.advance _ fun hscalar => hs.aluResult hd hr hex hscalar
  | ldImm64 hop =>
    simp only [MState.execute, hop, Option.some.injEq] at hstep
    subst hstep
    intro i hi
    obtain rfl := List.mem_singleton.mp hi
    exact hs.loadImm64 ω
  | ldx hop _ hacc _ =>
    simp only [MState.execute, hop, Option.some.injEq] at hstep
    subst hstep
    intro i hi
    obtain rfl := List.mem_singleton.mp hi
    exact hs.advance _ (hs.load hd (isPtr_of_accessError hacc) ω)
  | @stx width hop _ _ _ hacc =>
    simp only [MState.execute, hop, Option.some.injEq] at hstep
    simp only [transferSeals, hop] at hex
    subst hstep
    intro i hi
    obtain rfl := List.mem_singleton.mp hi
    have hval (hnum : ∀ r, some (state.get insn.src) = some r → r.regType.isNumber = true) :
        (s.regs insn.src).isPtr = false := hs.isPtr_eq hd (hnum _ rfl)
    have hseals (r : RegState) (hr : some (state.get insn.src) = some r) :
        storeSeals (state.get insn.dst).regType r.regType width = true :=
      Option.some.inj hr ▸ hex
    exact (hs.store hd (isPtr_of_accessError hacc) hval hseals).withPc _
  | @st width hop _ hacc =>
    simp only [MState.execute, hop, Option.some.injEq] at hstep
    subst hstep
    intro i hi
    obtain rfl := List.mem_singleton.mp hi
    have hval (_ : ∀ r, (none : Option RegState) = some r → r.regType.isNumber = true) :
        (Val.number insn.immS).isPtr = false := rfl
    have hseals (r : RegState) (hr : none = some r) :
        storeSeals (state.get insn.dst).regType r.regType width = true := by cases hr
    exact (hs.store hd (isPtr_of_accessError hacc) hval hseals).withPc _

end BpfVerifier
