import BpfVerifier.Properties.Represents
import BpfVerifier.Properties.Targets

/-!
# Properties/EmittedSteps — the steps of an emitted programme

`to_fstar` hands a programme to the executor of the F* layer.  A step of that executor that
`Faithful` does not exclude and that asks nothing of the outside world (`Closed`) is a step of the
machine on the programme itself, whatever the world answers (`Emitted.forall_execute`).
-/

namespace BpfVerifier.Fstar

/-! ## The programme and its emission -/

/-- **A programme and what is emitted for it**: every jump has a target that no `LD_IMM64` stands
before, and no instruction loads the address of a data symbol. -/
structure Emitted (p : Program) (prog : BpfProgram) : Prop where
  emit : emit p.instructions = some prog
  target : ∀ {pc insn}, p.instructions[pc]? = some insn → insn.jumps = true →
    ∃ t, p.target pc insn = some t ∧ p.loadsBetween (min pc t) (max pc t) = 0
  data : ∀ pc name, p.relocations.get pc ≠ some (.data name)

/-- **Where the two layers agree.**  Excluded are the remainder by zero of more than 32 bits at
32 bits, the tests of JEQ and JNE against an immediate that are tests for zero, loads of something
else than the bytes written last, and buffers the helper fills otherwise. -/
def Insn.Faithful (st : BpfState) : Insn → Prop
  | .alu32Reg op dst src => ∀ d n, st.regs dst = .scalar d → st.regs src = .scalar n →
    ¬KeepsHighHalf op d n
  | .alu32Imm op dst imm => ∀ d, st.regs dst = .scalar d →
    ¬KeepsHighHalf op d (signExtendImm imm)
  | .jmp64Imm op dst imm offset => op = .jeq ∨ op = .jne →
    match st.regs dst with
    | .scalar d => ¬(Insn.jmp64Imm op dst imm offset).Misjudges d
    | .null => True
    | .mapValuePtr _ | .ringBufPtr _ => imm = 0
    | .framePtr _ | .ctxPtr _ => False
  | .ldx width _ src off =>
    match st.regs src with
    | .framePtr o => ∀ n, stackRead st.stack (o + signExtendToInt off) width = some n →
      Bytes.Holds (frameBytes st.stack) (o + signExtendToInt off) (widthBytes width) n
    | .mapValuePtr id => ∀ n, mapValueRead st.mapValues id = some n →
      n.toNat < 2 ^ (8 * widthBytes width)
    | .ringBufPtr id => ∀ n, ringbufRead st.ringbuf id (signExtendToInt off) width = some n →
      n.toNat < 2 ^ (8 * widthBytes width)
    | _ => True
  | .call hid => (getHelperSpec hid).map HelperSpec.sideEffect = some .ReadIntoPtr →
    ∀ o, st.regs .r1 = .framePtr o →
      hid ≠ .D_PATH ∧ stackOffsetValid o .dw = true ∧ ∃ n, st.regs .r2 = .scalar n ∧ 8 ≤ n.toNat
  | _ => True

/-- The instruction asks nothing of the outside world. -/
def Insn.Closed (p : Program) (st : BpfState) : Insn → Prop
  | .call _ => False
  | .ldx _ _ src _ => ∃ o, st.regs src = .framePtr o
  | .ldImm64 _ _ => p.relocations.get st.pc.toNat = none
  | _ => True

section

variable {L : Layout} {ρ : ℕ → ℕ} {p : Program} {prog : BpfProgram} {st st' : BpfState}
  {s : MState} {insn : BpfInsn} {finsn : Insn} {op : AluOp} {dst src : Reg} {imm : BitVec 32}
  {off : BitVec 32} {width : MemWidth}

/-- The instruction an emitted one stands for. -/
theorem Emitted.fetch (hp : Emitted p prog) (h : Represents L ρ st s)
    (hfetch : fetchAt prog st.pc = some finsn) :
    ∃ insn, s.At p insn ∧ insn.toFstar = some finsn := by
  rw [fetchAt_eq, h.pc, Int.toNat_natCast] at hfetch
  have hlt : s.pc < p.instructions.length := by
    rw [← length_of_emit hp.emit]
    exact (List.getElem?_eq_some_iff.mp hfetch).1
  obtain ⟨finsn', hfinsn', hto⟩ := toFstar_of_emit hp.emit (List.getElem?_eq_getElem hlt)
  obtain rfl : finsn' = finsn := Option.some.inj (hfinsn'.symm.trans hfetch)
  exact ⟨_, List.getElem?_eq_getElem hlt, hto⟩

/-! ## Arithmetic -/

theorem Represents.alu64Reg (h : Represents L ρ st s)
    (hexec : execAlu64Reg st op dst src = some st') :
    Represents L ρ st' (s.advance dst (aluVal true op (s.regs dst) (s.regs src))) := by
  by_cases hop : op = .mov
  · subst hop
    obtain rfl := Option.some.inj hexec
    have hmov : aluVal true .mov (s.regs dst) (s.regs src) = s.regs src := by
      simp [aluVal, aluBits, aluWord, aluProv]
    rw [hmov]
    exact h.setReg dst (h.regs src)
  · obtain ⟨d, n, hd, hn⟩ := operands_of_execAlu64Reg hop hexec
    rw [execAlu64Reg_eq hop hd hn] at hexec
    refine h.setNumber hexec fun x hx => ?_
    rw [← aluBits_of_alu64 hx, ← h.bits hd, ← h.bits hn]
    rfl

/-- An immediate operation other than MOV is on a number, or moves a pointer. -/
theorem scalar_or_shift_of_execAlu64Imm (hop : op ≠ .mov)
    (hexec : execAlu64Imm st op dst imm = some st') :
    (∃ d, st.regs dst = .scalar d) ∨ ∃ delta v, shiftDelta op imm = some delta ∧
      shiftPtr (st.regs dst) delta = some v ∧ st' = st.setReg dst v := by
  unfold execAlu64Imm at hexec
  split at hexec
  · exact absurd rfl hop
  · split at hexec
    · next d hd => exact Or.inl ⟨d, hd⟩
    · next o ho =>
      exact Or.inr ⟨_, _, rfl, by rw [ho]; rfl, (Option.some.inj hexec).symm⟩
    · next o ho =>
      exact Or.inr ⟨_, _, rfl, by rw [ho]; rfl, (Option.some.inj hexec).symm⟩
    · cases hexec
  · split at hexec
    · next d hd => exact Or.inl ⟨d, hd⟩
    · next o ho =>
      refine Or.inr ⟨_, _, rfl, by rw [ho]; rfl, ?_⟩
      rw [← Int.sub_eq_add_neg]
      exact (Option.some.inj hexec).symm
    · next o ho =>
      refine Or.inr ⟨_, _, rfl, by rw [ho]; rfl, ?_⟩
      rw [← Int.sub_eq_add_neg]
      exact (Option.some.inj hexec).symm
    · cases hexec
  · split at hexec
    · next d hd => exact Or.inl ⟨d, scalarVal_eq_some.mp hd⟩
    · cases hexec

/-- ADD and SUB of an immediate to a pointer. -/
theorem aluVal_shift {base : BitVec 64} {prov : Prov} {o delta : Int} (hprov : prov.isPtr = true)
    (hdelta : shiftDelta op imm = some delta) :
    aluVal true op ⟨base + BitVec.ofInt 64 o, prov⟩ (.number (signExtendImm imm)) =
      ⟨base + BitVec.ofInt 64 (o + delta), prov⟩ := by
  have himm : signExtendImm imm = BitVec.ofInt 64 imm.toInt := rfl
  have hnumber : Prov.number.isPtr = false := rfl
  unfold shiftDelta at hdelta
  split at hdelta
  · obtain rfl := Option.some.inj hdelta
    rw [BitVec.ofInt_add, ← BitVec.add_assoc]
    simp [aluVal, aluBits, aluWord, aluProv, Val.number, Val.isPtr, hprov, himm, hnumber,
      signExtendToInt]
  · obtain rfl := Option.some.inj hdelta
    rw [BitVec.ofInt_add, ← BitVec.add_assoc, BitVec.ofInt_neg, ← BitVec.sub_eq_add_neg]
    simp [aluVal, aluBits, aluWord, aluProv, Val.number, Val.isPtr, hprov, himm, hnumber,
      signExtendToInt]
  · cases hdelta

theorem Represents.alu64Imm (h : Represents L ρ st s)
    (hexec : execAlu64Imm st op dst imm = some st') :
    Represents L ρ st'
      (s.advance dst (aluVal true op (s.regs dst) (.number (signExtendImm imm)))) := by
  by_cases hop : op = .mov
  · subst hop
    obtain rfl := Option.some.inj hexec
    exact h.setReg dst rfl
  · rcases scalar_or_shift_of_execAlu64Imm hop hexec with ⟨d, hd⟩ | ⟨delta, v, hdelta, hv, rfl⟩
    · rw [execAlu64Imm_eq hop hd] at hexec
      refine h.setNumber hexec fun x hx => ?_
      rw [← aluBits_of_alu64 hx, ← h.bits hd]
      rfl
    · have hdenotes := h.regs dst
      cases hreg : st.regs dst with
      | framePtr o =>
        rw [hreg] at hv hdenotes
        obtain rfl := Option.some.inj hv
        rw [show s.regs dst = _ from hdenotes, aluVal_shift rfl hdelta]
        exact h.setReg dst rfl
      | ctxPtr o =>
        rw [hreg] at hv hdenotes
        obtain rfl := Option.some.inj hv
        rw [show s.regs dst = _ from hdenotes, aluVal_shift rfl hdelta]
        exact h.setReg dst rfl
      | _ =>
        rw [hreg] at hv
        cases hv

theorem Represents.alu32Reg (h : Represents L ρ st s)
    (hfaithful : (Insn.alu32Reg op dst src).Faithful st)
    (hexec : execAlu32Reg st op dst src = some st') :
    Represents L ρ st' (s.advance dst (aluVal false op (s.regs dst) (s.regs src))) := by
  obtain ⟨⟨n, hn⟩, hdst⟩ := operands_of_execAlu32Reg hexec
  by_cases hop : op = .mov
  · subst hop
    rw [execAlu32Reg_mov hn] at hexec
    refine h.setNumber hexec fun x hx => ?_
    obtain rfl := Option.some.inj hx
    rw [← h.bits hn]
    rfl
  · obtain ⟨d, hd⟩ := hdst.resolve_left hop
    rw [execAlu32Reg_eq hop hd hn] at hexec
    refine h.setNumber hexec fun x hx => ?_
    rw [← aluBits_of_alu32 (hfaithful d n hd hn) hx, ← h.bits hd, ← h.bits hn]
    rfl

theorem Represents.alu32Imm (h : Represents L ρ st s)
    (hfaithful : (Insn.alu32Imm op dst imm).Faithful st)
    (hexec : execAlu32Imm st op dst imm = some st') :
    Represents L ρ st'
      (s.advance dst (aluVal false op (s.regs dst) (.number (imm.setWidth 64)))) := by
  by_cases hop : op = .mov
  · subst hop
    obtain rfl := Option.some.inj hexec
    refine h.setReg dst ?_
    change ((imm.setWidth 64).setWidth 32).setWidth 64 = imm.setWidth 64
    rw [setWidth_immU, setWidth_signExtendImm]
  · obtain ⟨d, hd⟩ := operand_of_execAlu32Imm hop hexec
    rw [execAlu32Imm_eq hop hd] at hexec
    refine h.setNumber hexec fun x hx => ?_
    rw [← aluBits_of_alu32 (hfaithful d hd) hx, ← h.bits hd]
    exact aluBits_congr setWidth_immU

/-! ## Memory -/

/-- Where an access through a frame pointer lands. -/
theorem offset_frame (L : Layout) (o : Int) (offset : BitVec 16) :
    L.offset ⟨L.frameTop + BitVec.ofInt 64 o, .frame⟩ (offset.signExtend 64) =
      BitVec.ofInt 64 (o + signExtendToInt (offset.signExtend 32)) := by
  have hoff : offset.signExtend 64 = BitVec.ofInt 64 offset.toInt := rfl
  rw [signExtendToInt, BitVec.toInt_signExtend_of_le (by decide), BitVec.ofInt_add, ← hoff]
  change L.frameTop + BitVec.ofInt 64 o + offset.signExtend 64 - L.frameTop = _
  rw [BitVec.add_assoc, BitVec.add_comm, BitVec.add_sub_cancel]

/-- A load from the frame. -/
theorem Represents.ldxFrame {offset : BitVec 16} {o : Int} (h : Represents L ρ st s)
    (hsrc : st.regs src = .framePtr o)
    (hfaithful : (Insn.ldx width dst src (offset.signExtend 32)).Faithful st)
    (hexec : execLdxWith st st.stackLoad width dst src (offset.signExtend 32) = some st')
    (ω : Oracle) :
    Represents L ρ st'
      (s.advance dst (s.loadVal L ω (s.regs src) (offset.signExtend 64) width)) := by
  have hbase : s.regs src = ⟨L.frameTop + BitVec.ofInt 64 o, .frame⟩ := by
    have hdenotes := h.regs src
    rwa [hsrc] at hdenotes
  simp only [Insn.Faithful, hsrc] at hfaithful
  simp only [execLdxWith, hsrc] at hexec
  refine h.setNumber hexec fun x hx => ?_
  obtain ⟨hvalid, hread⟩ := BpfState.stackLoad_eq_some.mp hx
  obtain ⟨hlt, hbytes⟩ := hfaithful x hread
  obtain ⟨hlo, hhi⟩ : 0 ≤ stackSize + (o + signExtendToInt (offset.signExtend 32)) ∧
      stackSize + (o + signExtendToInt (offset.signExtend 32)) + widthBytes width ≤ stackSize := by
    simpa [stackOffsetValid] using hvalid
  rw [hbase]
  change (readFrame s.frame (L.offset _ _) width).bits = x
  rw [offset_frame]
  refine bits_readFrame hlt fun i hi => ?_
  rw [show BitVec.ofNat 64 i = BitVec.ofInt 64 i from (BitVec.ofInt_natCast 64 i).symm,
    ← BitVec.ofInt_add]
  exact h.frame _ (by omega) (by omega) _ (hbytes i hi)

theorem byte_storeFrag (x : Val) (width : MemWidth) (i : ℕ) :
    (storeFrag x width i).byte = Bytes.byte x.bits i := by
  unfold storeFrag Frag.byte
  split <;> rfl

/-- A store. -/
theorem Represents.store {offset : BitVec 16} {v : Option (BitVec 64)} {x : Val}
    (h : Represents L ρ st s) (hx : ∀ n, v = some n → x.bits = n)
    (hexec : execStoreWith st st.stackStore width dst (offset.signExtend 32) v = some st') :
    Represents L ρ st'
      { s.storeVal L (s.regs dst) (offset.signExtend 64) width x with pc := s.pc + 1 } := by
  have hpc : st.pc + 1 = (s.pc + 1 : ℕ) := by
    rw [h.pc]
    rfl
  have hdenotes := h.regs dst
  unfold execStoreWith at hexec
  split at hexec
  · next o hdst =>
    split at hexec
    · next n =>
      obtain ⟨hvalid, rfl⟩ := BpfState.stackStore_eq_some.mp hexec
      rw [hdst] at hdenotes
      rw [show s.regs dst = _ from hdenotes]
      refine ⟨hpc, h.regs, ?_⟩
      change ∀ k, _ → _ → ∀ b, _ → (overwrite s.frame (L.offset _ _) _ _ _).byte = b
      rw [offset_frame]
      refine h.frame_write hvalid (Nat.le_refl _) (fun i _ => ?_)
        fun i hi hle => absurd hi (Nat.not_lt.mpr hle)
      rw [byte_storeFrag, hx n rfl]
    · cases hexec
  · next id hdst =>
    split at hexec
    · next n =>
      obtain rfl := Option.some.inj hexec
      rw [hdst] at hdenotes
      obtain ⟨-, pc, reserved, hbase⟩ := hdenotes
      rw [hbase]
      unfold MState.storeVal
      dsimp only
      split <;> exact ⟨hpc, h.regs, h.frame⟩
    · cases hexec
  · cases hexec

/-! ## Jumps -/

/-- A jump lands at its target. -/
theorem Emitted.takenPc (hp : Emitted p prog) (h : Represents L ρ st s) (hat : s.At p insn)
    (hjumps : insn.jumps = true) :
    ∃ t : ℕ, p.target s.pc insn = some t ∧ st.takenPc insn.offset.toInt = t := by
  obtain ⟨t, ht, hloads⟩ := hp.target hat hjumps
  refine ⟨t, ht, ?_⟩
  rw [BpfState.takenPc, h.pc]
  exact (Program.target_index hat ht).mpr hloads

/-- A conditional jump that decides alike. -/
theorem Emitted.branch (hp : Emitted p prog) (is32 : Bool) (jop : JmpOp) (jsrc : Source)
    {cond : Bool} (h : Represents L ρ st s) (hat : s.At p insn) (hjumps : insn.jumps = true)
    (hcond : jumpTaken is32 jop (s.regs insn.dst).bits (s.operand insn jsrc (!is32)).bits = cond) :
    ∃ s', s.branch p insn jop jsrc is32 = some s' ∧
      Represents L ρ (st.branch cond insn.offset.toInt) s' := by
  unfold MState.branch BpfState.branch
  rw [hcond]
  cases cond with
  | true =>
    obtain ⟨t, ht, htaken⟩ := hp.takenPc h hat hjumps
    exact ⟨{ s with pc := t }, by rw [ht]; rfl, h.jump htaken⟩
  | false =>
    refine ⟨{ s with pc := s.pc + 1 }, rfl, h.jump ?_⟩
    rw [h.pc]
    rfl

/-- The number a register comparison sees. -/
theorem Denotes.bits_of_regValForJmp {ids : ℕ} {v : RegVal} {x : Val} {d : BitVec 64}
    (h : Denotes L ρ ids v x) (hd : regValForJmp v = some d) : x.bits = d := by
  cases v with
  | scalar n =>
    obtain rfl := Option.some.inj hd
    exact h
  | null =>
    obtain rfl := Option.some.inj hd
    exact h
  | _ => cases hd

/-- What JEQ and JNE with an immediate see, where they are faithful: whether the word is zero. -/
theorem Denotes.isZero {ids : ℕ} {v : RegVal} {x : Val} (h : Denotes L ρ ids v x)
    (hframe : ∀ o, v ≠ .framePtr o) (hctx : ∀ o, v ≠ .ctxPtr o) :
    regValIsZero v = some (decide (x.bits = 0)) := by
  cases v with
  | scalar n => rw [← show x.bits = n from h, regValIsZero]
  | null => simp [regValIsZero, show x.bits = 0 from h]
  | mapValuePtr id =>
    obtain ⟨-, rfl⟩ := h
    simpa [regValIsZero] using L.mapBase_ne_zero (ρ id)
  | ringBufPtr id =>
    obtain ⟨-, pc, reserved, rfl⟩ := h
    simpa [regValIsZero] using L.ringBase_ne_zero (ρ id)
  | framePtr o => exact absurd rfl (hframe o)
  | ctxPtr o => exact absurd rfl (hctx o)

/-- A faithful 64-bit jump with an immediate decides by the word. -/
theorem Represents.jmp64Imm {jop : JmpOp} {offset : Int} (h : Represents L ρ st s)
    (hfaithful : (Insn.jmp64Imm jop dst imm offset).Faithful st)
    (hexec : execJmp64Imm st jop dst imm offset = some st') :
    st' = st.branch (evalJmp64 jop (s.regs dst).bits (signExtendImm imm)) offset := by
  by_cases hop : jop = .jeq ∨ jop = .jne
  · have hdenotes := h.regs dst
    have hfaithful := hfaithful hop
    -- the zero test is the comparison, or both lead to the next instruction
    have htest : (∀ o, st.regs dst ≠ .framePtr o) ∧ (∀ o, st.regs dst ≠ .ctxPtr o) ∧
        ((signExtendImm imm = 0 ∨ (s.regs dst).bits = 0 ∨
          (s.regs dst).bits = signExtendImm imm) ∨ offset = 0) := by
      cases hdst : st.regs dst with
      | scalar d =>
        rw [hdst] at hfaithful hdenotes
        rw [show (s.regs dst).bits = d from hdenotes]
        refine ⟨by simp, by simp, ?_⟩
        simp only [Insn.Misjudges, hop, true_and] at hfaithful
        tauto
      | null =>
        rw [hdst] at hdenotes
        exact ⟨by simp, by simp, Or.inl (Or.inr (Or.inl hdenotes))⟩
      | mapValuePtr id =>
        rw [hdst] at hfaithful
        exact ⟨by simp, by simp, Or.inl (Or.inl (by rw [show imm = 0 from hfaithful]; rfl))⟩
      | ringBufPtr id =>
        rw [hdst] at hfaithful
        exact ⟨by simp, by simp, Or.inl (Or.inl (by rw [show imm = 0 from hfaithful]; rfl))⟩
      | framePtr o =>
        rw [hdst] at hfaithful
        exact hfaithful.elim
      | ctxPtr o =>
        rw [hdst] at hfaithful
        exact hfaithful.elim
    obtain ⟨hframe, hctx, hagree⟩ := htest
    simp only [execJmp64Imm, if_pos hop, hdenotes.isZero hframe hctx, Option.some.injEq] at hexec
    rw [← hexec, branch_eq_iff]
    refine hagree.imp_left fun hagree => ?_
    rcases hop with rfl | rfl
    · rw [evalJmp64_jeq]
      exact zeroTest_iff.mpr hagree
    · rw [evalJmp64_jne, ← zeroTest_iff.mpr hagree, apply_ite not, Bool.not_not]
  · simp only [execJmp64Imm, if_neg hop] at hexec
    split at hexec
    · next d hd =>
      rw [h.bits (scalarVal_eq_some.mp hd)]
      exact (Option.some.inj hexec).symm
    · cases hexec

/-- A 64-bit conditional jump. -/
theorem Emitted.forall_jmp64 {jop : JmpOp} {jsrc : Source} (hp : Emitted p prog)
    (h : Represents L ρ st s) (hat : s.At p insn) (hop : insn.opcode = .jmp64 jop jsrc)
    (hto : insn.toFstar = some finsn) (hfaithful : finsn.Faithful st)
    (hexec : execInsn st finsn = some st') :
    ∃ s', (∀ ω, s.execute L ω p insn = some s') ∧ Represents L ρ st' s' := by
  have hjumps : insn.jumps = true := by simp [BpfInsn.jumps, hop]
  obtain ⟨s', hs', hrep⟩ := hp.branch false jop jsrc h hat hjumps rfl
  refine ⟨s', fun ω => ?_, ?_⟩
  · simp only [MState.execute, hop]
    exact hs'
  rw [jumpTaken_eq_evalJmp64] at hrep
  cases jsrc with
  | reg =>
    simp only [BpfInsn.toFstar, hop, Option.some.injEq] at hto
    subst hto
    simp only [execInsn, execJmp64Reg] at hexec
    split at hexec
    · next d n hd hn =>
      obtain rfl := Option.some.inj hexec
      rw [← (h.regs insn.dst).bits_of_regValForJmp hd, ← (h.regs insn.src).bits_of_regValForJmp hn]
      exact hrep
    · cases hexec
  | imm =>
    simp only [BpfInsn.toFstar, hop, Option.some.injEq] at hto
    subst hto
    rw [h.jmp64Imm hfaithful hexec]
    exact hrep

/-- A 32-bit conditional jump. -/
theorem Emitted.forall_jmp32 {jop : JmpOp} {jsrc : Source} (hp : Emitted p prog)
    (h : Represents L ρ st s) (hat : s.At p insn) (hop : insn.opcode = .jmp32 jop jsrc)
    (hto : insn.toFstar = some finsn) (hexec : execInsn st finsn = some st') :
    ∃ s', (∀ ω, s.execute L ω p insn = some s') ∧ Represents L ρ st' s' := by
  have hjumps : insn.jumps = true := by simp [BpfInsn.jumps, hop]
  obtain ⟨s', hs', hrep⟩ := hp.branch true jop jsrc h hat hjumps rfl
  refine ⟨s', fun ω => ?_, ?_⟩
  · simp only [MState.execute, hop]
    exact hs'
  rw [jumpTaken_eq_evalJmp32] at hrep
  cases jsrc with
  | reg =>
    simp only [BpfInsn.toFstar, hop, Option.some.injEq] at hto
    subst hto
    simp only [execInsn, execJmp32Reg] at hexec
    split at hexec
    · next d n hd hn =>
      obtain rfl := Option.some.inj hexec
      rw [← h.bits (scalarVal_eq_some.mp hd), ← h.bits (scalarVal_eq_some.mp hn)]
      exact hrep
    · cases hexec
  | imm =>
    simp only [BpfInsn.toFstar, hop, Option.some.injEq] at hto
    subst hto
    simp only [execInsn, execJmp32Imm] at hexec
    split at hexec
    · next d hd =>
      obtain rfl := Option.some.inj hexec
      have hlow : evalJmp32 jop (s.regs insn.dst).bits (insn.imm.setWidth 64) =
          evalJmp32 jop (s.regs insn.dst).bits (signExtendImm insn.imm) := by
        simp only [← jumpTaken_eq_evalJmp32, jumpTaken, if_true, setWidth_immU]
      rw [← h.bits (scalarVal_eq_some.mp hd), ← hlow]
      exact hrep
    · cases hexec

/-! ## Steps that ask nothing -/

/-- **A step that asks nothing of the outside world** is taken by the machine whatever the world
answers. -/
theorem Emitted.forall_execute (hp : Emitted p prog) (h : Represents L ρ st s) (hat : s.At p insn)
    (hto : insn.toFstar = some finsn) (hexit : finsn ≠ .exit) (hfaithful : finsn.Faithful st)
    (hclosed : finsn.Closed p st) (hexec : execInsn st finsn = some st') :
    ∃ s', (∀ ω, s.execute L ω p insn = some s') ∧ Represents L ρ st' s' := by
  cases hop : insn.opcode with
  | alu64 op src =>
    cases src with
    | reg =>
      simp only [BpfInsn.toFstar, hop, Option.some.injEq] at hto
      subst hto
      exact ⟨_, fun ω => by simp only [MState.execute, hop]; rfl, h.alu64Reg hexec⟩
    | imm =>
      simp only [BpfInsn.toFstar, hop, Option.some.injEq] at hto
      subst hto
      exact ⟨_, fun ω => by simp only [MState.execute, hop]; rfl, h.alu64Imm hexec⟩
  | alu32 op src =>
    cases src with
    | reg =>
      simp only [BpfInsn.toFstar, hop, Option.some.injEq] at hto
      subst hto
      exact ⟨_, fun ω => by simp only [MState.execute, hop]; rfl, h.alu32Reg hfaithful hexec⟩
    | imm =>
      simp only [BpfInsn.toFstar, hop, Option.some.injEq] at hto
      subst hto
      exact ⟨_, fun ω => by simp only [MState.execute, hop]; rfl, h.alu32Imm hfaithful hexec⟩
  | ldx width =>
    simp only [BpfInsn.toFstar, hop, Option.some.injEq] at hto
    subst hto
    obtain ⟨o, hsrc⟩ := hclosed
    have hload (ω : Oracle) := h.ldxFrame hsrc hfaithful hexec ω
    -- a load from the frame does not look at the world
    have hsame (ω : Oracle) : s.loadVal L ω (s.regs insn.src) insn.off width =
        s.loadVal L (.quiet 0 false) (s.regs insn.src) insn.off width := by
      have hbase := h.regs insn.src
      rw [hsrc] at hbase
      rw [show s.regs insn.src = _ from hbase]
      rfl
    refine ⟨_, fun ω => ?_, hload (.quiet 0 false)⟩
    simp only [MState.execute, hop, hsame ω]
    rfl
  | stx width =>
    simp only [BpfInsn.toFstar, hop, Option.some.injEq] at hto
    subst hto
    refine ⟨_, fun ω => by simp only [MState.execute, hop]; rfl,
      h.store (x := s.regs insn.src) (fun n hn => ?_) hexec⟩
    exact h.bits (scalarVal_eq_some.mp hn)
  | st width =>
    simp only [BpfInsn.toFstar, hop, Option.some.injEq] at hto
    subst hto
    refine ⟨_, fun ω => by simp only [MState.execute, hop]; rfl,
      h.store (x := .number insn.immS) (v := some (signExtendImm insn.imm)) (fun n hn => ?_) hexec⟩
    exact Option.some.inj hn
  | jmp64 op src => exact hp.forall_jmp64 h hat hop hto hfaithful hexec
  | jmp32 op src => exact hp.forall_jmp32 h hat hop hto hexec
  | jmpJa =>
    simp only [BpfInsn.toFstar, hop, Option.some.injEq] at hto
    subst hto
    obtain rfl := Option.some.inj hexec
    obtain ⟨t, ht, htaken⟩ := hp.takenPc h hat (by simp [BpfInsn.jumps, hop])
    exact ⟨{ s with pc := t }, fun ω => by simp only [MState.execute, hop, ht, Option.map_some],
      h.jump htaken⟩
  | call =>
    simp only [BpfInsn.toFstar, hop, Option.map_eq_some_iff] at hto
    obtain ⟨hid, -, rfl⟩ := hto
    exact hclosed.elim
  | ldImm64 =>
    simp only [BpfInsn.toFstar, hop, Option.some.injEq] at hto
    subst hto
    obtain rfl := Option.some.inj hexec
    have hreloc : p.relocations.get s.pc = none := by
      have hclosed : p.relocations.get st.pc.toNat = none := hclosed
      rwa [h.pc, Int.toNat_natCast] at hclosed
    refine ⟨s.advance insn.dst (.number insn.ldValue), fun ω => ?_, h.setReg _ rfl⟩
    simp only [MState.execute, hop, MState.immediate, hreloc]
  | exit =>
    simp only [BpfInsn.toFstar, hop, Option.some.injEq] at hto
    exact absurd hto.symm hexit
  | unknown raw => simp [BpfInsn.toFstar, hop] at hto

end

end BpfVerifier.Fstar
