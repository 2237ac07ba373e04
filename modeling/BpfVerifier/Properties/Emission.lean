import BpfVerifier.Machinery.Driven
import BpfVerifier.Properties.EmittedSteps

/-!
# Properties/Emission — the emitted programme does what the programme does

A faithful step that does ask the outside world is a step of the machine for some answer
(`Emitted.exists_execute`).  So every run of the executor under a schedule is a run of the machine
on the programme (`execProgramPath_realized`), and what is verified of a programme that asks nothing
holds of the machine in every world (`programSatisfies_machine`).
-/

namespace BpfVerifier.Fstar

section

variable {L : Layout} {ρ : ℕ → ℕ} {p : Program} {prog : BpfProgram} {st st' : BpfState}
  {s : MState} {insn : BpfInsn} {finsn : Insn} {src dst : Reg} {off : BitVec 32} {width : MemWidth}

/-! ## Steps that ask -/

theorem truncate_eq {n : BitVec 64} (hn : n.toNat < 2 ^ (8 * widthBytes width)) :
    MState.truncate width n = n := by
  apply BitVec.eq_of_toNat_eq
  rw [MState.truncate, BitVec.toNat_setWidth, BitVec.toNat_setWidth, Nat.mod_eq_of_lt hn,
    Nat.mod_eq_of_lt n.isLt]

/-- A load from elsewhere gives what the world answers. -/
theorem loadVal_quiet {base : Val} {off n : BitVec 64} (hframe : base.prov ≠ .frame)
    (hn : n.toNat < 2 ^ (8 * widthBytes width)) :
    (s.loadVal L (.quiet n false) base off width).bits = n := by
  have htrunc : (Val.number (MState.truncate width n)).bits = n := truncate_eq hn
  unfold MState.loadVal
  cases hprov : base.prov with
  | frame => exact absurd hprov hframe
  | mapValue _ | ringBuf _ _ _ | data _ =>
    dsimp only
    split
    · rfl
    · exact htrunc
  | ctx | kernel | number | null _ =>
    simp only [Oracle.quiet, Bool.and_false, Bool.false_eq_true, if_false]
    exact htrunc

/-- A load from elsewhere than the frame. -/
theorem Represents.ldxOther (h : Represents L ρ st s) (hsrc : ∀ o, st.regs src ≠ .framePtr o)
    (hfaithful : (Insn.ldx width dst src off).Faithful st) (off' : BitVec 64)
    (hexec : execLdxWith st st.stackLoad width dst src off = some st') :
    ∃ ω, Represents L ρ st' (s.advance dst (s.loadVal L ω (s.regs src) off' width)) := by
  have hdenotes := h.regs src
  have hset (n : BitVec 64) (hframe : (s.regs src).prov ≠ .frame)
      (hn : n.toNat < 2 ^ (8 * widthBytes width)) : ∃ ω, Represents L ρ (st.setReg dst (.scalar n))
        (s.advance dst (s.loadVal L ω (s.regs src) off' width)) :=
    ⟨.quiet n false, h.setReg dst (loadVal_quiet hframe hn)⟩
  have hzero : (0 : BitVec 64).toNat < 2 ^ (8 * widthBytes width) := Nat.two_pow_pos _
  unfold execLdxWith at hexec
  unfold Insn.Faithful at hfaithful
  cases hreg : st.regs src with
  | framePtr o => exact absurd hreg (hsrc o)
  | mapValuePtr id =>
    simp only [hreg] at hexec hfaithful hdenotes
    obtain ⟨n, hn, rfl⟩ := setNumber_eq_some.mp hexec
    exact hset n (by rw [hdenotes.2]; simp) (hfaithful n hn)
  | ringBufPtr id =>
    simp only [hreg] at hexec hfaithful hdenotes
    obtain ⟨-, pc, reserved, hbase⟩ := hdenotes
    have hframe : (s.regs src).prov ≠ .frame := by simp [hbase]
    split at hexec
    · obtain rfl := Option.some.inj hexec
      exact hset 0 hframe hzero
    · next n hn =>
      obtain rfl := Option.some.inj hexec
      exact hset n hframe (hfaithful n hn)
  | ctxPtr o =>
    simp only [hreg] at hexec hdenotes
    obtain rfl := Option.some.inj hexec
    exact hset 0 (by rw [hdenotes]; simp) hzero
  | null => simp [hreg] at hexec
  | scalar n => simp [hreg] at hexec

/-! ## Calls -/

/-- The two tables agree on what a helper returns and on the buffers the F\* layer fills. -/
theorem helper_agrees {helper : BpfVerifier.HelperSpec} (hmem : helper ∈ HELPERS) {hid : HelperId}
    {spec : HelperSpec} (hname : HelperId.ofName helper.name = some hid)
    (hspec : getHelperSpec hid = some spec) :
    (spec.retType = .RetMapPtr ↔ helper.retType = .mapPtr) ∧
      (spec.retType = .RetRingBufPtr ↔ helper.retType = .ringBufPtr) ∧
      (spec.sideEffect = .ReadIntoPtr → hid ≠ .D_PATH →
        helper.args[0]? = some (some .ptrToMem)) := by
  have htable : ∀ helper ∈ HELPERS, ((HelperId.ofName helper.name).all fun hid =>
      (getHelperSpec hid).all fun spec =>
        ((spec.retType = .RetMapPtr ↔ helper.retType = .mapPtr) ∧
          (spec.retType = .RetRingBufPtr ↔ helper.retType = .ringBufPtr) ∧
          (spec.sideEffect = .ReadIntoPtr → hid ≠ .D_PATH →
            helper.args[0]? = some (some .ptrToMem)) : Bool)) = true := by decide +kernel
  have hrow := htable helper hmem
  rw [hname, Option.all_some, hspec, Option.all_some] at hrow
  exact of_decide_eq_true hrow

/-- The bytes a helper leaves in its buffer: eight zeros where the F\* layer fills it, and what was
there before. -/
def fillBytes (L : Layout) (s : MState) (helper : BpfVerifier.HelperSpec) (zeros : Bool) (i : ℕ) :
    BitVec 8 :=
  if zeros ∧ i < 8 then 0
  else
    match s.outBuffer helper with
    | some (ptr, _) => (s.frame (L.offset ptr 0 + BitVec.ofNat 64 i)).byte
    | none => 0

/-- The world that answers a call as the F\* layer models it. -/
def callOracle (L : Layout) (s : MState) (helper : BpfVerifier.HelperSpec) (zeros null : Bool) :
    Oracle where
  bits := 0
  kernel := false
  reload := none
  null := null
  bytes := fillBytes L s helper zeros
  scratch := s.regs

theorem byte_plain (b : BitVec 8) : (Frag.plain b).byte = b := by
  unfold Frag.plain Frag.byte Val.number
  apply BitVec.eq_of_getLsbD_eq
  intro i hi
  simp [hi]

/-- A buffer filled with what it held keeps its bytes. -/
theorem byte_fillBuffer {helper : BpfVerifier.HelperSpec} {null : Bool} (k : BitVec 64) :
    ((s.fillBuffer L (callOracle L s helper false null) helper).frame k).byte =
      (s.frame k).byte := by
  unfold MState.fillBuffer
  cases hout : s.outBuffer helper with
  | none => rfl
  | some buffer =>
    obtain ⟨ptr, size⟩ := buffer
    dsimp only
    split
    · dsimp only
      unfold overwrite
      split
      · have hback : L.offset ptr 0 + BitVec.ofNat 64 (k - L.offset ptr 0).toNat = k := by
          rw [BitVec.ofNat_toNat, BitVec.setWidth_eq, BitVec.add_comm, BitVec.sub_add_cancel]
        rw [byte_plain]
        simp only [callOracle, fillBytes, Bool.false_eq_true, false_and, if_false, hout, hback]
      · rfl
    · rfl

/-- **The frame after a call.** -/
theorem Represents.fillBuffer {helper : BpfVerifier.HelperSpec} {hid : HelperId} {spec : HelperSpec}
    (h : Represents L ρ st s) (hmem : helper ∈ HELPERS)
    (hname : HelperId.ofName helper.name = some hid) (hspec : getHelperSpec hid = some spec)
    (hfaithful : (Insn.call hid).Faithful st) :
    ∃ zeros, ∀ null, ∀ k, -stackSize ≤ k → k < 0 → ∀ b,
      frameBytes (applyHelperEffect st spec.sideEffect).stack k = some b →
      ((s.fillBuffer L (callOracle L s helper zeros null) helper).frame
        (BitVec.ofInt 64 k)).byte = b := by
  by_cases hfill : spec.sideEffect = .ReadIntoPtr ∧ ∃ o, st.regs .r1 = .framePtr o
  · obtain ⟨heff, o, hr1⟩ := hfill
    obtain ⟨hpath, hvalid, n, hr2, hn⟩ := hfaithful (by simp [hspec, heff]) o hr1
    have harg := (helper_agrees hmem hname hspec).2.2 heff hpath
    have hbase : s.regs .r1 = ⟨L.frameTop + BitVec.ofInt 64 o, .frame⟩ := by
      have hdenotes := h.regs .r1
      rwa [hr1] at hdenotes
    have hoff : L.offset (s.regs .r1) 0 = BitVec.ofInt 64 o := by
      have hzero : L.offset ⟨L.frameTop + BitVec.ofInt 64 o, .frame⟩ 0 =
          L.frameTop + BitVec.ofInt 64 o + 0#64 - L.frameTop := rfl
      rw [hbase, hzero, BitVec.add_zero, BitVec.add_comm, BitVec.add_sub_cancel]
    have hout : s.outBuffer helper = some (s.regs .r1, n) := by
      rw [MState.outBuffer, if_pos harg, h.bits hr2]
    have hstack : (applyHelperEffect st spec.sideEffect).stack = stackWrite st.stack o .dw 0 := by
      simp [applyHelperEffect, heff, hr1]
    have hprov : (s.regs .r1).prov = .frame := by rw [hbase]
    refine ⟨true, fun null => ?_⟩
    rw [hstack]
    simp only [MState.fillBuffer, hout, hprov, if_true, hoff]
    refine h.frame_write hvalid hn (fun i hi => ?_) fun i _ hle => ?_
    · rw [byte_plain]
      have hlt : i < 8 := hi
      simp only [callOracle, fillBytes, hlt, and_self, if_true]
      simp [Bytes.byte]
    · rw [byte_plain]
      have hge : ¬i < 8 := Nat.not_lt.mpr hle
      simp only [callOracle, fillBytes, hge, and_false, if_false, hout, hoff]
  · -- the F* layer writes nothing, and the helper leaves what was there
    have hstack : (applyHelperEffect st spec.sideEffect).stack = st.stack := by
      unfold applyHelperEffect
      split
      · next heff =>
        split
        · next o ho => exact absurd ⟨heff, o, ho⟩ hfill
        · rfl
      · rfl
    refine ⟨false, fun null k hk hk₀ b hb => ?_⟩
    rw [hstack] at hb
    rw [byte_fillBuffer]
    exact h.frame k hk hk₀ b hb

/-- A call that returns a value both layers have. -/
theorem Represents.call {helper : BpfVerifier.HelperSpec} {ω : Oracle} {v : RegVal}
    (h : Represents L ρ st s) (hscratch : ω.scratch = s.regs) (hpc : st'.pc = st.pc + 1)
    (hregs : st'.regs = Fstar.setReg st.regs .r0 v) (hids : st.nextMapId ≤ st'.nextMapId)
    {ρ' : ℕ → ℕ} (hρ : ∀ id < st.nextMapId, ρ' id = ρ id)
    (hv : Denotes L ρ' st'.nextMapId v (s.returned L ω helper.retType))
    (hframe : ∀ k, -stackSize ≤ k → k < 0 → ∀ b, frameBytes st'.stack k = some b →
      ((s.fillBuffer L ω helper).frame (BitVec.ofInt 64 k)).byte = b) :
    Represents L ρ' st' (s.callHelper L ω helper) where
  pc := by
    rw [hpc, h.pc]
    rfl
  regs r := by
    have hold := (h.regs r).extend hids hρ
    rw [hregs, Fstar.setReg]
    simp only [MState.callHelper]
    split
    · exact hv
    · split
      · rw [hscratch]
        exact hold
      · exact hold
  frame := hframe

/-- The helper a call is emitted for. -/
theorem exists_helper {hid : HelperId} {spec : HelperSpec} (hto : insn.fstarHelper = some hid)
    (hspec : getHelperSpec hid = some spec) : ∃ helper, getHelper insn.imm = some helper ∧
      helper ∈ HELPERS ∧ HelperId.ofName helper.name = some hid := by
  unfold BpfInsn.fstarHelper at hto
  cases hhelper : getHelper insn.imm with
  | some helper =>
    simp only [hhelper] at hto
    exact ⟨helper, rfl, mem_helpers_of_getHelper hhelper, hto⟩
  | none =>
    simp only [hhelper] at hto
    split at hto
    · cases hto
    · obtain rfl := Option.some.inj hto
      cases hspec

/-- **A call under a schedule** is one of the machine, in a world that answers as the F\* layer
models it. -/
theorem Represents.exists_call {hid : HelperId} {sched sched' : PathSchedule}
    (h : Represents L ρ st s) (hop : insn.opcode = .call) (hto : insn.fstarHelper = some hid)
    (hfaithful : (Insn.call hid).Faithful st)
    (heffect : PathEffect st sched (.call hid) st' sched') :
    ∃ ω s' ρ', s.execute L ω p insn = some s' ∧ Represents L ρ' st' s' := by
  obtain ⟨spec, hspec⟩ := exists_spec_of_call heffect
  obtain ⟨helper, hhelper, hmem, hname⟩ := exists_helper hto hspec
  obtain ⟨hmap, hring, -⟩ := helper_agrees hmem hname hspec
  obtain ⟨zeros, hframe⟩ := h.fillBuffer hmem hname hspec hfaithful
  have hexec (ω : Oracle) : s.execute L ω p insn = some (s.callHelper L ω helper) := by
    simp only [MState.execute, hop, hhelper, Option.map_some]
  generalize hst₁ : applyHelperEffect st spec.sideEffect = st₁ at hframe
  have hpc : st₁.pc = st.pc := by rw [← hst₁, applyHelperEffect_pc]
  have hregs : st₁.regs = st.regs := by rw [← hst₁, applyHelperEffect_regs]
  have hids : st₁.nextMapId = st.nextMapId := by rw [← hst₁, applyHelperEffect_nextMapId]
  -- a fresh id stands for this call
  have hfresh : ∀ id < st.nextMapId, Function.update ρ st.nextMapId s.calls id = ρ id :=
    fun id hid => Function.update_of_ne (Nat.ne_of_lt hid) _ _
  have hnew : Function.update ρ st.nextMapId s.calls st.nextMapId = s.calls :=
    Function.update_self ..
  cases heffect with
  | plain hcall => cases hcall
  | @nullable _ spec' hspec' hnull =>
    obtain rfl : spec' = spec := Option.some.inj (hspec'.symm.trans hspec)
    rw [hst₁]
    cases hchoice : sched.choice with
    | AsNull =>
      refine ⟨callOracle L s helper zeros true, _, ρ, hexec _, ?_⟩
      refine h.call (v := .null) rfl (by rw [← hpc]; rfl) (by rw [← hregs]; rfl)
        (by exact Nat.le_of_eq hids.symm) (fun _ _ => rfl) ?_ (hframe true)
      have hret : helper.retType = .mapPtr ∨ helper.retType = .ringBufPtr := by
        unfold HelperSpec.nullable at hnull
        cases hty : spec'.retType with
        | RetMapPtr => exact Or.inl (hmap.mp hty)
        | RetRingBufPtr => exact Or.inr (hring.mp hty)
        | _ => simp [hty] at hnull
      rcases hret with hret | hret <;> simp [Denotes, MState.returned, hret, callOracle]
    | NonNull =>
      refine ⟨callOracle L s helper zeros false, _, Function.update ρ st.nextMapId s.calls, hexec _,
        ?_⟩
      unfold BpfState.returnsChoice
      by_cases hty : spec'.retType = .RetMapPtr
      · rw [if_pos hty]
        refine h.call (v := .mapValuePtr st.nextMapId) rfl (by rw [← hpc]; rfl)
          (by rw [← hregs, ← hids]; rfl) (by rw [← hids]; exact Nat.le_succ _) hfresh ?_
          (hframe false)
        have hreturned : s.returned L (callOracle L s helper zeros false) helper.retType =
            ⟨L.mapBase s.calls, .mapValue s.calls⟩ := by
          simp [MState.returned, hmap.mp hty, callOracle]
        rw [hreturned]
        exact ⟨by rw [← hids]; exact Nat.lt_succ_self _, by rw [hnew]⟩
      · rw [if_neg hty]
        have hring' : spec'.retType = .RetRingBufPtr := by
          unfold HelperSpec.nullable at hnull
          cases hty' : spec'.retType with
          | RetMapPtr => exact absurd hty' hty
          | RetRingBufPtr => rfl
          | _ => simp [hty'] at hnull
        refine h.call (v := .ringBufPtr st.nextMapId) rfl (by rw [← hpc]; rfl)
          (by rw [← hregs, ← hids]; rfl) (by rw [← hids]; exact Nat.le_succ _) hfresh ?_
          (hframe false)
        have hreturned : s.returned L (callOracle L s helper zeros false) helper.retType =
            ⟨L.ringBase s.calls, .ringBuf s.calls s.pc (s.regs .r2).bits⟩ := by
          simp [MState.returned, hring.mp hring', callOracle]
        rw [hreturned]
        exact ⟨by rw [← hids]; exact Nat.lt_succ_self _, _, _, by rw [hnew]⟩
  | @number _ spec' hspec' hnull =>
    obtain rfl : spec' = spec := Option.some.inj (hspec'.symm.trans hspec)
    rw [hst₁]
    refine ⟨callOracle L s helper zeros false, _, ρ, hexec _, ?_⟩
    refine h.call (v := .scalar 0) rfl (by rw [← hpc]; rfl) (by rw [← hregs]; rfl)
      (by exact Nat.le_of_eq hids.symm) (fun _ _ => rfl) ?_ (hframe false)
    cases hret : helper.retType with
    | mapPtr => simp [HelperSpec.nullable, hmap.mpr hret] at hnull
    | ringBufPtr => simp [HelperSpec.nullable, hring.mpr hret] at hnull
    | _ => rfl

/-! ## Every step -/

/-- **A step of the executor is a step of the machine**, for some answer of the outside world. -/
theorem Emitted.exists_execute (hp : Emitted p prog) {sched sched' : PathSchedule}
    (h : Represents L ρ st s) (hat : s.At p insn) (hto : insn.toFstar = some finsn)
    (hexit : finsn ≠ .exit) (hfaithful : finsn.Faithful st)
    (heffect : PathEffect st sched finsn st' sched') :
    ∃ ω s' ρ', s.execute L ω p insn = some s' ∧ Represents L ρ' st' s' := by
  by_cases hclosed : finsn.Closed p st
  · cases heffect with
    | plain _ hexec _ =>
      obtain ⟨s', hs', hrep⟩ := hp.forall_execute h hat hto hexit hfaithful hclosed hexec
      exact ⟨.quiet 0 false, s', ρ, hs' _, hrep⟩
    | nullable => exact hclosed.elim
    | number => exact hclosed.elim
  · cases hop : insn.opcode with
    | ldx width =>
      simp only [BpfInsn.toFstar, hop, Option.some.injEq] at hto
      subst hto
      cases heffect with
      | plain _ hexec _ =>
        have hother : ∀ o, st.regs insn.src ≠ .framePtr o := fun o ho => hclosed ⟨o, ho⟩
        obtain ⟨ω, hrep⟩ := h.ldxOther hother hfaithful insn.off hexec
        exact ⟨ω, _, ρ, by simp only [MState.execute, hop], hrep⟩
    | ldImm64 =>
      simp only [BpfInsn.toFstar, hop, Option.some.injEq] at hto
      subst hto
      cases heffect with
      | plain _ hexec _ =>
        obtain rfl := Option.some.inj hexec
        refine ⟨.quiet insn.ldValue false, s.advance insn.dst (.number insn.ldValue), ρ, ?_,
          h.setReg _ rfl⟩
        simp only [MState.execute, hop, MState.immediate]
        cases hreloc : p.relocations.get s.pc with
        | none => rfl
        | some target =>
          cases target with
          | data name => exact absurd hreloc (hp.data s.pc name)
          | _ => rfl
    | call =>
      simp only [BpfInsn.toFstar, hop, Option.map_eq_some_iff] at hto
      obtain ⟨hid, hhid, rfl⟩ := hto
      exact h.exists_call hop hhid hfaithful heffect
    | alu64 op src =>
      exact absurd (by cases src <;> simp [BpfInsn.toFstar, hop] at hto <;> subst hto <;> trivial)
        hclosed
    | alu32 op src =>
      exact absurd (by cases src <;> simp [BpfInsn.toFstar, hop] at hto <;> subst hto <;> trivial)
        hclosed
    | jmp64 op src =>
      exact absurd (by cases src <;> simp [BpfInsn.toFstar, hop] at hto <;> subst hto <;> trivial)
        hclosed
    | jmp32 op src =>
      exact absurd (by cases src <;> simp [BpfInsn.toFstar, hop] at hto <;> subst hto <;> trivial)
        hclosed
    | unknown raw => simp [BpfInsn.toFstar, hop] at hto
    | _ => exact absurd (by simp [BpfInsn.toFstar, hop] at hto; subst hto; trivial) hclosed

end

/-! ## Every run -/

theorem exec_eq_drive (p : Program) (L : Layout) (env : ℕ → Oracle) (s : MState) (n : ℕ) :
    exec p L env s n = drive (fun ω s => s.step L ω p) env s n := by
  induction n with
  | zero => rfl
  | succ n ih => rw [exec, drive, ih]

section

variable {L : Layout} {ρ : ℕ → ℕ} {p : Program} {prog : BpfProgram} {st st' : BpfState}
  {s : MState} {fuel : ℕ}

/-- Where the executor halts, the machine is at an EXIT. -/
theorem Emitted.at_exit (hp : Emitted p prog) (h : Represents L ρ st s)
    (hfetch : fetchAt prog st.pc = some .exit) : ∃ insn, s.At p insn ∧ insn.opcode = .exit := by
  obtain ⟨insn, hat, hto⟩ := hp.fetch h hfetch
  exact ⟨insn, hat, opcode_of_toFstar_exit hto⟩

/-! ## Entry -/

/-- A programme without jumps and relocations, and what is emitted for it. -/
theorem emitted_of_no_jumps {instructions : List BpfInsn}
    (hemit : BpfVerifier.emit instructions = some prog)
    (hjumps : ∀ insn ∈ instructions, insn.jumps = false) :
    Emitted (.ofInsns instructions) prog where
  emit := hemit
  target hinsn hjump := by
    rw [hjumps _ (List.mem_of_getElem? hinsn)] at hjump
    cases hjump
  data pc name := by simp [Program.ofInsns]

/-- **Entry**: numbers in the registers other than r1 and r10, and an empty stack. -/
theorem represents_entry (hs : s.Entry L) (hstack : st.stack = [])
    (hregs : ∀ r, r ≠ .r1 → r ≠ .r10 → st.regs r = .scalar (s.regs r).bits) :
    Represents L ρ st.entry s where
  pc := by
    rw [hs.pc_eq]
    rfl
  regs r := by
    by_cases h1 : r = .r1
    · subst h1
      rw [hs.r1_eq]
      simp [BpfState.entry, Denotes]
    · by_cases h10 : r = .r10
      · subst h10
        rw [hs.r10_eq]
        simp [BpfState.entry, Denotes, setReg]
      · have hreg : st.entry.regs r = st.regs r := by
          simp [BpfState.entry, setReg, h1, h10]
        rw [hreg, hregs r h1 h10]
        rfl
  frame k _ _ b hb := by
    have hempty : st.entry.stack = [] := hstack
    rw [hempty] at hb
    cases hb

/-! ## Runs -/

/-- **Every run of the executor is one of the machine**: whatever the schedule, if the steps are
faithful, there is a world in which the machine takes the programme to an EXIT, in a state the final
one stands for. -/
theorem execProgramPath_realized (hp : Emitted p prog) (h : Represents L ρ st s)
    {sched : PathSchedule}
    (hfaithful : (pathInterp prog).StepsMeet (fun c insn => insn.Faithful c.1) (st, sched) fuel)
    (hrun : execProgramPath st prog fuel sched = some st') :
    ∃ env, ∃ n < fuel, ∃ s' ρ', exec p L env s n = some s' ∧ Represents L ρ' st' s' ∧
      ∃ insn, s'.At p insn ∧ insn.opcode = .exit := by
  obtain ⟨⟨final, sched'⟩, hfinal, rfl⟩ := Option.map_eq_some_iff.mp hrun
  obtain ⟨n, hn, hafter, insn, hfetch, hhalt⟩ := Interp.run_eq_some_iff.mp hfinal
  obtain rfl := Insn.isExit_iff.mp hhalt
  have hstep : ∀ (c c' : BpfState × PathSchedule) (finsn : Insn) (t : MState),
      (pathInterp prog).fetch c = some finsn → (pathInterp prog).halts finsn = false →
      finsn.Faithful c.1 → (pathInterp prog).exec c finsn = some c' →
      (∃ ρ, Represents L ρ c.1 t) →
      ∃ ω t', t.step L ω p = some t' ∧ ∃ ρ, Represents L ρ c'.1 t' := by
    rintro c c' finsn t hfetch hhalt hfaithful hexec ⟨ρ, hrep⟩
    obtain ⟨insn, hat, hto⟩ := hp.fetch hrep hfetch
    have hexit : finsn ≠ .exit := by
      rintro rfl
      cases hhalt
    obtain ⟨ω, t', ρ', ht', hrep'⟩ :=
      hp.exists_execute hrep hat hto hexit hfaithful (pathEffect_of_execPath hexec)
    exact ⟨ω, t', (MState.step_eq hat).trans ht', ρ', hrep'⟩
  have : Nonempty Oracle := ⟨.quiet 0 false⟩
  obtain ⟨env, s', hdrive, ρ', hrep⟩ := Interp.exists_drive
    (R := fun c t => ∃ ρ, Represents L ρ c.1 t) hstep
    (fun k hk => hfaithful k (Nat.lt_trans hk hn)) ⟨ρ, h⟩ hafter
  exact ⟨env, n, hn, s', ρ', (exec_eq_drive ..).trans hdrive, hrep, hp.at_exit hrep hfetch⟩

/-- `call bpf_map_lookup_elem; exit`. -/
def looksUp : List BpfInsn := [.callHelper 1, .ret]

theorem execProgramPath_realized_looksUp : ∃ env, ∃ n < 2, ∃ s',
    exec (.ofInsns looksUp) .flat env (.fresh .flat) n = some s' ∧ (s'.regs .r0).bits = 0 := by
  have hp : Emitted (.ofInsns looksUp) [.call .MAP_LOOKUP_ELEM, .exit] :=
    emitted_of_no_jumps (by decide +kernel) (by decide)
  have hstart : Represents .flat id BpfState.blank.entry (.fresh .flat) :=
    represents_entry (MState.entry_fresh _) rfl fun r h1 h10 => by cases r <;> trivial
  have hfaithful : (pathInterp [.call .MAP_LOOKUP_ELEM, .exit]).StepsMeet
      (fun c insn => insn.Faithful c.1) (BpfState.blank.entry, [.AsNull]) 2 := by
    intro k _ c insn _ hfetch
    have hmem := List.mem_of_getElem? ((fetchAt_eq _ _).symm.trans hfetch)
    rcases List.mem_pair.mp hmem with rfl | rfl
    · intro heff
      cases heff
    · trivial
  obtain ⟨env, n, hn, s', ρ, hexec, hrep, -⟩ := execProgramPath_realized hp hstart hfaithful rfl
  exact ⟨env, n, hn, s', hexec, hrep.regs .r0⟩

/-- **What is verified of a programme holds of the machine**: where the steps are faithful and ask
nothing of the outside world, the machine goes to an EXIT in every world, in a state that one with
the postcondition stands for. -/
theorem programSatisfies_machine (hp : Emitted p prog) {spec : BpfSpec}
    (hsat : programSatisfies prog spec) {init final : BpfState} (hpre : spec.pre init)
    (h : Represents L ρ init.entry s)
    (hgood : (interp prog).StepsMeet (fun u insn => insn.Faithful u ∧ insn.Closed p u) init.entry
      prog.length)
    (hrun : execProgram init.entry prog prog.length = some final) :
    ∃ n < prog.length, ∃ s', (∀ env, exec p L env s n = some s') ∧
      (∃ insn, s'.At p insn ∧ insn.opcode = .exit) ∧ Represents L ρ final s' ∧ spec.post final := by
  have hpost := meets_iff.mp (hsat init hpre) final hrun
  obtain ⟨n, hn, hafter, insn, hfetch, hhalt⟩ := Interp.run_eq_some_iff.mp hrun
  obtain rfl := Insn.isExit_iff.mp hhalt
  have hstep : ∀ (u u' : BpfState) (finsn : Insn) (t : MState),
      (interp prog).fetch u = some finsn → (interp prog).halts finsn = false →
      finsn.Faithful u ∧ finsn.Closed p u → (interp prog).exec u finsn = some u' →
      Represents L ρ u t → ∃ t', (∀ ω, t.step L ω p = some t') ∧ Represents L ρ u' t' := by
    intro u u' finsn t hfetch hhalt ⟨hfaithful, hclosed⟩ hexec hrep
    obtain ⟨insn, hat, hto⟩ := hp.fetch hrep hfetch
    have hexit : finsn ≠ .exit := by
      rintro rfl
      cases hhalt
    obtain ⟨t', ht', hrep'⟩ := hp.forall_execute hrep hat hto hexit hfaithful hclosed hexec
    exact ⟨t', fun ω => (MState.step_eq hat).trans (ht' ω), hrep'⟩
  obtain ⟨s', hdrive, hrep⟩ := Interp.forall_drive hstep
    (fun k hk => hgood k (Nat.lt_trans hk hn)) h hafter
  exact ⟨n, hn, s', fun env => (exec_eq_drive ..).trans (hdrive env), hp.at_exit hrep hfetch, hrep,
    hpost⟩

/-- `*(u64 *)(r10 - 8) = 7; r0 = *(u64 *)(r10 - 8); exit`. -/
def keepsSeven : List BpfInsn := [.storeImm .dw .r10 (-8) 7, .load .dw .r0 .r10 (-8), .ret]

theorem programSatisfies_machine_keepsSeven : ∃ n < 3, ∃ s',
    (∀ env, exec (.ofInsns keepsSeven) .flat env (.fresh .flat) n = some s') ∧
      (s'.regs .r0).bits = 7 := by
  have hp : Emitted (.ofInsns keepsSeven)
      [.st .dw .r10 (-8) 7, .ldx .dw .r0 .r10 (-8), .exit] :=
    emitted_of_no_jumps (by decide +kernel) (by decide)
  have hstart : Represents .flat id BpfState.blank.entry (.fresh .flat) :=
    represents_entry (MState.entry_fresh _) rfl fun r h1 h10 => by cases r <;> trivial
  have hgood : (interp [.st .dw .r10 (-8) 7, .ldx .dw .r0 .r10 (-8), .exit]).StepsMeet
      (fun u insn => insn.Faithful u ∧ insn.Closed (.ofInsns keepsSeven) u) BpfState.blank.entry
      3 := by
    intro k hk u insn hu hfetch
    obtain rfl | rfl | rfl : k = 0 ∨ k = 1 ∨ k = 2 := by omega
    · obtain rfl := Option.some.inj hu
      obtain rfl := Option.some.inj hfetch
      exact ⟨trivial, trivial⟩
    · obtain rfl := Option.some.inj hu
      obtain rfl := Option.some.inj hfetch
      refine ⟨fun n hn => ?_, 0, rfl⟩
      obtain rfl := Option.some.inj hn
      exact ⟨by decide, by decide⟩
    · obtain rfl := Option.some.inj hu
      obtain rfl := Option.some.inj hfetch
      exact ⟨trivial, trivial⟩
  have hsat : programSatisfies [.st .dw .r10 (-8) 7, .ldx .dw .r0 .r10 (-8), .exit]
      ⟨fun init => init = .blank, fun final => final.regs .r0 = .scalar 7⟩ := by
    rintro init rfl
    exact rfl
  obtain ⟨n, hn, s', hexec, -, hrep, hpost⟩ :=
    programSatisfies_machine hp hsat (rfl : BpfState.blank = .blank) hstart hgood rfl
  exact ⟨n, hn, s', hexec, hrep.bits hpost⟩

end

end BpfVerifier.Fstar
