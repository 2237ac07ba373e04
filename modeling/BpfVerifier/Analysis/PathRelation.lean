import BpfVerifier.Analysis.Dataflow
import BpfVerifier.Fstar.Executors
import BpfVerifier.Machinery.Word

/-!
# Analysis/PathRelation — the abstract executor's states beside the F\* one's

`Simulates` relates a state of `execute_path` to a state of `exec_program_path`: the same counter,
the same rest of the schedule, and every abstract register true of the register.  `Faithful` is when
the two executors read an instruction alike; what they then do to registers, schedules and at
branches is compared kind by kind.
-/

namespace BpfVerifier.Dataflow

open Fstar (BpfState PathSchedule RegVal Insn Described PathEffect evalJmp64 evalJmp32)

/-! ## The relation -/

/-- What an abstract value says of a value. -/
def AbsValue.Describes : AbsValue → RegVal → Prop
  | .concrete n, v => v = .scalar n
  | .framePtr off, v => v = .framePtr off.toInt
  | .ctxPtr off, v => v = .ctxPtr off.toInt
  | .mapValuePtr _, v => ∃ id, v = .mapValuePtr id
  | .ringBufPtr _, v => ∃ id, v = .ringBufPtr id
  | .null, v => v = .null
  | .symbolic, _ => True

/-- The choices a state of the abstract executor has left. -/
def PathState.remaining (state : PathState) : PathSchedule :=
  (state.schedule.drop state.scheduleCursor).map PathChoice.toFstar

/-- **The abstract executor is where a run is**, and what it knows of the registers is true. -/
structure Simulates (state : PathState) (c : BpfState × PathSchedule) : Prop where
  pc : c.1.pc = state.pc
  regs : Described AbsValue.Describes state.regs c.1.regs
  schedule : c.2 = state.remaining

/-! ## Where the two executors read an instruction alike -/

/-- Moving a pointer stays inside an `i64`. -/
def AbsValue.Movable (v : AbsValue) (delta : Int) : Prop :=
  match v with
  | .framePtr off | .ctxPtr off => -2 ^ 63 ≤ off.toInt + delta ∧ off.toInt + delta < 2 ^ 63
  | _ => True

/-- A number compares with another in its low half as it does in whole. -/
def AbsValue.LowAgrees (op : JmpOp) (v : AbsValue) (s : BitVec 64) : Prop :=
  match v with
  | .concrete d => evalJmp32 op d s = evalJmp64 op d s
  | _ => True

/-- F\* takes "not zero" for "equal to the immediate", when that is not zero: right of zero and of
the immediate. -/
def AbsValue.ZeroTestAgrees (op : JmpOp) (v : AbsValue) (s : BitVec 64) : Prop :=
  match v with
  | .concrete d => (op = .jeq ∨ op = .jne) → s ≠ 0 → d = 0 ∨ d = s
  | _ => True

/-- A jump that is taken leads to an index that an `i32` holds. -/
def Lands (state : PathState) (insn : BpfInsn) : Prop :=
  0 ≤ (state.pc : Int) + 1 + insn.offset.toInt ∧
    (state.pc : Int) + 1 + insn.offset.toInt < 2 ^ 31

/-- **The abstract executor reads an instruction as F\* does**: a 32-bit MOV has a nonnegative
immediate, a 32-bit comparison comes out as on 64 bits, an equality with an immediate other than
zero is asked of zero or of that number, and nothing leaves the machine integers. -/
def Faithful (state : PathState) (insn : BpfInsn) : Prop :=
  match insn.opcode with
  | .alu32 .mov .imm => insn.imm.msb = false
  | .alu64 .add .imm => (state.regs insn.dst).Movable insn.imm.toInt
  | .alu64 .sub .imm => (state.regs insn.dst).Movable (-insn.imm.toInt)
  | .jmp64 op .imm => (state.regs insn.dst).ZeroTestAgrees op insn.immS ∧
      (resolveBranch state insn = some true → Lands state insn)
  | .jmp64 _ .reg => resolveBranch state insn = some true → Lands state insn
  | .jmp32 op .imm => (state.regs insn.dst).LowAgrees op insn.immS ∧
      (resolveBranch state insn = some true → Lands state insn)
  | .jmp32 op .reg =>
    (∀ s, state.regs insn.src = .concrete s → (state.regs insn.dst).LowAgrees op s) ∧
      (resolveBranch state insn = some true → Lands state insn)
  | .jmpJa => Lands state insn
  | _ => True

/-- A conditional jump is decided. -/
def Decided (state : PathState) (insn : BpfInsn) : Prop :=
  match insn.opcode with
  | .jmp64 _ _ | .jmp32 _ _ => (resolveBranch state insn).isSome = true
  | _ => True

/-! ## Branches -/

/-- A decided comparison of a number is the comparison of the unsigned readings. -/
theorem compareAbs_concrete {op : JmpOp} {d s : BitVec 64} {b : Bool}
    (h : compareAbs op (.concrete d) s = some b) : b = evalJmp64 op d s := by
  cases op <;>
    simp_all [compareAbs, evalJmp64, Fstar.evalJmp, BitVec.toNat_eq, BitVec.lt_def, BitVec.le_def]

/-- What a decided comparison is of, other than a number: null or a pointer, asked whether it is
zero. -/
theorem isZero_of_compareAbs {op : JmpOp} {v : AbsValue} {x : RegVal} {s : BitVec 64} {b : Bool}
    (hv : v.Describes x) (hne : ∀ d, v ≠ .concrete d) (h : compareAbs op v s = some b) :
    s = 0 ∧ ∃ isZero, Fstar.regValIsZero x = some isZero ∧ (∀ n, x ≠ .scalar n) ∧
      (op = .jeq ∧ b = isZero ∨ op = .jne ∧ b = !isZero) := by
  unfold compareAbs at h
  split at h
  all_goals first
    | exact absurd rfl (hne _)
    | (split at h
       · next hs =>
          obtain rfl := Option.some.inj h
          first
            | (obtain rfl : x = .null := hv; exact ⟨hs, true, rfl, by simp, by simp⟩)
            | (obtain ⟨id, rfl⟩ := hv; exact ⟨hs, false, rfl, by simp, by simp⟩)
       · cases h)
    | cases h

section

variable {state : PathState} {st : BpfState} {insn : BpfInsn} {finsn : Insn} {taken : Bool}
  {cond : Bool} {off : Int}

/-- **A decided 64-bit comparison with an immediate goes the way of F\*.** -/
theorem decided_jmp64Imm {op : JmpOp} {dst : Reg} {imm : BitVec 32} {v : AbsValue}
    (hv : v.Describes (st.regs dst)) (hagrees : v.ZeroTestAgrees op (imm.signExtend 64))
    (hres : compareAbs op v (imm.signExtend 64) = some taken)
    (hcond : (Insn.jmp64Imm op dst imm off).condition st = some (cond, off)) : taken = cond := by
  have himm : Fstar.signExtendImm imm = imm.signExtend 64 := rfl
  by_cases hconcrete : ∃ d, v = .concrete d
  · obtain ⟨d, rfl⟩ := hconcrete
    have hreg : st.regs dst = .scalar d := hv
    rw [compareAbs_concrete hres]
    simp only [Insn.condition, hreg, Fstar.regValIsZero, Fstar.scalarVal, Option.map_some,
      himm] at hcond
    by_cases hjeq : op = .jeq
    · subst hjeq
      by_cases hzero : (imm.signExtend 64) = 0
      · simp_all [evalJmp64, Fstar.evalJmp, BitVec.toNat_eq]
      · rcases hagrees (Or.inl rfl) hzero with rfl | rfl <;>
          simp_all [evalJmp64, Fstar.evalJmp, BitVec.toNat_eq, eq_comm]
    · by_cases hjne : op = .jne
      · subst hjne
        by_cases hzero : (imm.signExtend 64) = 0
        · simp_all [evalJmp64, Fstar.evalJmp, BitVec.toNat_eq]
        · rcases hagrees (Or.inr rfl) hzero with rfl | rfl <;>
            simp_all [evalJmp64, Fstar.evalJmp, BitVec.toNat_eq, eq_comm]
      · simp only [hjeq, hjne, if_false, Option.some.injEq, Prod.mk.injEq] at hcond
        exact hcond.1
  · obtain ⟨hzero, isZero, hisZero, -, hop⟩ :=
      isZero_of_compareAbs hv (fun d hd => hconcrete ⟨d, hd⟩) hres
    rcases hop with ⟨rfl, rfl⟩ | ⟨rfl, rfl⟩ <;>
      simp_all [Insn.condition]

/-- **A decided 64-bit comparison of registers goes the way of F\*.** -/
theorem decided_jmp64Reg {op : JmpOp} {dst src : Reg} {v : AbsValue} {s : BitVec 64}
    (hv : v.Describes (st.regs dst)) (hsrc : st.regs src = .scalar s)
    (hres : compareAbs op v s = some taken)
    (hcond : (Insn.jmp64Reg op dst src off).condition st = some (cond, off)) : taken = cond := by
  by_cases hconcrete : ∃ d, v = .concrete d
  · obtain ⟨d, rfl⟩ := hconcrete
    have hreg : st.regs dst = .scalar d := hv
    rw [compareAbs_concrete hres]
    simpa [Insn.condition, hreg, hsrc, Fstar.regValForJmp] using hcond
  · obtain ⟨rfl, isZero, hisZero, hne, hop⟩ :=
      isZero_of_compareAbs hv (fun d hd => hconcrete ⟨d, hd⟩) hres
    -- only null has a number to compare
    cases hreg : st.regs dst with
    | scalar n => exact absurd hreg (hne n)
    | null =>
      simp only [hreg, Fstar.regValIsZero, Option.some.injEq] at hisZero
      subst hisZero
      rcases hop with ⟨rfl, rfl⟩ | ⟨rfl, rfl⟩ <;>
        simpa [Insn.condition, hreg, hsrc, Fstar.regValForJmp, evalJmp64, Fstar.evalJmp] using hcond
    | _ => simp [Insn.condition, hreg, hsrc, Fstar.regValForJmp] at hcond

/-- A 32-bit comparison of a number that agrees with the 64-bit one. -/
theorem decided_low {op : JmpOp} {v : AbsValue} {x : RegVal} {d s : BitVec 64}
    (hv : v.Describes x) (hx : x = .scalar d) (hagrees : v.LowAgrees op s)
    (hres : compareAbs op v s = some taken) : taken = evalJmp32 op d s := by
  by_cases hconcrete : ∃ d, v = .concrete d
  · obtain ⟨d', rfl⟩ := hconcrete
    obtain rfl : d' = d := RegVal.scalar.inj (hv.symm.trans hx)
    rw [compareAbs_concrete hres]
    exact hagrees.symm
  · obtain ⟨-, -, -, hne, -⟩ := isZero_of_compareAbs hv (fun d hd => hconcrete ⟨d, hd⟩) hres
    exact absurd hx (hne d)

/-- **A decided branch goes the way the F\* run goes.** -/
theorem decided_condition (hto : insn.toFstar = some finsn)
    (hregs : Described AbsValue.Describes state.regs st.regs) (hfaithful : Faithful state insn)
    (hres : resolveBranch state insn = some taken)
    (hcond : finsn.condition st = some (cond, off)) : taken = cond := by
  have hjump := (Fstar.condition_offset hcond).1
  unfold resolveBranch at hres
  unfold Faithful at hfaithful
  unfold BpfInsn.toFstar at hto
  cases hop : insn.opcode with
  | jmp64 op src =>
    cases src with
    | imm =>
      simp only [hop, Option.some.injEq] at hres hfaithful hto
      subst hto
      obtain rfl := Option.some.inj hjump
      exact decided_jmp64Imm (hregs insn.dst) hfaithful.1 hres hcond
    | reg =>
      simp only [hop, Option.some.injEq] at hres hto
      subst hto
      obtain rfl := Option.some.inj hjump
      cases hsrc : state.regs insn.src <;> simp only [hsrc, reduceCtorEq] at hres
      have hscalar := hregs insn.src
      rw [hsrc] at hscalar
      exact decided_jmp64Reg (hregs insn.dst) hscalar hres hcond
  | jmp32 op src =>
    cases src with
    | imm =>
      simp only [hop, Option.some.injEq] at hres hfaithful hto
      subst hto
      simp only [Insn.condition] at hcond
      obtain ⟨d, hd, hpair⟩ := Option.map_eq_some_iff.mp hcond
      rw [decided_low (hregs insn.dst) (Fstar.scalarVal_eq_some.mp hd) hfaithful.1 hres]
      exact (Prod.mk.inj hpair).1
    | reg =>
      simp only [hop, Option.some.injEq] at hres hfaithful hto
      subst hto
      cases hsrc : state.regs insn.src <;> simp only [hsrc, reduceCtorEq] at hres
      have hscalar := hregs insn.src
      rw [hsrc] at hscalar
      have hscalar : st.regs insn.src = .scalar _ := hscalar
      simp only [Insn.condition, hscalar, Fstar.scalarVal] at hcond
      split at hcond
      · next d s hd hs =>
        obtain rfl := Option.some.inj hs
        rw [decided_low (hregs insn.dst) (Fstar.scalarVal_eq_some.mp hd) (hfaithful.1 _ hsrc) hres]
        exact (Prod.mk.inj (Option.some.inj hcond)).1
      · cases hcond
  | _ => simp [hop] at hres

end

/-! ## Instructions that do not jump -/

/-- An instruction that writes a register puts some value there. -/
theorem regs_of_writes {st st' : BpfState} {finsn : Insn} {dst : Reg}
    (hdst : finsn.writes = some dst) (h : Fstar.Effect st finsn st') :
    ∃ v, st'.regs = Fstar.setReg st.regs dst v := by
  cases h with
  | move d s =>
    obtain rfl := Option.some.inj hdst
    exact ⟨_, rfl⟩
  | @shift op d imm delta v hdelta hv =>
    obtain rfl := Option.some.inj hdst
    exact ⟨v, rfl⟩
  | @number _ d n hd =>
    obtain rfl := Option.some.inj ((Fstar.writes_of_numberDst hd).symm.trans hdst)
    exact ⟨_, rfl⟩
  | store stack ringbuf hstore => cases finsn <;> simp_all [Insn.isStore, Insn.writes]
  | branch hcond =>
    have hoff := (Fstar.condition_offset hcond).1
    cases finsn <;> simp_all [Insn.branchOffset, Insn.writes]
  | goto off => cases hdst
  | exit => cases hdst

theorem regs_of_store {st st' : BpfState} {finsn : Insn} (hstore : finsn.isStore = true)
    (h : Fstar.Effect st finsn st') : st'.regs = st.regs := by
  cases h with
  | move dst src => cases hstore
  | shift hdelta hv => cases hstore
  | number n hdst => cases finsn <;> simp_all [Insn.isStore, Insn.numberDst]
  | _ => rfl

section

variable {state : PathState} {c c' : BpfState × PathSchedule} {insn : BpfInsn} {finsn : Insn}

/-- Only a call takes a choice. -/
theorem schedule_of_pathEffect (hcall : finsn.isCall = false)
    (h : PathEffect c.1 c.2 finsn c'.1 c'.2) :
    c'.2 = c.2 ∧ Fstar.execInsn c.1 finsn = some c'.1 := by
  obtain ⟨st, sched⟩ := c
  obtain ⟨st', sched'⟩ := c'
  cases h with
  | plain hcall hexec heff => exact ⟨rfl, hexec⟩
  | nullable hspec hnull => cases hcall
  | number hspec hnull => cases hcall

/-- An instruction that writes one register, with a value that is true of it. -/
theorem Simulates.write (h : Simulates state c) {dst : Reg} {v : AbsValue} {x : RegVal}
    (hv : v.Describes x) (hregs : c'.1.regs = Fstar.setReg c.1.regs dst x)
    (hpc : c'.1.pc = c.1.pc + 1) (hsched : c'.2 = c.2) :
    Simulates ((state.set dst v).goto (state.pc + 1)) c' where
  pc := by
    rw [hpc, h.pc]
    rfl
  regs := by
    rw [hregs]
    exact h.regs.set dst hv
  schedule := hsched.trans h.schedule

/-- An instruction that writes no register. -/
theorem Simulates.keep (h : Simulates state c) {pc : ℕ} (hregs : c'.1.regs = c.1.regs)
    (hpc : c'.1.pc = pc) (hsched : c'.2 = c.2) : Simulates (state.goto pc) c' where
  pc := hpc
  regs := by
    rw [hregs]
    exact h.regs
  schedule := hsched.trans h.schedule

/-- Recording a write touches neither registers nor schedule. -/
theorem Simulates.record (h : Simulates state c) (insn : BpfInsn) (width : MemWidth)
    (value : Option (BitVec 64)) : Simulates (recordWrite state insn width value) c := by
  unfold recordWrite
  split
  · exact ⟨h.pc, h.regs, h.schedule⟩
  · exact h

/-- What moving an abstract value makes of it. -/
def moved (v : AbsValue) (delta : BitVec 64) : AbsValue :=
  match v with
  | .framePtr off => .framePtr (off + delta)
  | .ctxPtr off => .ctxPtr (off + delta)
  | .concrete d => .concrete (d + delta)
  | _ => .symbolic

/-- **ADD and SUB of an immediate move numbers and pointers alike.** -/
theorem describes_moved {st st' : BpfState} {dst : Reg} {v : AbsValue} {imm : BitVec 32}
    (delta : BitVec 64) {op : AluOp} (hv : v.Describes (st.regs dst))
    (hop : op = .add ∧ delta = imm.signExtend 64 ∨ op = .sub ∧ delta = -imm.signExtend 64)
    (hmovable : v.Movable delta.toInt)
    (h : Fstar.execInsn st (.alu64Imm op dst imm) = some st')
    (hdelta : Fstar.shiftDelta op imm = some delta.toInt) :
    ∃ x, (moved v delta).Describes x ∧ st'.regs = Fstar.setReg st.regs dst x := by
  have hany (hsym : moved v delta = .symbolic) :
      ∃ x, (moved v delta).Describes x ∧ st'.regs = Fstar.setReg st.regs dst x := by
    obtain ⟨x, hx⟩ := regs_of_writes rfl (Fstar.effect_of_execInsn rfl h)
    exact ⟨x, hsym ▸ trivial, hx⟩
  have hptr (x : RegVal) (hx : Fstar.shiftPtr (st.regs dst) delta.toInt = some x)
      (hmoved : (moved v delta).Describes x) :
      ∃ x, (moved v delta).Describes x ∧ st'.regs = Fstar.setReg st.regs dst x := by
    rw [Fstar.execInsn_shift hdelta hx] at h
    exact ⟨x, hmoved, by rw [← Option.some.inj h]; rfl⟩
  have hsum {off : BitVec 64} (hm : -2 ^ 63 ≤ off.toInt + delta.toInt ∧
      off.toInt + delta.toInt < 2 ^ 63) : (off + delta).toInt = off.toInt + delta.toInt :=
    Word.toInt_add_of_bounds hm.1 hm.2
  cases v with
  | concrete d =>
    have hreg : st.regs dst = .scalar d := hv
    refine ⟨.scalar (d + delta), rfl, ?_⟩
    rcases hop with ⟨rfl, rfl⟩ | ⟨rfl, rfl⟩ <;>
      simp only [Fstar.execInsn, Fstar.execAlu64Imm, hreg, BpfState.setNumber, Fstar.alu64,
        Option.map_some, Option.some.injEq] at h
    · rw [← h]
      rfl
    · rw [← h, ← BitVec.sub_eq_add_neg]
      rfl
  | framePtr off =>
    have hreg : st.regs dst = .framePtr off.toInt := hv
    exact hptr _ (by rw [hreg]; rfl) (congrArg RegVal.framePtr (hsum hmovable).symm)
  | ctxPtr off =>
    have hreg : st.regs dst = .ctxPtr off.toInt := hv
    exact hptr _ (by rw [hreg]; rfl) (congrArg RegVal.ctxPtr (hsum hmovable).symm)
  | _ => exact hany rfl

end

/-! ## Calls -/

/-- The two helper tables agree on which results may be null, and on their kind. -/
theorem retType_of_ofName {h : HelperSpec} (hm : h ∈ HELPERS) {hid : Fstar.HelperId}
    {spec : Fstar.HelperSpec} (hname : Fstar.HelperId.ofName h.name = some hid)
    (hspec : Fstar.getHelperSpec hid = some spec) :
    (h.retType = .mapPtr ↔ spec.retType = .RetMapPtr) ∧
      (h.retType = .ringBufPtr ↔ spec.retType = .RetRingBufPtr) := by
  have htable : ∀ h ∈ HELPERS, (Fstar.HelperId.ofName h.name).all fun hid =>
      (Fstar.getHelperSpec hid).all fun spec =>
        decide ((h.retType = .mapPtr ↔ spec.retType = .RetMapPtr) ∧
          (h.retType = .ringBufPtr ↔ spec.retType = .RetRingBufPtr)) := by
    decide +kernel
  simpa [hname, hspec] using htable h hm

theorem choice_remaining (state : PathState) : state.remaining.choice =
    (state.schedule.getD state.scheduleCursor .nonNull).toFstar := by
  unfold PathState.remaining PathSchedule.choice
  rw [List.head?_map, List.head?_drop, List.getD_eq_getElem?_getD]
  cases state.schedule[state.scheduleCursor]? <;> rfl

/-- Past the end of the schedule the cursor stays. -/
theorem tail_remaining (state : PathState) (id : ℕ) : state.remaining.tail =
    PathState.remaining { state with
      scheduleCursor := if state.scheduleCursor < state.schedule.length then
        state.scheduleCursor + 1 else state.scheduleCursor
      nextPtrId := id } := by
  unfold PathState.remaining
  rw [← List.map_tail, List.tail_drop]
  dsimp only
  split
  · rfl
  · next hge =>
    rw [List.drop_eq_nil_of_le (by omega), List.drop_eq_nil_of_le (by omega)]

/-- Forgetting registers keeps what is known of the others. -/
theorem described_forget {regs : Fstar.RegFile} (rs : List Reg) {state : PathState}
    (h : Described AbsValue.Describes state.regs regs) :
    Described AbsValue.Describes (rs.foldl (fun s r => s.set r .symbolic) state).regs regs := by
  induction rs generalizing state with
  | nil => exact h
  | cons r rest ih => exact ih (h.forget r trivial)

theorem remaining_forget (rs : List Reg) (state : PathState) :
    (rs.foldl (fun s r => s.set r .symbolic) state).remaining = state.remaining := by
  induction rs generalizing state with
  | nil => rfl
  | cons r rest ih => exact ih (state.set r .symbolic)

/-- What a nullable helper leaves in r0 under a choice. -/
theorem returnsChoice_regs_eq (st : BpfState) (ret : Fstar.HelperRet) (choice : Fstar.PathChoice) :
    (st.returnsChoice ret choice).regs = Fstar.setReg st.regs .r0
      (match choice with
      | .AsNull => .null
      | .NonNull =>
        if ret = .RetMapPtr then .mapValuePtr st.nextMapId else .ringBufPtr st.nextMapId) := by
  cases choice with
  | AsNull => rfl
  | NonNull => cases ret <;> rfl

/-- The result of a nullable helper is the one the abstract executor chooses. -/
theorem described_choice {regs : Fstar.RegFile} (state : PathState)
    (h : Described AbsValue.Describes state.regs regs) (choice : PathChoice) {ptr : AbsValue}
    {x : RegVal} (hptr : ptr.Describes x) :
    Described AbsValue.Describes
      (match choice with
      | .nonNull => state.set .r0 ptr
      | .asNull => state.set .r0 .null).regs
      (Fstar.setReg regs .r0
        (match choice.toFstar with
        | .AsNull => .null
        | .NonNull => x)) := by
  cases choice with
  | nonNull => exact h.set .r0 hptr
  | asNull => exact h.set .r0 rfl

theorem remaining_choice (state : PathState) (choice : PathChoice) (ptr : AbsValue) :
    (match choice with
      | .nonNull => state.set .r0 ptr
      | .asNull => state.set .r0 .null).remaining = state.remaining := by
  cases choice <;> rfl

/-- A call of a helper that F\* specifies is one of a helper in the Rust table. -/
theorem exists_getHelper_of_spec {insn : BpfInsn} {hid : Fstar.HelperId} {spec : Fstar.HelperSpec}
    (hhelper : insn.fstarHelper = some hid) (hspec : Fstar.getHelperSpec hid = some spec) :
    ∃ h₀, getHelper insn.imm = some h₀ ∧ Fstar.HelperId.ofName h₀.name = some hid := by
  unfold BpfInsn.fstarHelper at hhelper
  split at hhelper
  · next h₀ hget => exact ⟨h₀, hget, hhelper⟩
  · split at hhelper
    · cases hhelper
    · obtain rfl := Option.some.inj hhelper
      cases hspec

section

variable {state : PathState} {c c' : BpfState × PathSchedule} {insn : BpfInsn}

/-- **A call takes the same choice on both sides.** -/
theorem tracks_call {hid : Fstar.HelperId} (h : Simulates state c)
    (hhelper : insn.fstarHelper = some hid) (heffect : PathEffect c.1 c.2 (.call hid) c'.1 c'.2) :
    Described AbsValue.Describes (handleCall state insn).regs c'.1.regs ∧
      c'.2 = (handleCall state insn).remaining := by
  obtain ⟨spec, hspec⟩ := Fstar.exists_spec_of_call heffect
  obtain ⟨h₀, hget, hname⟩ := exists_getHelper_of_spec hhelper hspec
  obtain ⟨hmap, hring⟩ := retType_of_ofName (mem_helpers_of_getHelper hget) hname hspec
  -- a nullable result, known as `ptr` to the abstract executor and `x` to F*
  have hnullable (ptr : AbsValue) {x : RegVal} (hptr : ptr.Describes x)
      (hregs : c'.1.regs = Fstar.setReg c.1.regs .r0
        (match c.2.choice with
        | .AsNull => .null
        | .NonNull => x)) (hsched : c'.2 = c.2.tail) :
      let next := { state with
        scheduleCursor := if state.scheduleCursor < state.schedule.length then
          state.scheduleCursor + 1 else state.scheduleCursor
        nextPtrId := state.nextPtrId + 1 }
      let called := match state.schedule.getD state.scheduleCursor .nonNull with
        | .nonNull => next.set .r0 ptr
        | .asNull => next.set .r0 .null
      Described AbsValue.Describes
          (argRegs.foldl (fun s r => s.set r .symbolic) called).regs c'.1.regs ∧
        c'.2 = (argRegs.foldl (fun s r => s.set r .symbolic) called).remaining := by
    intro next called
    constructor
    · rw [hregs, h.schedule, choice_remaining]
      exact described_forget argRegs (described_choice next h.regs _ hptr)
    · rw [remaining_forget, hsched, h.schedule, tail_remaining state (state.nextPtrId + 1)]
      exact (remaining_choice next _ ptr).symm
  obtain ⟨st, sched⟩ := c
  obtain ⟨st', sched'⟩ := c'
  unfold handleCall
  rw [hget, Option.map_some]
  cases heffect with
  | plain hcall => cases hcall
  | @nullable _ spec' hspec' hnull =>
    obtain rfl := Option.some.inj (hspec.symm.trans hspec')
    have hresult := returnsChoice_regs_eq (Fstar.applyHelperEffect st spec.sideEffect)
      spec.retType sched.choice
    rw [Fstar.applyHelperEffect_regs, Fstar.applyHelperEffect_nextMapId] at hresult
    have hkind : spec.retType = .RetMapPtr ∨ spec.retType = .RetRingBufPtr := by
      unfold Fstar.HelperSpec.nullable at hnull
      cases hret : spec.retType <;> simp_all
    rcases hkind with hret | hret
    · rw [hmap.mpr hret]
      rw [if_pos hret] at hresult
      exact hnullable (.mapValuePtr state.nextPtrId) ⟨_, rfl⟩ hresult rfl
    · rw [hring.mpr hret]
      rw [if_neg (by simp [hret])] at hresult
      exact hnullable (.ringBufPtr state.nextPtrId) ⟨_, rfl⟩ hresult rfl
  | @number _ spec' hspec' hnull =>
    obtain rfl := Option.some.inj (hspec.symm.trans hspec')
    have hplain : Described AbsValue.Describes
        (argRegs.foldl (fun s r => s.set r .symbolic) (state.set .r0 .symbolic)).regs
        ((Fstar.applyHelperEffect st spec.sideEffect).returns (.scalar 0)).regs := by
      refine described_forget argRegs ?_
      rw [BpfState.returns, Fstar.applyHelperEffect_regs]
      exact h.regs.set .r0 trivial
    have hsched : sched = (argRegs.foldl (fun s r => s.set r .symbolic)
        (state.set .r0 .symbolic)).remaining := by
      rw [remaining_forget]
      exact h.schedule
    cases hret : h₀.retType with
    | mapPtr => simp [Fstar.HelperSpec.nullable, hmap.mp hret] at hnull
    | ringBufPtr => simp [Fstar.HelperSpec.nullable, hring.mp hret] at hnull
    | _ => exact ⟨hplain, hsched⟩

end

end BpfVerifier.Dataflow
