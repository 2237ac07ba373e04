import BpfVerifier.Checks.StackBounds
import BpfVerifier.Checks.Tracking

/-!
# Checks/StackSound — what an accepting stack-bounds pass says of a run

The invariant `FramesSeen`: the pass knows the offset of every frame pointer in a register, unless
it has lost it (`frameLost`).  Every step keeps it (`framesSeen_effect`).
-/

namespace BpfVerifier.Fstar

/-! ## What the pass loses -/

def RegVal.isFramePtr : RegVal → Bool
  | .framePtr _ => true
  | _ => false

/-- No instruction writes r10. -/
def keepsR10 (prog : BpfProgram) : Bool := prog.all fun insn => insn.writes ≠ some .r10

/-- Some jump that the pass saves its state for leads to an instruction. -/
def joinsAt (prog : BpfProgram) (target : Int) : Bool :=
  (List.range prog.length).any fun i => prog[i]?.any fun insn => insn.branchOffset.any fun off =>
    (!insn.isJa || off < 0) && (i : Int) + 1 + off = target

/-- **The frame pointers a step makes the pass lose**: those in r1–r5 at a call, which the executor
keeps and the pass forgets, and those held over a step that the pass does not follow or that leads
to an instruction where it joins — all but r10, in a programme that does not write it. -/
def frameLost (prog : BpfProgram) : Losses := fun insn st st' r =>
  atCall insn r ||
    (unfollowed insn st st' || joinsAt prog st'.pc.toNat) && !(r = .r10 && keepsR10 prog)

/-- The pass knows the offsets of the unmarked frame pointers. -/
def FramesIn (abs : AbsState) (regs : RegFile) (m : Marks) : Prop :=
  ∀ r, m r = false → ∀ off, regs r = .framePtr off → abs r = .AbsFramePtr off

/-- **The pass knows every frame pointer it has not lost**, at the instruction a run has reached;
and r10 is as at the entry when nothing writes it. -/
structure FramesSeen (prog : BpfProgram) (st : BpfState) (m : Marks) : Prop where
  r10 : keepsR10 prog = true → st.regs .r10 = .framePtr 0
  known : ∀ abs, sbAt prog st.pc.toNat = some abs → FramesIn abs st.regs m

/-! ## Instruction 0 -/

theorem joinReg_self (a : AbsReg) : joinReg a a = a := by
  cases a <;> simp [joinReg]

theorem joinStates_self (a : AbsState) : joinStates a a = a := by
  funext r
  exact joinReg_self (a r)

theorem sbTargets_eq (prog : BpfProgram) (i : Int) :
    sbTargets prog i = none ∨ sbTargets prog i = some (widenSb absInit) :=
  Scanner.initLoopTargets_eq (joinStates_self _) (fun _ => Or.inl rfl) i

/-- The pass starts out knowing r10, whether or not instruction 0 is a loop head. -/
theorem sbAt_zero_r10 {prog : BpfProgram} {abs : AbsState} (h : sbAt prog 0 = some abs) :
    abs .r10 = .AbsFramePtr 0 := by
  have hzero : sbAt prog 0 = some (sbScanner.applyTargets absInit 0 (sbTargets prog)).1 := by
    simp [sbAt, Scanner.mergedAt, Scanner.stateAt, Scanner.stateFrom]
  obtain rfl := Option.some.inj (hzero.symm.trans h)
  rcases sbTargets_eq prog 0 with hnone | hsome
  · simp [Scanner.applyTargets, hnone, absInit]
  · simp [Scanner.applyTargets, hsome, sbScanner, joinStates, widenSb, forgetCallerSaved, absSet,
      absInit, joinReg]

/-! ## What the transfer does -/

section

variable {abs : AbsState} {regs : RegFile} {m : Marks}

/-- More marks leave less to know. -/
theorem FramesIn.mark {m' : Marks} (h : FramesIn abs regs m)
    (hle : ∀ r, m' r = false → m r = false) : FramesIn abs regs m' :=
  fun r hm => h r (hle r hm)

/-- A write of a value that the pass knows if it is a frame pointer. -/
theorem FramesIn.set (h : FramesIn abs regs m) (dst : Reg) {v : RegVal} {a : AbsReg} {b : Bool}
    (hv : b = false → ∀ off, v = .framePtr off → a = .AbsFramePtr off) :
    FramesIn (absSet abs dst a) (setReg regs dst v) (setMark m dst b) := by
  intro r hm off hr
  unfold absSet
  unfold setReg at hr
  unfold setMark at hm
  split
  · next heq =>
    rw [if_pos heq] at hr hm
    exact hv hm off hr
  · next hne =>
    rw [if_neg hne] at hr hm
    exact h r hm off hr

/-- A marked register may be forgotten. -/
theorem FramesIn.forget (h : FramesIn abs regs m) {dst : Reg} (a : AbsReg) (hdst : m dst = true) :
    FramesIn (absSet abs dst a) regs m := by
  intro r hm off hr
  unfold absSet
  split
  · next heq =>
    rw [heq, hdst] at hm
    cases hm
  · exact h r hm off hr

end

theorem transferSb_number {abs fall : AbsState} {insn : Insn} {pc : Int} {dst : Reg}
    {edge : Option (Int × AbsState)} (hdst : insn.numberDst = some dst)
    (h : transferSb abs insn pc = some (fall, edge)) : ∃ a, fall = absSet abs dst a := by
  cases insn with
  | alu64Reg op d s => cases op <;> simp_all [Insn.numberDst, transferSb] <;> exact ⟨_, h.1.symm⟩
  | alu64Imm op d imm => cases op <;> simp_all [Insn.numberDst, transferSb] <;> exact ⟨_, h.1.symm⟩
  | ldx width d src off =>
    simp_all [Insn.numberDst, transferSb]
    exact ⟨_, h.2.1.symm⟩
  | _ =>
    simp_all [Insn.numberDst, transferSb] <;> exact ⟨_, h.1.symm⟩

theorem transferSb_store {abs fall : AbsState} {insn : Insn} {pc : Int}
    {edge : Option (Int × AbsState)} (hstore : insn.isStore = true)
    (h : transferSb abs insn pc = some (fall, edge)) : fall = abs := by
  cases insn <;> simp_all [Insn.isStore, transferSb]

theorem transferSb_shift {abs fall : AbsState} {op : AluOp} {dst : Reg} {imm : BitVec 32}
    {pc delta : Int} {edge : Option (Int × AbsState)} (hdelta : shiftDelta op imm = some delta)
    (h : transferSb abs (.alu64Imm op dst imm) pc = some (fall, edge)) :
    fall = absSet abs dst (shiftReg (abs dst) delta) := by
  cases op <;> simp_all [shiftDelta, transferSb]

theorem transferSb_branch {abs fall : AbsState} {insn : Insn} {pc offset : Int}
    {edge : Option (Int × AbsState)} (hoff : insn.branchOffset = some offset)
    (hja : insn.isJa = false) (h : transferSb abs insn pc = some (fall, edge)) :
    fall = abs ∧ edge = some (pc + 1 + offset, abs) := by
  have hshape : transferSb abs insn pc = some (abs, some (pc + 1 + offset, abs)) := by
    cases insn <;> simp_all [Insn.branchOffset, Insn.isJa, transferSb]
  obtain ⟨hfall, hedge⟩ := Prod.ext_iff.mp (Option.some.inj (h.symm.trans hshape))
  exact ⟨hfall, hedge⟩

/-- A saved jump is one of the programme's, other than a JA. -/
theorem transferSb_edge {abs fall : AbsState} {insn : Insn} {pc : Int} {e : Int × AbsState}
    (h : transferSb abs insn pc = some (fall, some e)) :
    e.2 = abs ∧ insn.isJa = false ∧ ∃ off, insn.branchOffset = some off ∧ pc + 1 + off = e.1 := by
  cases insn with
  | alu64Reg op d s => cases op <;> simp [transferSb] at h
  | alu64Imm op d imm => cases op <;> simp [transferSb] at h
  | _ =>
    simp_all [transferSb, Insn.isJa, Insn.branchOffset] <;>
      (obtain ⟨rfl, rfl⟩ := h; simp)

/-- A call keeps the unmarked frame pointers known. -/
theorem framesIn_call {prog : BpfProgram} {abs : AbsState} {st st' : BpfState}
    {sched sched' : PathSchedule} {hid : HelperId} {m : Marks} (h : FramesIn abs st.regs m)
    (heffect : PathEffect st sched (.call hid) st' sched') :
    FramesIn (forgetCallerSaved abs) st'.regs (track (frameLost prog) (.call hid) st st' m) := by
  obtain ⟨v, hregs, -, hv, -⟩ := call_regs heffect
  have hframe (off : Int) : v ≠ .framePtr off := by
    rcases hv with rfl | rfl | rfl | rfl <;> simp
  have hset : FramesIn (absSet abs .r0 .AbsOther) st'.regs (setMark m .r0 false) := by
    rw [hregs]
    exact h.set .r0 fun _ off hoff => absurd hoff (hframe off)
  have htrack : FramesIn (absSet abs .r0 .AbsOther) st'.regs
      (track (frameLost prog) (.call hid) st st' m) :=
    hset.mark fun r hr => (track_eq_false.mp hr).2
  have harg (r : Reg) (hr : r ∈ argRegs) :
      track (frameLost prog) (.call hid) st st' m r = true := by
    simp [track, frameLost, atCall, Insn.isCall, hr]
  unfold forgetCallerSaved
  exact ((((htrack.forget _ (harg .r1 (by decide))).forget _ (harg .r2 (by decide))).forget _
    (harg .r3 (by decide))).forget _ (harg .r4 (by decide))).forget _ (harg .r5 (by decide))

/-! ## r10 -/

variable {prog : BpfProgram}

theorem joinStates_r10 {a b : AbsState} (ha : a .r10 = .AbsFramePtr 0)
    (hb : b .r10 = .AbsFramePtr 0) : sbScanner.join a b .r10 = .AbsFramePtr 0 := by
  simp [sbScanner, joinStates, ha, hb, joinReg]

theorem transferSb_r10 {abs fall : AbsState} {insn : Insn} {pc : Int}
    {edge : Option (Int × AbsState)} (hwrites : insn.writes ≠ some .r10)
    (h : transferSb abs insn pc = some (fall, edge)) : fall .r10 = abs .r10 := by
  have hset (dst : Reg) (a : AbsReg) (hdst : dst ≠ .r10) : absSet abs dst a .r10 = abs .r10 :=
    if_neg hdst.symm
  cases insn with
  | alu64Reg op d s =>
    have hd : d ≠ .r10 := fun heq => hwrites (congrArg some heq)
    cases op <;> obtain ⟨rfl, -⟩ := Prod.ext_iff.mp (Option.some.inj h) <;> exact hset d _ hd
  | alu64Imm op d imm =>
    have hd : d ≠ .r10 := fun heq => hwrites (congrArg some heq)
    cases op <;> obtain ⟨rfl, -⟩ := Prod.ext_iff.mp (Option.some.inj h) <;> exact hset d _ hd
  | alu32Reg op d s =>
    obtain ⟨rfl, -⟩ := Prod.ext_iff.mp (Option.some.inj h)
    exact hset d _ fun heq => hwrites (congrArg some heq)
  | alu32Imm op d imm =>
    obtain ⟨rfl, -⟩ := Prod.ext_iff.mp (Option.some.inj h)
    exact hset d _ fun heq => hwrites (congrArg some heq)
  | ldImm64 d imm =>
    obtain ⟨rfl, -⟩ := Prod.ext_iff.mp (Option.some.inj h)
    exact hset d _ fun heq => hwrites (congrArg some heq)
  | ldx width d src off =>
    simp only [transferSb] at h
    split at h
    · obtain ⟨rfl, -⟩ := Prod.ext_iff.mp (Option.some.inj h)
      exact hset d _ fun heq => hwrites (congrArg some heq)
    · cases h
  | call hid =>
    obtain ⟨rfl, -⟩ := Prod.ext_iff.mp (Option.some.inj h)
    rfl
  | _ => simp_all [transferSb]

/-- **The pass always knows r10** in a programme that does not write it, in the state it holds and
in those it has saved. -/
theorem stateAt_r10 (hkeeps : keepsR10 prog = true) {k : ℕ}
    {s : AbsState × Scanner.Targets AbsState}
    (hs : sbScanner.stateAt absInit prog (sbTargets prog) k = some s) :
    s.1 .r10 = .AbsFramePtr 0 ∧ ∀ i x, s.2 i = some x → x .r10 = .AbsFramePtr 0 := by
  refine Scanner.stateAt_of_closed (p := fun abs : AbsState => abs .r10 = .AbsFramePtr 0) rfl ?_ ?_
    ?_ hs
  · intro i s hs
    rcases sbTargets_eq prog i with hnone | hsome
    · rw [hnone] at hs
      cases hs
    · obtain rfl := Option.some.inj (hsome.symm.trans hs)
      rfl
  · exact joinStates_r10
  · intro k insn abs fall edge hinsn habs htr
    have hwrites : insn.writes ≠ some .r10 := by
      simpa using List.all_eq_true.mp hkeeps insn (List.mem_of_getElem? hinsn)
    have htr' : transferSb abs insn k = some (fall, edge) := htr
    refine ⟨?_, fun e he => ?_⟩
    · rw [transferSb_r10 hwrites htr']
      exact habs
    · subst he
      rw [(transferSb_edge htr').1]
      exact habs

theorem sbAt_r10 (hkeeps : keepsR10 prog = true) {k : ℕ} {abs : AbsState}
    (h : sbAt prog k = some abs) : abs .r10 = .AbsFramePtr 0 := by
  obtain ⟨s, hs, rfl⟩ := Option.map_eq_some_iff.mp h
  obtain ⟨habs, hsaved⟩ := stateAt_r10 hkeeps hs
  exact Scanner.applyTargets_of_closed (p := fun abs : AbsState => abs .r10 = .AbsFramePtr 0)
    joinStates_r10 habs hsaved k

/-- An effect keeps r10 in a programme that does not write it. -/
theorem regs_r10_of_effect {st st' : BpfState} {sched sched' : PathSchedule} {insn : Insn}
    (hwrites : insn.writes ≠ some .r10) (heffect : PathEffect st sched insn st' sched') :
    st'.regs .r10 = st.regs .r10 := by
  have hcalls (hid : HelperId) (heq : insn = .call hid) : st'.regs .r10 = st.regs .r10 := by
    subst heq
    obtain ⟨v, hregs, -⟩ := call_regs heffect
    rw [hregs, setReg_of_ne _ _ (by decide)]
  have hset (dst : Reg) (v : RegVal) (hdst : insn.writes = some dst) :
      (st.setReg dst v).regs .r10 = st.regs .r10 := by
    have hne : Reg.r10 ≠ dst := by
      rintro rfl
      exact hwrites hdst
    rw [BpfState.setReg_regs, setReg_of_ne _ _ hne]
  cases heffect with
  | plain hcall hexec heff =>
    cases heff with
    | move dst src => exact hset dst _ rfl
    | @shift op dst imm delta v hdelta hv => exact hset dst _ rfl
    | @number _ dst n hdst => exact hset dst _ (writes_of_numberDst hdst)
    | store stack ringbuf hstore => rfl
    | branch hcond => rfl
    | goto offset => rfl
    | exit => rfl
  | nullable hspec hnull => exact hcalls _ rfl
  | number hspec hnull => exact hcalls _ rfl

/-! ## Steps and runs -/

theorem joinsAt_of_jump {i : ℕ} {insn : Insn} {off target : Int} (hi : prog[i]? = some insn)
    (hoff : insn.branchOffset = some off) (hsaved : (!insn.isJa || off < 0) = true)
    (htarget : (i : Int) + 1 + off = target) : joinsAt prog target = true := by
  refine List.any_eq_true.mpr ⟨i, List.mem_range.mpr (List.getElem?_eq_some_iff.mp hi).1, ?_⟩
  simp only [hi, hoff, Option.any_some, hsaved, htarget, decide_true, Bool.and_self]

/-- The pass joins only where a jump leads. -/
theorem joinsAt_of_sbMerges {k : ℕ} (h : sbMerges prog k = true) : joinsAt prog k = true := by
  obtain ⟨s, hs, x, hx⟩ := Scanner.mergesAt_iff.mp h
  refine Scanner.saved_of_edges (q := fun i => joinsAt prog i = true) ?_ ?_ hs hx
  · intro i x hx
    rcases Scanner.initLoopTargets_some hx with ⟨y, hy⟩ | ⟨j, insn, off, hj, hoff, hneg, hi⟩
    · cases hy
    · exact joinsAt_of_jump hj hoff (by simp [hneg]) (by omega)
  · intro j insn abs fall e hinsn htr
    obtain ⟨-, hja, off, hoff, htarget⟩ := transferSb_edge htr
    exact joinsAt_of_jump hinsn hoff (by simp [hja]) htarget

/-- **An instruction keeps the unmarked frame pointers known** in the state that falls through. -/
theorem framesIn_effect {abs fall : AbsState} {st st' : BpfState} {sched sched' : PathSchedule}
    {insn : Insn} {m : Marks} {pc : Int} {edge : Option (Int × AbsState)}
    (hin : FramesIn abs st.regs m) (htr : transferSb abs insn pc = some (fall, edge))
    (heffect : PathEffect st sched insn st' sched') :
    FramesIn fall st'.regs (track (frameLost prog) insn st st' m) := by
  have hmark (r : Reg) (hr : track (frameLost prog) insn st st' m r = false) :
      insn.flow m r = false := (track_eq_false.mp hr).2
  have hcalls (hid : HelperId) (heq : insn = .call hid) :
      FramesIn fall st'.regs (track (frameLost prog) insn st st' m) := by
    subst heq
    obtain ⟨rfl, -⟩ := Prod.ext_iff.mp (Option.some.inj htr)
    exact framesIn_call hin heffect
  cases heffect with
  | plain hcall hexec heff =>
    cases heff with
    | move dst src =>
      obtain ⟨rfl, -⟩ := Prod.ext_iff.mp (Option.some.inj htr)
      refine FramesIn.mark (hin.set dst fun hb off hoff => ?_) hmark
      exact hin src (by simpa using hb) off hoff
    | @shift op dst imm delta v hdelta hv =>
      rw [transferSb_shift hdelta htr]
      refine FramesIn.mark (hin.set dst fun hb off hoff => ?_) hmark
      have hmoves : op = .add ∨ op = .sub := by
        cases op <;> simp [shiftDelta] at hdelta <;> simp
      have hdst : m dst = false := by
        rcases hmoves with rfl | rfl <;> simpa using hb
      cases hreg : st.regs dst with
      | framePtr off₀ =>
        simp only [shiftPtr, hreg, Option.some.injEq] at hv
        rw [hin dst hdst off₀ hreg, shiftReg]
        rw [← hv] at hoff
        exact congrArg AbsReg.AbsFramePtr (RegVal.framePtr.inj hoff)
      | ctxPtr off₀ =>
        simp only [shiftPtr, hreg, Option.some.injEq] at hv
        rw [← hv] at hoff
        cases hoff
      | _ => simp [shiftPtr, hreg] at hv
    | @number _ dst n hdst =>
      obtain ⟨a, rfl⟩ := transferSb_number hdst htr
      obtain ⟨b, hb⟩ := flow_of_number m hdst
      refine FramesIn.mark (hin.set dst (b := b) fun _ off hoff => ?_) fun r hr => hb ▸ hmark r hr
      cases hoff
    | store stack ringbuf hstore =>
      rw [transferSb_store hstore htr]
      exact hin.mark fun r hr => flow_of_store m hstore ▸ hmark r hr
    | branch hcond =>
      obtain ⟨hoff, hnotJa⟩ := condition_offset hcond
      obtain ⟨rfl, -⟩ := transferSb_branch hoff hnotJa htr
      exact hin.mark fun r hr => flow_of_branch m hoff ▸ hmark r hr
    | goto offset =>
      obtain ⟨rfl, -⟩ := Prod.ext_iff.mp (Option.some.inj htr)
      exact hin.mark hmark
    | exit =>
      obtain ⟨rfl, -⟩ := Prod.ext_iff.mp (Option.some.inj htr)
      exact hin.mark hmark
  | nullable hspec hnull => exact hcalls _ rfl
  | number hspec hnull => exact hcalls _ rfl

/-- **Every effect keeps the invariant**: the pass follows the step, or the frame pointers are
marked. -/
theorem framesSeen_effect (hcheck : stackBoundsCheck prog = true) {st st' : BpfState}
    {sched sched' : PathSchedule} {insn : Insn} {m : Marks}
    (hinsn : prog[st.pc.toNat]? = some insn) (hexit : insn ≠ .exit)
    (heffect : PathEffect st sched insn st' sched') (h : FramesSeen prog st m) :
    FramesSeen prog st' (track (frameLost prog) insn st st' m) := by
  have hwrites (hkeeps : keepsR10 prog = true) : insn.writes ≠ some .r10 := by
    simpa using List.all_eq_true.mp hkeeps insn (List.mem_of_getElem? hinsn)
  refine ⟨fun hkeeps => (regs_r10_of_effect (hwrites hkeeps) heffect).trans (h.r10 hkeeps), ?_⟩
  intro abs' habs'
  by_cases hjoin : unfollowed insn st st' = true ∨ joinsAt prog st'.pc.toNat = true
  · -- only r10 is unmarked
    intro r hm off hr
    have hlost := (track_eq_false.mp hm).1
    obtain ⟨rfl, hkeeps⟩ : r = .r10 ∧ keepsR10 prog = true := by
      simp only [frameLost, Bool.or_eq_false_iff] at hlost
      have hany : (unfollowed insn st st' || joinsAt prog st'.pc.toNat) = true := by
        rcases hjoin with hjoin | hjoin <;> rw [hjoin] <;> simp
      rw [hany] at hlost
      simpa using hlost.2
    rw [regs_r10_of_effect (hwrites hkeeps) heffect, h.r10 hkeeps] at hr
    cases hr
    exact sbAt_r10 hkeeps habs'
  simp only [unfollowed, not_or, Bool.or_eq_true, decide_eq_true_eq, Int.not_lt, Int.not_le,
    Bool.not_eq_true] at hjoin
  obtain ⟨⟨⟨hja, hpos⟩, hfwd⟩, hjoins⟩ := hjoin
  have hmerges : sbMerges prog st'.pc.toNat = false := by
    by_contra hne
    rw [joinsAt_of_sbMerges (by simpa using hne)] at hjoins
    cases hjoins
  obtain ⟨abs, fall, edge, hm, htr⟩ := Scanner.transfer_mergedAt hcheck hinsn
  rcases pc_of_pathEffect hexit heffect with hpc' | ⟨offset, hoff, hpc'⟩
  · -- at the next instruction the pass holds what fell through
    have hat : st'.pc.toNat = st.pc.toNat + 1 := by omega
    rw [hat] at habs' hmerges
    have hm' := Scanner.mergedAt_succ hcheck hinsn hm htr hmerges
    obtain rfl := Option.some.inj (hm'.symm.trans habs')
    exact framesIn_effect (h.known abs hm) htr heffect
  · -- a taken jump leads to a join
    rw [BpfState.takenPc] at hpc'
    have htr' : transferSb abs insn st.pc.toNat = some (fall, edge) := htr
    obtain ⟨-, rfl⟩ := transferSb_branch hoff hja htr'
    have hat : (st.pc.toNat : Int) + 1 + offset = st'.pc.toNat := by omega
    rw [hat] at htr
    have htarget : sbMerges prog st'.pc.toNat = true :=
      Scanner.mergesAt_target hcheck hinsn hm htr (by omega) (Scanner.le_of_mergedAt habs')
    rw [hmerges] at htarget
    cases htarget

/-- **An access through an unmarked frame pointer is in bounds.** -/
theorem stackOffsetValid_of_framesSeen (hcheck : stackBoundsCheck prog = true) {st : BpfState}
    {m : Marks} (h : FramesSeen prog st m) {insn : Insn} {base : Reg} {off : BitVec 32}
    {width : MemWidth} {ptrOff : Int} (hinsn : prog[st.pc.toNat]? = some insn)
    (hbase : insn.base = some base) (haccess : insn.access = some (off, width))
    (hm : m base = false) (hptr : st.regs base = .framePtr ptrOff) :
    stackOffsetValid (ptrOff + signExtendToInt off) width = true := by
  obtain ⟨abs, fall, edge, hat, htr⟩ := Scanner.transfer_mergedAt hcheck hinsn
  have habs : abs base = .AbsFramePtr ptrOff := h.known abs hat base hm ptrOff hptr
  by_contra hinvalid
  cases insn <;>
    simp_all [Insn.base, Insn.access, transferSb, sbScanner, checkMemAccess]

/-! ## Runs from the entry -/

/-- The frame pointers a state holds — all but r10, at instruction 0 or in a programme that does not
write it. -/
def frameMarks (prog : BpfProgram) (st : BpfState) : Marks := fun r =>
  (st.regs r).isFramePtr && !(r = .r10 && (st.pc = 0 || keepsR10 prog))

/-- **Entry**: r10 is the frame pointer the pass starts with. -/
theorem framesSeen_entry {init : BpfState} (h10 : init.regs .r10 = .framePtr 0) :
    FramesSeen prog init (frameMarks prog init) where
  r10 _ := h10
  known := by
    intro abs habs r hm off hr
    obtain ⟨rfl, hr10⟩ : r = .r10 ∧ (init.pc = 0 ∨ keepsR10 prog = true) := by
      simpa [frameMarks, hr, RegVal.isFramePtr, or_iff_not_imp_left] using hm
    rw [h10] at hr
    cases hr
    rcases hr10 with hpc | hkeeps
    · rw [hpc] at habs
      exact sbAt_zero_r10 habs
    · exact sbAt_r10 hkeeps habs

/-- **The frame pointers lost** a number of steps into a run: those of the initial state that the
pass does not start with, and those a step has lost since. -/
abbrev framesLost (prog : BpfProgram) (init : BpfState) (sched : PathSchedule) : ℕ → Marks :=
  marksAfter prog (frameLost prog) (frameMarks prog init) (init, sched)

/-- **In every run of an accepted programme** the pass knows each frame pointer it has not lost. -/
theorem framesSeen_after (hcheck : stackBoundsCheck prog = true) {init : BpfState}
    {sched : PathSchedule} (h10 : init.regs .r10 = .framePtr 0) {n : ℕ}
    {c : BpfState × PathSchedule} (hc : (pathInterp prog).after n (init, sched) = some c) :
    FramesSeen prog c.1 (framesLost prog init sched n) :=
  marked_invariant (framesSeen_entry h10)
    (fun hinsn hexit heffect h => framesSeen_effect hcheck hinsn hexit heffect h) hc

end BpfVerifier.Fstar
