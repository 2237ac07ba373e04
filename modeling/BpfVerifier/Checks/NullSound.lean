import BpfVerifier.Checks.NullSafety
import BpfVerifier.Checks.Tracking

/-!
# Checks/NullSound — what an accepting null-safety pass says of a run

The invariant `NullsSeen`: the pass takes no register that holds null for safe, unless it has lost
the null (`nullLost`).  Every step keeps it (`nullsSeen_effect`).
-/

namespace BpfVerifier.Fstar

/-- **The nulls a step makes the pass lose**: those held over a step it does not follow, and those
in r1–r5 at a call, which the executor keeps and the pass forgets. -/
def nullLost : Losses := fun insn st st' r =>
  st'.regs r = .null && (unfollowed insn st st' || atCall insn r)

/-- The unmarked null registers are unsafe to a status map. -/
def NullsIn (abs : AbsStateNs) (regs : RegFile) (m : Marks) : Prop :=
  ∀ r, m r = false → regs r = .null → isSafeDeref (abs r) = false

/-- **The pass takes no register for safe that holds a null it has not lost**, at the instruction a
run has reached. -/
def NullsSeen (prog : BpfProgram) (st : BpfState) (m : Marks) : Prop :=
  ∀ abs, nsAt prog st.pc.toNat = some abs → NullsIn abs st.regs m

/-! ## The order of the pass -/

/-- One state is below another when it takes every register for safe that the other does. -/
def NsLe (a b : AbsStateNs) : Prop := ∀ r, isSafeDeref (b r) = true → isSafeDeref (a r) = true

theorem isSafeDeref_join {a b : NullStatus} (h : isSafeDeref (joinStatus a b) = true) :
    isSafeDeref a = true ∧ isSafeDeref b = true := by
  cases a <;> cases b <;> simp_all [joinStatus, isSafeDeref]

theorem nsUpperBounds : nsScanner.UpperBounds NsLe where
  refl _ _ h := h
  trans hab hbc r h := hab r (hbc r h)
  left _ _ _ h := (isSafeDeref_join h).1
  right _ _ _ h := (isSafeDeref_join h).2

section

variable {abs : AbsStateNs} {regs : RegFile} {m : Marks}

theorem NullsIn.mono {abs' : AbsStateNs} (h : NullsIn abs regs m) (hle : NsLe abs abs') :
    NullsIn abs' regs m := by
  intro r hm hr
  by_contra hsafe
  have ha : isSafeDeref (abs r) = true := hle r (by simpa using hsafe)
  rw [h r hm hr] at ha
  cases ha

/-- More marks leave less to know. -/
theorem NullsIn.mark {m' : Marks} (h : NullsIn abs regs m) (hle : ∀ r, m' r = false → m r = false) :
    NullsIn abs regs m' :=
  fun r hm => h r (hle r hm)

/-- A write of a value whose status is known if it is null. -/
theorem NullsIn.set (h : NullsIn abs regs m) (dst : Reg) {v : RegVal} {s : NullStatus} {b : Bool}
    (hv : b = false → v = .null → isSafeDeref s = false) :
    NullsIn (nsSet abs dst s) (setReg regs dst v) (setMark m dst b) := by
  intro r hm hr
  unfold nsSet
  unfold setReg at hr
  unfold setMark at hm
  split
  · next heq =>
    rw [if_pos heq] at hr hm
    exact hv hm hr
  · next hne =>
    rw [if_neg hne] at hr hm
    exact h r hm hr

/-- A register known not to be null may be taken for safe. -/
theorem NullsIn.refine (h : NullsIn abs regs m) (dst : Reg) {s : NullStatus}
    (hv : m dst = false → regs dst = .null → isSafeDeref s = false) :
    NullsIn (nsSet abs dst s) regs m := by
  intro r hm hr
  unfold nsSet
  split
  · next heq => exact hv (heq ▸ hm) (heq ▸ hr)
  · exact h r hm hr

end

/-! ## What the transfer does -/

theorem transferNs_number {abs fall : AbsStateNs} {insn : Insn} {pc : Int} {dst : Reg}
    {edge : Option (Int × AbsStateNs)} (hdst : insn.numberDst = some dst)
    (h : transferNs abs insn pc = some (fall, edge)) : fall = nsSet abs dst .NotMap := by
  cases insn with
  | alu64Reg op d s => cases op <;> simp_all [Insn.numberDst, transferNs]
  | _ => simp_all [Insn.numberDst, transferNs]

theorem transferNs_store {abs fall : AbsStateNs} {insn : Insn} {pc : Int}
    {edge : Option (Int × AbsStateNs)} (hstore : insn.isStore = true)
    (h : transferNs abs insn pc = some (fall, edge)) : fall = abs := by
  cases insn <;> simp_all [Insn.isStore, transferNs]

/-- A comparison with zero decides whether a register is zero. -/
theorem condition_zero {st : BpfState} {op : JmpOp} {dst : Reg} {imm : BitVec 32} {offset : Int}
    {cond : Bool} {off : Int} (himm : signExtendToInt imm = 0)
    (h : (Insn.jmp64Imm op dst imm offset).condition st = some (cond, off)) :
    (op = .jeq → regValIsZero (st.regs dst) = some cond) ∧
      (op = .jne → regValIsZero (st.regs dst) = some !cond) := by
  obtain rfl : imm = 0 := by
    apply BitVec.eq_of_toInt_eq
    rw [show imm.toInt = 0 from himm]
    rfl
  constructor
  · rintro rfl
    cases hzero : regValIsZero (st.regs dst) <;> simp_all [Insn.condition, signExtendImm]
  · rintro rfl
    cases hzero : regValIsZero (st.regs dst) <;> simp_all [Insn.condition, signExtendImm]

/-- **What a conditional jump does on the edge it takes**: nothing, or the register it compares with
zero is null or checked from there on, as it is zero or not. -/
theorem transferNs_branch {abs fall : AbsStateNs} {st : BpfState} {insn : Insn} {pc : Int}
    {edge : Option (Int × AbsStateNs)} {cond : Bool} {offset : Int}
    (htr : transferNs abs insn pc = some (fall, edge))
    (hcond : insn.condition st = some (cond, offset)) :
    ∃ jump, edge = some (pc + 1 + offset, jump) ∧
      ((if cond then jump else fall) = abs ∨
        ∃ dst zero, regValIsZero (st.regs dst) = some zero ∧
          (if cond then jump else fall) = nsSet abs dst (if zero then .IsNull else .Checked)) := by
  have hoff := (condition_offset hcond).1
  by_cases hkeeps : transferNs abs insn pc = some (abs, some (pc + 1 + offset, abs))
  · obtain ⟨rfl, rfl⟩ := Prod.mk.inj (Option.some.inj (htr.symm.trans hkeeps))
    exact ⟨_, rfl, Or.inl (ite_self _)⟩
  cases insn with
  | jmp64Imm op dst imm off =>
    obtain rfl : off = offset := Option.some.inj hoff
    simp only [transferNs] at htr
    split at htr
    · next hjeq =>
      obtain ⟨rfl, rfl⟩ := Prod.ext_iff.mp (Option.some.inj htr)
      have hzero := (condition_zero hjeq.2.1 hcond).1 hjeq.2.2
      exact ⟨_, rfl, Or.inr ⟨dst, cond, hzero, by cases cond <;> rfl⟩⟩
    · next hjeq =>
      split at htr
      · next hjne =>
        obtain ⟨rfl, rfl⟩ := Prod.ext_iff.mp (Option.some.inj htr)
        have hzero := (condition_zero hjne.2.1 hcond).2 hjne.2.2
        exact ⟨_, rfl, Or.inr ⟨dst, !cond, hzero, by cases cond <;> rfl⟩⟩
      · next hjne => exact absurd (by simp only [transferNs, if_neg hjeq, if_neg hjne]) hkeeps
  | jmp64Reg op dst src off =>
    obtain rfl : off = offset := Option.some.inj hoff
    exact absurd rfl hkeeps
  | jmp32Imm op dst imm off =>
    obtain rfl : off = offset := Option.some.inj hoff
    exact absurd rfl hkeeps
  | jmp32Reg op dst src off =>
    obtain rfl : off = offset := Option.some.inj hoff
    exact absurd rfl hkeeps
  | _ => simp [Insn.condition] at hcond

/-- **A conditional jump keeps null registers unsafe on the edge it takes.** -/
theorem nullsIn_branch {abs fall : AbsStateNs} {st : BpfState} {m : Marks} {insn : Insn} {pc : Int}
    {edge : Option (Int × AbsStateNs)} {cond : Bool} {offset : Int} (h : NullsIn abs st.regs m)
    (htr : transferNs abs insn pc = some (fall, edge))
    (hcond : insn.condition st = some (cond, offset)) :
    ∃ jump, edge = some (pc + 1 + offset, jump) ∧
      NullsIn (if cond then jump else fall) st.regs m := by
  obtain ⟨jump, hedge, hkept | ⟨dst, zero, hzero, hset⟩⟩ := transferNs_branch htr hcond
  · exact ⟨jump, hedge, hkept ▸ h⟩
  · refine ⟨jump, hedge, ?_⟩
    rw [hset]
    refine h.refine dst fun _ hnull => ?_
    obtain rfl : true = zero := by simpa [hnull, regValIsZero] using hzero
    rfl

/-- A null that stays unmarked over a call is not in r1–r5. -/
theorem regs_ne_null_of_call {hid : HelperId} {st st' : BpfState} {m : Marks} {r : Reg}
    (hr : r ∈ argRegs) (hm : track nullLost (.call hid) st st' m r = false) :
    st'.regs r ≠ .null := by
  intro hnull
  have hlost := (track_eq_false.mp hm).1
  simp [nullLost, hnull, atCall, Insn.isCall, hr] at hlost

/-- A call keeps unmarked null registers unsafe. -/
theorem nullsIn_call {abs : AbsStateNs} {st st' : BpfState} {sched sched' : PathSchedule}
    {hid : HelperId} {m : Marks} (h : NullsIn abs st.regs m)
    (heffect : PathEffect st sched (.call hid) st' sched') :
    NullsIn (afterCallNs abs (callStatus hid)) st'.regs (track nullLost (.call hid) st st' m) := by
  obtain ⟨v, hregs, -, -, hnumber⟩ := call_regs heffect
  have hv : v = .null → isSafeDeref (callStatus hid) = false := by
    rintro rfl
    cases hspec : getHelperSpec hid with
    | none => cases hnumber (by simp [hspec])
    | some spec =>
      cases hnull : spec.nullable with
      | false => cases hnumber (by simp [hspec, hnull])
      | true =>
        unfold HelperSpec.nullable at hnull
        cases hret : spec.retType <;> simp_all [callStatus, isSafeDeref]
  have hset : NullsIn (nsSet abs .r0 (callStatus hid)) st'.regs (setMark m .r0 false) := by
    rw [hregs]
    exact h.set .r0 fun _ => hv
  have htrack : NullsIn (nsSet abs .r0 (callStatus hid)) st'.regs
      (track nullLost (.call hid) st st' m) :=
    hset.mark fun r hr => (track_eq_false.mp hr).2
  have harg (r : Reg) (hr : r ∈ argRegs) (s : NullStatus)
      (hm : track nullLost (.call hid) st st' m r = false) (hnull : st'.regs r = .null) :
      isSafeDeref s = false :=
    absurd hnull (regs_ne_null_of_call hr hm)
  unfold afterCallNs
  exact ((((htrack.refine .r1 (harg _ (by decide) _)).refine .r2 (harg _ (by decide) _)).refine .r3
    (harg _ (by decide) _)).refine .r4 (harg _ (by decide) _)).refine .r5 (harg _ (by decide) _)

/-! ## Steps and runs -/

variable {prog : BpfProgram}

/-- Over a step the pass does not follow, no null stays unmarked. -/
theorem nullsSeen_of_unfollowed {insn : Insn} {st st' : BpfState} {m : Marks}
    (h : unfollowed insn st st' = true) : NullsSeen prog st' (track nullLost insn st st' m) := by
  intro abs _ r hm hnull
  have hlost := (track_eq_false.mp hm).1
  simp [nullLost, hnull, h] at hlost

/-- **Every effect keeps the invariant**: the pass follows the step, or the nulls are marked. -/
theorem nullsSeen_effect (hcheck : nullCheck prog = true) {st st' : BpfState}
    {sched sched' : PathSchedule} {insn : Insn} {m : Marks}
    (hinsn : prog[st.pc.toNat]? = some insn) (hexit : insn ≠ .exit)
    (heffect : PathEffect st sched insn st' sched') (h : NullsSeen prog st m) :
    NullsSeen prog st' (track nullLost insn st st' m) := by
  by_cases hfollow : unfollowed insn st st' = true
  · exact nullsSeen_of_unfollowed hfollow
  simp only [unfollowed, Bool.or_eq_true, decide_eq_true_eq, not_or, Int.not_lt, Int.not_le,
    Bool.not_eq_true] at hfollow
  obtain ⟨⟨hja, hpos⟩, hfwd⟩ := hfollow
  obtain ⟨abs, fall, edge, hm, htr⟩ := Scanner.transfer_mergedAt hcheck hinsn
  have hin : NullsIn abs st.regs m := h abs hm
  have hmark (r : Reg) (hr : track nullLost insn st st' m r = false) : insn.flow m r = false :=
    (track_eq_false.mp hr).2
  -- a step to the next instruction is covered by what falls through
  have hfall (hpc' : st'.pc = st.pc + 1)
      (hin' : NullsIn fall st'.regs (track nullLost insn st st' m)) :
      NullsSeen prog st' (track nullLost insn st st' m) := by
    obtain ⟨m', hm', hle⟩ := nsUpperBounds.le_mergedAt_succ hcheck hinsn hm htr
    have hat : st'.pc.toNat = st.pc.toNat + 1 := by omega
    intro abs' habs'
    rw [hat] at habs'
    obtain rfl := Option.some.inj (hm'.symm.trans habs')
    exact hin'.mono hle
  have hcalls (hid : HelperId) (heq : insn = .call hid) :
      NullsSeen prog st' (track nullLost insn st st' m) := by
    subst heq
    obtain ⟨v, -, hpc', -⟩ := call_regs heffect
    refine hfall hpc' ?_
    obtain ⟨rfl, -⟩ := Prod.ext_iff.mp (Option.some.inj htr)
    exact nullsIn_call hin heffect
  cases heffect with
  | plain hcall hexec heff =>
    cases heff with
    | move dst src =>
      obtain ⟨rfl, -⟩ := Prod.ext_iff.mp (Option.some.inj htr)
      refine hfall rfl (NullsIn.mark (hin.set dst fun hb hsrc => ?_) hmark)
      exact hin src (by simpa using hb) hsrc
    | @shift op dst imm delta v hdelta hv =>
      refine hfall rfl ?_
      obtain ⟨rfl, -⟩ := Prod.ext_iff.mp (Option.some.inj htr)
      refine NullsIn.mark (hin.set dst fun _ => ?_) hmark
      rintro rfl
      cases hreg : st.regs dst <;> simp [shiftPtr, hreg] at hv
    | @number _ dst n hdst =>
      refine hfall rfl ?_
      obtain ⟨b, hb⟩ := flow_of_number m hdst
      rw [transferNs_number hdst htr]
      refine NullsIn.mark (hin.set dst (b := b) fun _ hn => ?_) fun r hr => hb ▸ hmark r hr
      cases hn
    | store stack ringbuf hstore =>
      refine hfall rfl ?_
      rw [transferNs_store hstore htr]
      exact hin.mark fun r hr => flow_of_store m hstore ▸ hmark r hr
    | @branch _ cond offset hcond =>
      have hkeep := flow_of_branch m (condition_offset hcond).1
      obtain ⟨jump, rfl, hjump⟩ := nullsIn_branch hin htr hcond
      cases cond with
      | false => exact hfall rfl (NullsIn.mark hjump fun r hr => hkeep ▸ hmark r hr)
      | true =>
        -- a taken jump leads to an instruction further on, where its state was saved
        have htarget : (st.branch true offset).pc = st.pc + 1 + offset := rfl
        rw [htarget] at hfwd
        intro abs' habs'
        rw [htarget] at habs'
        have hpos' : ((st.pc + 1 + offset).toNat : Int) = (st.pc.toNat : Int) + 1 + offset := by
          omega
        rw [← hpos'] at htr
        obtain ⟨m', hm', hle⟩ := nsUpperBounds.le_mergedAt_target hcheck hinsn hm htr (by omega)
          (Scanner.le_of_mergedAt habs')
        obtain rfl := Option.some.inj (hm'.symm.trans habs')
        exact (NullsIn.mark hjump fun r hr => hkeep ▸ hmark r hr).mono hle
    | goto offset => simp [Insn.isJa] at hja
    | exit => exact absurd rfl hexit
  | nullable hspec hnull => exact hcalls _ rfl
  | number hspec hnull => exact hcalls _ rfl

/-- A marked register holds the null that was lost. -/
theorem regs_eq_null_of_marked {st st' : BpfState} {sched sched' : PathSchedule} {insn : Insn}
    {m : Marks} (heffect : PathEffect st sched insn st' sched')
    (h : ∀ r, m r = true → st.regs r = .null) {r : Reg}
    (hr : track nullLost insn st st' m r = true) : st'.regs r = .null := by
  simp only [track, Bool.or_eq_true] at hr
  rcases hr with hlost | hflow
  · simp only [nullLost, Bool.and_eq_true, decide_eq_true_eq] at hlost
    exact hlost.1
  · have hcalls (hid : HelperId) (heq : insn = .call hid) : st'.regs r = .null := by
      subst heq
      obtain ⟨v, hregs, -⟩ := call_regs heffect
      simp only [Insn.flow, setMark] at hflow
      split at hflow
      · cases hflow
      · next hne =>
        rw [hregs, setReg_of_ne _ _ hne]
        exact h r hflow
    cases heffect with
    | plain hcall hexec heff =>
      cases heff with
      | move dst src =>
        simp only [Insn.flow, setMark] at hflow
        split at hflow
        · next heq =>
          rw [BpfState.setReg_regs, heq, setReg_self]
          exact h src (by simpa using hflow)
        · next hne =>
          rw [BpfState.setReg_regs, setReg_of_ne _ _ hne]
          exact h r hflow
      | @shift op dst imm delta v hdelta hv =>
        simp only [Insn.flow, setMark] at hflow
        split at hflow
        · have hnull := h dst (by simp at hflow; exact hflow.2)
          simp [shiftPtr, hnull] at hv
        · next hne =>
          rw [BpfState.setReg_regs, setReg_of_ne _ _ hne]
          exact h r hflow
      | @number _ dst n hdst =>
        by_cases heq : r = dst
        · subst heq
          obtain ⟨hm, op, imm, rfl, hop⟩ := moves_of_flow hdst hflow
          rcases hop with rfl | rfl <;> simp [execInsn, execAlu64Imm, h r hm] at hexec
        · obtain ⟨b, hb⟩ := flow_of_number m hdst
          rw [hb, setMark, if_neg heq] at hflow
          rw [BpfState.setReg_regs, setReg_of_ne _ _ heq]
          exact h r hflow
      | store stack ringbuf hstore =>
        rw [flow_of_store m hstore] at hflow
        exact h r hflow
      | branch hcond =>
        rw [flow_of_branch m (condition_offset hcond).1] at hflow
        exact h r hflow
      | goto offset => exact h r hflow
      | exit => exact h r hflow
    | nullable hspec hnull => exact hcalls _ rfl
    | number hspec hnull => exact hcalls _ rfl

/-- An accepted access is through a register the pass takes for safe. -/
theorem isSafeDeref_of_base (hcheck : nullCheck prog = true) {k : ℕ} {insn : Insn} {base : Reg}
    (hinsn : prog[k]? = some insn) (hbase : insn.base = some base) :
    ∃ abs, nsAt prog k = some abs ∧ isSafeDeref (abs base) = true := by
  obtain ⟨abs, fall, edge, hm, htr⟩ := Scanner.transfer_mergedAt hcheck hinsn
  refine ⟨abs, hm, ?_⟩
  by_contra hderef
  cases insn <;> simp_all [Insn.base, transferNs, nsScanner]

/-- No unmarked null is dereferenced where the invariant holds. -/
theorem base_ne_null_of_nullsSeen (hcheck : nullCheck prog = true) {st : BpfState} {m : Marks}
    (h : NullsSeen prog st m) {insn : Insn} {base : Reg} (hinsn : prog[st.pc.toNat]? = some insn)
    (hbase : insn.base = some base) (hm : m base = false) : st.regs base ≠ .null := by
  intro hnull
  obtain ⟨abs, habs, hsafe⟩ := isSafeDeref_of_base hcheck hinsn hbase
  rw [h abs habs base hm hnull] at hsafe
  cases hsafe

/-! ## Runs -/

/-- The nulls a state holds. -/
def nullMarks (st : BpfState) : Marks := fun r => st.regs r = .null

/-- **The nulls lost** a number of steps into a run: those of the initial state, and those a step
has lost since. -/
abbrev nullsLost (prog : BpfProgram) (init : BpfState) (sched : PathSchedule) : ℕ → Marks :=
  marksAfter prog nullLost (nullMarks init) (init, sched)

/-- **Along every run of an accepted programme** the pass knows each null it has not lost, and a
mark stands for a null. -/
theorem nullsSeen_after (hcheck : nullCheck prog = true) {init : BpfState} {sched : PathSchedule}
    {n : ℕ} {c : BpfState × PathSchedule} (hc : (pathInterp prog).after n (init, sched) = some c) :
    NullsSeen prog c.1 (nullsLost prog init sched n) ∧
      ∀ r, nullsLost prog init sched n r = true → c.1.regs r = .null := by
  refine marked_invariant
    (I := fun st m => NullsSeen prog st m ∧ ∀ r, m r = true → st.regs r = .null) ?_ ?_ hc
  · refine ⟨fun abs _ r hm hnull => ?_, fun r hr => by simpa [nullMarks] using hr⟩
    exact absurd hnull (by simpa [nullMarks] using hm)
  · intro st st' sched sched' insn m hinsn hexit heffect h
    exact ⟨nullsSeen_effect hcheck hinsn hexit heffect h.1,
      fun r => regs_eq_null_of_marked heffect h.2⟩

end BpfVerifier.Fstar
