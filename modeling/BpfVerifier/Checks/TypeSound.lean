import BpfVerifier.Checks.Tracking
import BpfVerifier.Checks.TypeSafety

/-!
# Checks/TypeSound — what an accepting type pass says of a run

The invariant `TypesSeen`: the pass knows the kind of every register, unless it has lost it
(`typeLost`).  Every step keeps it (`typesSeen_effect`).  `MapsBacked` says that a value stands
behind every map-value pointer, which every step keeps as well.
-/

namespace BpfVerifier.Fstar

/-- A value is known to be of a kind; nothing is known by being `TUnknown`. -/
def KnownAs : AbsType → RegVal → Prop
  | .TScalar, v => ∃ n, v = .scalar n
  | .TFramePtr, v => ∃ off, v = .framePtr off
  | .TMapPtr, v => ∃ id, v = .mapValuePtr id
  | .TRingBufPtr, v => ∃ id, v = .ringBufPtr id
  | .TCtxPtr, v => ∃ off, v = .ctxPtr off
  | .TNull, v => v = .null
  | .TUnknown, _ => False

/-- The pass does not know at the entry what is in a register other than r1 and r10. -/
def typeMarks : Marks := fun r => r ≠ .r1 && r ≠ .r10

/-- **The kinds a step makes the pass lose**: all of them when it does not go to the next
instruction, and at a call those of r1–r5 and of a result that may be null. -/
def typeLost : Losses := fun insn st st' r =>
  st.pc < 0 || st'.pc ≠ st.pc + 1 ||
    match insn with
    | .call hid => argRegs.contains r || r = .r0 && (getHelperSpec hid).any HelperSpec.nullable
    | _ => false

/-- The pass knows the kinds of the unmarked registers. -/
def TypesIn (abs : AbsStateTs) (regs : RegFile) (m : Marks) : Prop :=
  ∀ r, m r = false → KnownAs (abs r) (regs r)

/-- **The pass knows every kind it has not lost**, at the instruction a run has reached. -/
def TypesSeen (prog : BpfProgram) (st : BpfState) (m : Marks) : Prop :=
  ∀ abs, tsAt prog st.pc.toNat = some abs → TypesIn abs st.regs m

/-- A value stands behind every map-value pointer in a register. -/
def MapsBacked (st : BpfState) : Prop :=
  ∀ r id, st.regs r = .mapValuePtr id → (mapValueRead st.mapValues id).isSome = true

/-! ## The pass -/

theorem checkProgramTsLoop_iff {abs : AbsStateTs} {prog : BpfProgram} :
    checkProgramTsLoop abs prog = true ↔ ∃ abs', prog.foldlM checkInsnTs abs = some abs' := by
  induction prog generalizing abs with
  | nil => simp [checkProgramTsLoop]
  | cons insn rest ih =>
    rw [checkProgramTsLoop, List.foldlM_cons]
    cases checkInsnTs abs insn with
    | none => simp
    | some abs' => exact ih

theorem tsAt_succ {prog : BpfProgram} {k : ℕ} {insn : Insn} (hk : prog[k]? = some insn) :
    tsAt prog (k + 1) = (tsAt prog k).bind fun abs => checkInsnTs abs insn := by
  obtain ⟨hlt, rfl⟩ := List.getElem?_eq_some_iff.mp hk
  rw [tsAt, tsAt, List.take_succ_eq_append_getElem hlt, List.foldlM_append]
  simp only [List.foldlM_cons, List.foldlM_nil, bind_pure]
  rfl

/-- **An accepting type pass has a state at every instruction, and checks it there.** -/
theorem tsAt_of_typeCheck {prog : BpfProgram} (h : typeCheck prog = true) {k : ℕ} {insn : Insn}
    (hk : prog[k]? = some insn) :
    ∃ abs abs', tsAt prog k = some abs ∧ checkInsnTs abs insn = some abs' ∧
      tsAt prog (k + 1) = some abs' := by
  obtain ⟨hlt, -⟩ := List.getElem?_eq_some_iff.mp hk
  obtain ⟨send, hend⟩ := checkProgramTsLoop_iff.mp h
  have hsplit : (tsAt prog (k + 1)).bind
      (fun abs => (prog.drop (k + 1)).foldlM checkInsnTs abs) = some send := by
    rw [← hend, tsAt]
    conv_rhs => rw [← List.take_append_drop (k + 1) prog, List.foldlM_append]
    rfl
  obtain ⟨abs', habs', -⟩ := Option.bind_eq_some_iff.mp hsplit
  have hstep := habs'
  rw [tsAt_succ hk] at hstep
  obtain ⟨abs, habs, hcheck⟩ := Option.bind_eq_some_iff.mp hstep
  exact ⟨abs, abs', habs, hcheck, habs'⟩

/-- **Entry**: r10 is a frame pointer and r1 the context. -/
theorem typesSeen_entry {prog : BpfProgram} {init : BpfState} (hpc : init.pc = 0)
    (h10 : init.regs .r10 = .framePtr 0) (h1 : init.regs .r1 = .ctxPtr 0) :
    TypesSeen prog init typeMarks := by
  intro abs habs
  rw [hpc] at habs
  have hzero : tsAt prog 0 = some tsInit := rfl
  obtain rfl := Option.some.inj (hzero.symm.trans habs)
  intro r hm
  by_cases hr10 : r = .r10
  · subst hr10
    exact ⟨0, h10⟩
  · by_cases hr1 : r = .r1
    · subst hr1
      exact ⟨0, h1⟩
    · simp [typeMarks, hr1, hr10] at hm

/-! ## What one instruction keeps -/

section

variable {abs : AbsStateTs} {regs : RegFile} {m : Marks}

/-- More marks leave less to know. -/
theorem TypesIn.mark {m' : Marks} (h : TypesIn abs regs m)
    (hle : ∀ r, m' r = false → m r = false) : TypesIn abs regs m' :=
  fun r hm => h r (hle r hm)

/-- A write of a value of the kind given. -/
theorem TypesIn.set (h : TypesIn abs regs m) (dst : Reg) {v : RegVal} {t : AbsType} {b : Bool}
    (hv : b = false → KnownAs t v) :
    TypesIn (tsSet abs dst t) (setReg regs dst v) (setMark m dst b) := by
  intro r hm
  unfold tsSet setReg
  unfold setMark at hm
  split
  · next heq =>
    rw [if_pos heq] at hm
    exact hv hm
  · next hne =>
    rw [if_neg hne] at hm
    exact h r hm

/-- A marked register may be of any kind. -/
theorem TypesIn.forget (h : TypesIn abs regs m) {dst : Reg} (t : AbsType) (hdst : m dst = true) :
    TypesIn (tsSet abs dst t) regs m := by
  intro r hm
  unfold tsSet
  split
  · next heq =>
    rw [heq, hdst] at hm
    cases hm
  · exact h r hm

end

/-- The instruction adds or subtracts an immediate, which may move a pointer. -/
def Insn.moves : Insn → Bool
  | .alu64Imm op _ _ => op = .add || op = .sub
  | _ => false

/-- **ADD and SUB of an immediate keep the kind of a value.** -/
theorem execAlu64Imm_moves {st st' : BpfState} {op : AluOp} {dst : Reg} {imm : BitVec 32}
    (hop : op = .add ∨ op = .sub) (h : execAlu64Imm st op dst imm = some st') :
    ∃ v, st' = st.setReg dst v ∧ ∀ t, KnownAs t (st.regs dst) → KnownAs t v := by
  cases hreg : st.regs dst with
  | scalar d =>
    rcases hop with rfl | rfl <;>
      · simp only [execAlu64Imm, hreg, alu64, BpfState.setNumber, Option.map_some] at h
        refine ⟨_, (Option.some.inj h).symm, fun t ht => ?_⟩
        cases t <;> simp_all [KnownAs]
  | framePtr off =>
    rcases hop with rfl | rfl <;>
      · simp only [execAlu64Imm, hreg] at h
        refine ⟨_, (Option.some.inj h).symm, fun t ht => ?_⟩
        cases t <;> simp_all [KnownAs]
  | ctxPtr off =>
    rcases hop with rfl | rfl <;>
      · simp only [execAlu64Imm, hreg] at h
        refine ⟨_, (Option.some.inj h).symm, fun t ht => ?_⟩
        cases t <;> simp_all [KnownAs]
  | _ => rcases hop with rfl | rfl <;> simp [execAlu64Imm, hreg] at h

theorem checkInsnTs_moves {abs abs' : AbsStateTs} {op : AluOp} {dst : Reg} {imm : BitVec 32}
    (hop : op = .add ∨ op = .sub) (h : checkInsnTs abs (.alu64Imm op dst imm) = some abs') :
    abs' = tsSet abs dst (abs dst) := by
  rcases hop with rfl | rfl <;> cases hdst : abs dst <;> simp_all [checkInsnTs]

/-- Every other instruction that sets a number is known to. -/
theorem checkInsnTs_number {abs abs' : AbsStateTs} {insn : Insn} {dst : Reg}
    (hdst : insn.numberDst = some dst) (hmoves : insn.moves = false)
    (h : checkInsnTs abs insn = some abs') : abs' = tsSet abs dst .TScalar := by
  cases insn with
  | alu64Reg op d s => cases op <;> simp_all [Insn.numberDst, checkInsnTs]
  | alu64Imm op d imm => cases op <;> simp_all [Insn.numberDst, Insn.moves, checkInsnTs]
  | alu32Reg op d s => cases op <;> simp_all [Insn.numberDst, checkInsnTs]
  | alu32Imm op d imm => cases op <;> simp_all [Insn.numberDst, checkInsnTs]
  | _ => simp_all [Insn.numberDst, checkInsnTs]

theorem checkInsnTs_store {abs abs' : AbsStateTs} {insn : Insn} (hstore : insn.isStore = true)
    (h : checkInsnTs abs insn = some abs') : abs' = abs := by
  cases insn <;> simp_all [Insn.isStore, checkInsnTs]

theorem checkInsnTs_branch {abs abs' : AbsStateTs} {insn : Insn} {offset : Int}
    (hoff : insn.branchOffset = some offset) (h : checkInsnTs abs insn = some abs') :
    abs' = abs := by
  cases insn <;> simp_all [Insn.branchOffset, checkInsnTs]

/-- A call leaves r0 of the kind the pass gives it. -/
theorem typesIn_call {abs abs' : AbsStateTs} {st st' : BpfState} {sched sched' : PathSchedule}
    {hid : HelperId} {m : Marks} (h : TypesIn abs st.regs m)
    (hcheck : checkInsnTs abs (.call hid) = some abs')
    (heffect : PathEffect st sched (.call hid) st' sched') :
    TypesIn abs' st'.regs (track typeLost (.call hid) st st' m) := by
  obtain ⟨v, hregs, -, -, hnumber⟩ := call_regs heffect
  -- a result that may be null is marked
  have hv (hm : (getHelperSpec hid).any HelperSpec.nullable = false) :
      KnownAs (callType hid) v := by
    obtain rfl := hnumber hm
    obtain ⟨spec, hspec⟩ := exists_spec_of_call heffect
    have hnull : spec.nullable = false := by simpa [hspec] using hm
    cases hret : spec.retType <;> simp_all [callType, KnownAs, HelperSpec.nullable]
  have hset : TypesIn (tsSet abs .r0 (callType hid)) st'.regs
      (setMark m .r0 ((getHelperSpec hid).any HelperSpec.nullable)) := by
    rw [hregs]
    exact h.set .r0 hv
  have htrack : TypesIn (tsSet abs .r0 (callType hid)) st'.regs
      (track typeLost (.call hid) st st' m) := by
    refine hset.mark fun r hr => ?_
    obtain ⟨hlost, hflow⟩ := track_eq_false.mp hr
    simp only [Insn.flow, setMark] at hflow ⊢
    split
    · next heq =>
      subst heq
      simp only [typeLost, Bool.or_eq_false_iff] at hlost
      simpa using hlost.2.2
    · next hne => simpa [hne] using hflow
  have harg (r : Reg) (hr : r ∈ argRegs) : track typeLost (.call hid) st st' m r = true := by
    simp [track, typeLost, hr]
  obtain rfl := Option.some.inj hcheck
  exact ((((htrack.forget _ (harg .r1 (by decide))).forget _ (harg .r2 (by decide))).forget _
    (harg .r3 (by decide))).forget _ (harg .r4 (by decide))).forget _ (harg .r5 (by decide))

/-- **An instruction leaves every unmarked register of the kind the pass gives it.** -/
theorem typesIn_effect {abs abs' : AbsStateTs} {st st' : BpfState} {sched sched' : PathSchedule}
    {insn : Insn} {m : Marks} (h : TypesIn abs st.regs m)
    (hcheck : checkInsnTs abs insn = some abs')
    (hexit : insn ≠ .exit) (heffect : PathEffect st sched insn st' sched') :
    TypesIn abs' st'.regs (track typeLost insn st st' m) := by
  have hmark (r : Reg) (hr : track typeLost insn st st' m r = false) : insn.flow m r = false :=
    (track_eq_false.mp hr).2
  have hcalls (hid : HelperId) (heq : insn = .call hid) :
      TypesIn abs' st'.regs (track typeLost insn st st' m) := by
    subst heq
    exact typesIn_call h hcheck heffect
  cases heffect with
  | plain hcall hexec heff =>
    by_cases hmoves : insn.moves = true
    · cases insn with
      | alu64Imm op dst imm =>
        have hop : op = .add ∨ op = .sub := by simpa [Insn.moves] using hmoves
        obtain ⟨v, rfl, hkind⟩ := execAlu64Imm_moves hop hexec
        rw [checkInsnTs_moves hop hcheck]
        refine TypesIn.mark (h.set dst fun hb => hkind _ (h dst ?_)) hmark
        rcases hop with rfl | rfl <;> simpa using hb
      | _ => simp [Insn.moves] at hmoves
    · cases heff with
      | move dst src =>
        obtain rfl := Option.some.inj hcheck
        refine TypesIn.mark (h.set dst fun hb => h src ?_) hmark
        simpa using hb
      | @shift op dst imm delta v hdelta hv =>
        cases op <;> simp [shiftDelta, Insn.moves] at hdelta hmoves
      | @number _ dst n hdst =>
        obtain ⟨b, hb⟩ := flow_of_number m hdst
        rw [checkInsnTs_number hdst (by simpa using hmoves) hcheck]
        exact TypesIn.mark (h.set dst (b := b) fun _ => ⟨n, rfl⟩) fun r hr => hb ▸ hmark r hr
      | store stack ringbuf hstore =>
        rw [checkInsnTs_store hstore hcheck]
        exact h.mark fun r hr => flow_of_store m hstore ▸ hmark r hr
      | branch hcond =>
        have hoff := (condition_offset hcond).1
        rw [checkInsnTs_branch hoff hcheck]
        exact h.mark fun r hr => flow_of_branch m hoff ▸ hmark r hr
      | goto offset =>
        obtain rfl := Option.some.inj hcheck
        exact h.mark hmark
      | exit => exact absurd rfl hexit
  | nullable hspec hnull => exact hcalls _ rfl
  | number hspec hnull => exact hcalls _ rfl

/-! ## Steps -/

variable {prog : BpfProgram}

/-- **Every effect keeps the invariant**: the step goes to the next instruction, or the kinds are
marked. -/
theorem typesSeen_effect (hcheck : typeCheck prog = true) {st st' : BpfState}
    {sched sched' : PathSchedule} {insn : Insn} {m : Marks}
    (hinsn : prog[st.pc.toNat]? = some insn) (hexit : insn ≠ .exit)
    (heffect : PathEffect st sched insn st' sched') (h : TypesSeen prog st m) :
    TypesSeen prog st' (track typeLost insn st st' m) := by
  by_cases hjump : st.pc < 0 ∨ st'.pc ≠ st.pc + 1
  · intro abs _ r hm
    have hlost := (track_eq_false.mp hm).1
    simp only [typeLost, Bool.or_eq_false_iff, decide_eq_false_iff_not] at hlost
    exact absurd hjump (by simpa using hlost.1)
  simp only [not_or, Int.not_lt, not_not] at hjump
  obtain ⟨hpos, hpc⟩ := hjump
  obtain ⟨abs, abs', habs, hinsnTs, hnextTs⟩ := tsAt_of_typeCheck hcheck hinsn
  have hat : st'.pc.toNat = st.pc.toNat + 1 := by omega
  intro abs'' habs''
  rw [hat] at habs''
  obtain rfl := Option.some.inj (hnextTs.symm.trans habs'')
  exact typesIn_effect (h abs habs) hinsnTs hexit heffect

/-! ## Map values -/

/-- A write of a value that is backed keeps map-value pointers backed. -/
theorem MapsBacked.set {st st' : BpfState} (h : MapsBacked st) {dst : Reg} {v : RegVal}
    (hregs : st'.regs = setReg st.regs dst v)
    (hv : ∀ id, v = .mapValuePtr id → (mapValueRead st'.mapValues id).isSome = true)
    (hmaps : ∀ id, (mapValueRead st.mapValues id).isSome = true →
      (mapValueRead st'.mapValues id).isSome = true) : MapsBacked st' := by
  intro r id hr
  rw [hregs, setReg] at hr
  split at hr
  · exact hv id hr
  · exact hmaps id (h r id hr)

/-- **Every step keeps map-value pointers backed.** -/
theorem mapsBacked_effect {st st' : BpfState} {sched sched' : PathSchedule} {insn : Insn}
    (h : MapsBacked st) (heffect : PathEffect st sched insn st' sched') : MapsBacked st' := by
  cases heffect with
  | plain hcall hexec heff =>
    cases heff with
    | move dst src => exact h.set rfl (fun id hid => h src id hid) fun _ hid => hid
    | @shift op dst imm delta v hdelta hv =>
      refine h.set rfl ?_ fun _ hid => hid
      rintro id rfl
      cases hreg : st.regs dst <;> simp [shiftPtr, hreg] at hv
    | number n hdst => exact h.set rfl (fun id hid => by cases hid) fun _ hid => hid
    | store stack ringbuf hstore => exact h
    | branch hcond => exact h
    | goto offset => exact h
    | exit => exact h
  | @nullable hid spec hspec hnull =>
    cases sched.choice with
    | AsNull =>
      have hregs : ((applyHelperEffect st spec.sideEffect).returnsChoice spec.retType
          .AsNull).regs = setReg st.regs .r0 .null := by
        simp [BpfState.returnsChoice, BpfState.returns]
      refine h.set hregs (fun id hid => by cases hid) fun id hid => ?_
      simpa [BpfState.returnsChoice, BpfState.returns] using hid
    | NonNull =>
      by_cases hret : spec.retType = .RetMapPtr
      · have hgrow (id : ℕ) (hid : (mapValueRead st.mapValues id).isSome = true) :
            (mapValueRead ((st.nextMapId, 0) :: st.mapValues) id).isSome = true := by
          rw [mapValueRead]
          split
          · rfl
          · exact hid
        have hregs : ((applyHelperEffect st spec.sideEffect).returnsChoice spec.retType
            .NonNull).regs = setReg st.regs .r0 (.mapValuePtr st.nextMapId) := by
          simp [BpfState.returnsChoice, hret, BpfState.returnsMapPtr]
        refine h.set hregs ?_ ?_
        · intro id hid
          obtain rfl := RegVal.mapValuePtr.inj hid
          simp [BpfState.returnsChoice, hret, BpfState.returnsMapPtr, mapValueRead]
        · intro id hid
          simpa [BpfState.returnsChoice, hret, BpfState.returnsMapPtr] using hgrow id hid
      · have hregs : ((applyHelperEffect st spec.sideEffect).returnsChoice spec.retType
            .NonNull).regs = setReg st.regs .r0 (.ringBufPtr st.nextMapId) := by
          simp [BpfState.returnsChoice, hret, BpfState.returnsRingBufPtr]
        refine h.set hregs (fun id hid => by cases hid) ?_
        intro id hid
        simpa [BpfState.returnsChoice, hret, BpfState.returnsRingBufPtr] using hid
  | @number hid spec hspec hnull =>
    have hregs : ((applyHelperEffect st spec.sideEffect).returns (.scalar 0)).regs =
        setReg st.regs .r0 (.scalar 0) := by
      simp [BpfState.returns]
    refine h.set hregs (fun id hid => by cases hid) ?_
    intro id hid
    simpa [BpfState.returns] using hid

/-! ## Runs from the entry -/

/-- The kinds lost a number of steps into a run. -/
abbrev typesLost (prog : BpfProgram) (init : BpfState) (sched : PathSchedule) : ℕ → Marks :=
  marksAfter prog typeLost typeMarks (init, sched)

/-- **Along every run of an accepted programme** the pass knows each kind it has not lost. -/
theorem typesSeen_after (hcheck : typeCheck prog = true) {init : BpfState} {sched : PathSchedule}
    (hpc : init.pc = 0) (h10 : init.regs .r10 = .framePtr 0) (h1 : init.regs .r1 = .ctxPtr 0)
    {n : ℕ} {c : BpfState × PathSchedule} (hc : (pathInterp prog).after n (init, sched) = some c) :
    TypesSeen prog c.1 (typesLost prog init sched n) :=
  marked_invariant (typesSeen_entry hpc h10 h1)
    (fun hinsn hexit heffect h => typesSeen_effect hcheck hinsn hexit heffect h) hc

/-- Along every run map-value pointers stay backed. -/
theorem mapsBacked_after {init : BpfState} {sched : PathSchedule} (h : MapsBacked init) {n : ℕ}
    {c : BpfState × PathSchedule} (hc : (pathInterp prog).after n (init, sched) = some c) :
    MapsBacked c.1 := by
  refine Interp.after_invariant (I := fun _ c => MapsBacked c.1) h ?_ hc
  intro _ u u' _ hnext hu
  obtain ⟨insn, -, -, heffect⟩ := pathEffect_of_next hnext
  exact mapsBacked_effect hu heffect

end BpfVerifier.Fstar
