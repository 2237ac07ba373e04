import BpfVerifier.Soundness.Memory

/-!
# Soundness/Calls — helper calls

A helper returns in r0 what `callReturn` types, under a fresh id if the result is nullable, and
fills its output buffer.  The verifier marks no more of the buffer than is filled (`writeSize_le`),
and a buffer that overlaps no tracked spill keeps the frame described (`DescribesWith.fillBuffer`).
-/

namespace BpfVerifier

variable {L : Layout} {sized : ℕ → BitVec 32 → BitVec 64 → Prop} {ρ : ℕ → Val}
  {state : VerifierState} {stack : StackState} {s : MState} {n pc : ℕ} {helper : HelperSpec}
  {loc : Option SourceLoc}

/-! ## Arguments -/

/-- An argument a call has passed is of the type its helper declares. -/
theorem accepts_of_checkArgs (h : checkArgs state pc loc helper = none) {i : ℕ} {reg : Reg}
    {a : ArgType} (hreg : argRegs[i]? = some reg) (ha : helper.args[i]? = some (some a)) :
    a.accepts (state.get reg).regType = true := by
  have hzip : (argRegs.zip helper.args)[i]? = some (reg, some a) :=
    List.getElem?_zip_eq_some.mpr ⟨hreg, ha⟩
  exact (arg_of_checkArgs h (List.mem_of_getElem? hzip)).2

/-- An output buffer is a pointer. -/
theorem isPtr_of_accepts_ptrToMem {t : RegType} (h : ArgType.ptrToMem.accepts t = true) :
    t.isPtr = true := by
  cases t <;> first | rfl | cases h

/-- The helpers that write through their first argument. -/
theorem writesArg1_iff (hmem : helper ∈ HELPERS) :
    writesArg1 helper = true ↔ helper.args[0]? = some (some .ptrToMem) := by
  have hne := args_head_ne_ptrToStack hmem
  simp [writesArg1, hne]

/-! ## The output buffer -/

/-- **The verifier marks no more bytes than the helper writes.** -/
theorem writeSize_le {r : RegState} {v : Val} (h : RegHolds L sized ρ r v) (hwf : r.Wf n) :
    writeSize r ≤ v.bits.toNat := by
  unfold writeSize
  cases hk : r.tnum.knownValue with
  | none => simp [Word.toNat_minU]
  | some x =>
    rw [h.eq_of_knownValue hwf hk, Option.getD_some, Word.toNat_minU]
    exact Nat.le_trans (Nat.mod_le _ _) (Nat.min_le_left _ _)

/-- The buffer the machine writes to is the one the verifier sees. -/
theorem DescribesWith.outBuffer (h : DescribesWith L sized ρ state stack s)
    (hwf : StateWf n state stack) {ptr : Val} {size : BitVec 64}
    (hb : s.outBuffer helper = some (ptr, size)) (hargs : checkArgs state pc loc helper = none) :
    ∃ r r', bufferRegs state helper = some (r, r') ∧ RegHolds L sized ρ r ptr ∧
      r.regType.isPtr = true ∧ size.toNat ≤ r'.umax.toNat := by
  unfold MState.outBuffer at hb
  unfold bufferRegs
  split at hb
  · next h₀ =>
    obtain ⟨rfl, rfl⟩ := Prod.mk.inj (Option.some.inj hb)
    exact ⟨_, _, if_pos h₀, h.regs .r1,
      isPtr_of_accepts_ptrToMem (accepts_of_checkArgs hargs (i := 0) rfl h₀),
      ((h.regs .r2).allows (hwf.regs .r2)).umax⟩
  · next h₀ =>
    split at hb
    · next h₁ =>
      obtain ⟨rfl, rfl⟩ := Prod.mk.inj (Option.some.inj hb)
      refine ⟨_, _, by rw [if_neg h₀, if_pos h₁], h.regs .r2,
        isPtr_of_accepts_ptrToMem (accepts_of_checkArgs hargs (i := 1) rfl h₁),
        ((h.regs .r3).allows (hwf.regs .r3)).umax⟩
    · cases hb

/-- A helper that does not write through its first argument leaves the stack alone. -/
theorem trackHelperWrite_of_not_writes (h : writesArg1 helper = false) :
    trackHelperWrite state stack helper = stack := by
  unfold trackHelperWrite
  split
  · simp only [h, Bool.false_eq_true, if_false]
  · rfl

/-- The spills after a write to the frame. -/
theorem getSpill_trackHelperWrite {o k : BitVec 64} (ht : (state.get .r1).regType = .framePtr o)
    (hw : writesArg1 helper = true) :
    (trackHelperWrite state stack helper).getSpill k
      = if respills state helper = true ∧ k = o then some .kernelPtr else stack.getSpill k := by
  unfold trackHelperWrite respills
  simp only [ht, hw, if_true, Bool.true_and, Bool.and_eq_true, decide_eq_true_eq]
  by_cases hspill : writeSize (state.get .r2) = 8 ∧ isKernelRead helper = true
  · rw [if_pos hspill, StackState.getSpill_spill]
    simp only [hspill, and_self, true_and]
    split
    · rfl
    · split
      · exact StackState.getSpill_markWritten ..
      · rfl
  · rw [if_neg hspill, if_neg (fun h => hspill h.1 : ¬(_ ∧ k = o))]
    split
    · exact StackState.getSpill_markWritten ..
    · rfl

/-- The bytes initialised after a write to the frame. -/
theorem init_trackHelperWrite {o : BitVec 64} (ht : (state.get .r1).regType = .framePtr o)
    (hw : writesArg1 helper = true) {j : Fin 512} :
    (trackHelperWrite state stack helper).init j = true ↔ stack.init j = true ∨
      ∃ i < writeSize (state.get .r2), StackState.toIndex (o + BitVec.ofNat 64 i) = some j := by
  have hmark : (if 0 < writeSize (state.get .r2) then
      stack.markWritten o (writeSize (state.get .r2)) else stack).init j = true ↔
      stack.init j = true ∨
        ∃ i < writeSize (state.get .r2), StackState.toIndex (o + BitVec.ofNat 64 i) = some j := by
    split
    · exact StackState.init_markWritten ..
    · next hzero => exact ⟨Or.inl, fun h => h.resolve_right fun ⟨i, hi, _⟩ => hzero (by omega)⟩
  unfold trackHelperWrite
  simp only [ht, hw, if_true]
  split
  · next hspill =>
    -- the spill marks the bytes of the buffer again
    rw [StackState.init_spill, StackState.init_markWritten, hmark, hspill.1]
    exact ⟨fun h => h.elim id Or.inr, Or.inl⟩
  · exact hmark

/-- A spill that stays tracked is apart from the buffer. -/
theorem apart_of_callPrecise {r r' : RegState} {o k : BitVec 64} {q : RegState}
    (hex : callPrecise state stack helper = true) (hregs : bufferRegs state helper = some (r, r'))
    (ht : r.regType = .framePtr o) (hk : stack.getSpill k = some q)
    (hne : ¬(respills state helper = true ∧ k = o)) : apart k o r'.umax.toNat = true := by
  simp only [callPrecise, hregs, ht, List.all_eq_true, Bool.or_eq_true, Bool.and_eq_true,
    decide_eq_true_eq] at hex
  exact (hex (k, q) (AssocMap.mem_of_get hk)).resolve_left hne

/-- A buffer in the frame that r1 points to is filled as the verifier records it. -/
theorem DescribesWith.fillArg1 (h : DescribesWith L sized ρ state stack s)
    (hwf : StateWf n state stack) {o : BitVec 64} (ht : (state.get .r1).regType = .framePtr o)
    (hw : writesArg1 helper = true)
    (hapart : ∀ k q, stack.getSpill k = some q → ¬(respills state helper = true ∧ k = o) →
      apart k o (state.get .r2).umax.toNat = true) (ω : Oracle) :
    DescribesWith L sized ρ state (trackHelperWrite state stack helper)
      { s with
        frame := overwrite s.frame o (s.regs .r2).bits.toNat fun i => .plain (ω.bytes i)
        written := overwrite s.written o (s.regs .r2).bits.toNat fun _ => true } := by
  have hsize := writeSize_le (h.regs .r2) (hwf.regs .r2)
  have hle := ((h.regs .r2).allows (hwf.regs .r2)).umax
  refine h.writeFrame (fun k q hk => ?_) fun k j hk hj => h.init_overwrite hk ?_
  · rw [getSpill_trackHelperWrite ht hw] at hk
    split at hk
    · next hspill =>
      -- the buffer is long enough to hold a word, of plain bytes
      obtain rfl := Option.some.inj hk
      have h8 : writeSize (state.get .r2) = 8 := by
        simp only [respills, Bool.and_eq_true, decide_eq_true_eq] at hspill
        exact hspill.1.1.2
      refine Or.inr (regHolds_kernelPtr (Or.inl (readFrame_plain (b := ω.bytes 0) ?_)))
      rw [hspill.2]
      have hfirst : overwrite s.frame o (s.regs .r2).bits.toNat
          (fun i => Frag.plain (ω.bytes i)) (o + BitVec.ofNat 64 0) = .plain (ω.bytes 0) :=
        overwrite_of_lt (by omega) (by decide)
      rwa [BitVec.add_zero] at hfirst
    · next hne => exact Or.inl ⟨hk, _, hapart k q hk hne, hle⟩
  · refine ((init_trackHelperWrite ht hw).mp hj).imp_right fun ⟨i, hi, hidx⟩ => ?_
    exact ⟨i, by omega, by omega, hidx⟩

/-- **Filling the output buffer is described by what the verifier records of it.** -/
theorem DescribesWith.fillBuffer (h : DescribesWith L sized ρ state stack s)
    (hwf : StateWf n state stack) (hmem : helper ∈ HELPERS)
    (hargs : checkArgs state pc loc helper = none) (hex : callPrecise state stack helper = true)
    (ω : Oracle) :
    DescribesWith L sized ρ state (trackHelperWrite state stack helper)
      (s.fillBuffer L ω helper) := by
  unfold MState.fillBuffer
  cases hb : s.outBuffer helper with
  | none =>
    have hw : writesArg1 helper = false := by
      rw [Bool.eq_false_iff, ne_eq, writesArg1_iff hmem]
      intro h₀
      simp [MState.outBuffer, h₀] at hb
    rw [trackHelperWrite_of_not_writes hw]
    exact h
  | some buf =>
    obtain ⟨ptr, size⟩ := buf
    obtain ⟨r, r', hregs, hr, hptr, hle⟩ := h.outBuffer hwf hb hargs
    -- the pointer the verifier tracks, when it tracks one through r1
    have hr1 (hw : writesArg1 helper = true) : r = state.get .r1 ∧ r' = state.get .r2 ∧
        size = (s.regs .r2).bits ∧ helper.args[0]? = some (some .ptrToMem) := by
      have h₀ := (writesArg1_iff hmem).mp hw
      simp only [bufferRegs, h₀, if_true, Option.some.injEq, Prod.mk.injEq] at hregs
      simp only [MState.outBuffer, h₀, if_true, Option.some.injEq, Prod.mk.injEq] at hb
      exact ⟨hregs.1.symm, hregs.2.symm, hb.2.symm, h₀⟩
    dsimp only
    split
    · next hframe =>
      obtain ⟨o, ht, rfl⟩ := (hr.type.pointsTo hptr).of_frame hframe
      have hoff : L.offset ⟨L.base .frame + o, .frame⟩ 0 = o := by
        rw [L.offset_add, BitVec.ofNat_eq_ofNat, BitVec.add_zero]
      rw [hoff]
      cases hw : writesArg1 helper with
      | false =>
        rw [trackHelperWrite_of_not_writes hw]
        have h₀ : helper.args[0]? ≠ some (some .ptrToMem) := by
          rw [ne_eq, ← writesArg1_iff hmem, hw]
          decide
        rw [if_neg h₀]
        refine h.writeFrame (fun k q hk => Or.inl ⟨hk, _, ?_, hle⟩) h.init
        exact apart_of_callPrecise hex hregs ht hk (by simp [respills, hw])
      | true =>
        obtain ⟨rfl, rfl, rfl, h₀⟩ := hr1 hw
        rw [if_pos h₀]
        exact h.fillArg1 hwf ht hw (fun k q => apart_of_callPrecise hex hregs ht) ω
    · next hframe =>
      have hsame : trackHelperWrite state stack helper = stack := by
        cases hw : writesArg1 helper with
        | false => exact trackHelperWrite_of_not_writes hw
        | true =>
          obtain ⟨rfl, -⟩ := hr1 hw
          unfold trackHelperWrite
          split
          · next o ht =>
            have htype := hr.type
            rw [ht] at htype
            exact absurd (congrArg Val.prov htype) hframe
          · rfl
      rw [hsame]
      exact h

/-! ## The result -/

/-- **A returned value is described by what the verifier leaves in r0.** -/
theorem regHolds_returned (ω : Oracle) (ret : HelperReturn)
    (hsized : sized s.pc (reserveSize (state.get .r2)) (s.regs .r2).bits) :
    RegHolds L sized (Function.update ρ n (s.returned L ω ret))
      (callReturn state ret s.pc n).1 (s.returned L ω ret) := by
  have hself : Function.update ρ n (s.returned L ω ret) n = s.returned L ω ret :=
    Function.update_self n _ ρ
  cases ret with
  | scalar => exact regHolds_scalarUnknown
  | errorCode => exact regHolds_scalarUnknown
  | kernelPtr => exact regHolds_kernelPtr (Or.inr rfl)
  | mapPtr =>
    refine regHolds_unbounded ⟨hself.symm, ?_⟩
    unfold MState.returned
    dsimp only
    split
    · exact Or.inl ⟨_, rfl⟩
    · exact Or.inr ⟨L.mapBase_ne_zero _, rfl, s.calls, by simp⟩
  | ringBufPtr =>
    refine regHolds_unbounded ⟨hself.symm, ?_⟩
    unfold MState.returned
    dsimp only
    split
    · exact Or.inl ⟨_, rfl⟩
    · exact Or.inr ⟨L.ringBase_ne_zero _, s.calls, _, by simp, hsized⟩

/-- The tracked write looks at the arguments only. -/
theorem trackHelperWrite_set_r0 (r : RegState) :
    trackHelperWrite (state.set .r0 r) stack helper = trackHelperWrite state stack helper := by
  simp only [trackHelperWrite, VerifierState.get_set_of_ne _ _ (show Reg.r1 ≠ .r0 by decide),
    VerifierState.get_set_of_ne _ _ (show Reg.r2 ≠ .r0 by decide)]

/-- **A helper call is described by what the verifier leaves.** -/
theorem DescribesWith.call (h : DescribesWith L sized ρ state stack s)
    (hwf : StateWf n state stack) (hmem : helper ∈ HELPERS)
    (hargs : checkArgs state pc loc helper = none) (hex : callPrecise state stack helper = true)
    (hsized : sized s.pc (reserveSize (state.get .r2)) (s.regs .r2).bits) (ω : Oracle) :
    Describes L sized (clobber (state.set .r0 (callReturn state helper.retType s.pc n).1))
      (trackHelperWrite (state.set .r0 (callReturn state helper.retType s.pc n).1) stack helper)
      (s.callHelper L ω helper) := by
  have hfresh : ∀ id < n, Function.update ρ n (s.returned L ω helper.retType) id = ρ id :=
    fun id hid => Function.update_of_ne (Nat.ne_of_lt hid) _ _
  have hfill := (h.congr hwf hfresh).fillBuffer hwf hmem hargs hex ω
  rw [trackHelperWrite_set_r0]
  refine ⟨_, fun r => ?_, hfill.spills, hfill.init⟩
  rw [get_clobber, VerifierState.get_set]
  unfold MState.callHelper
  dsimp only
  by_cases hr0 : r = .r0
  · rw [if_neg (by simp [hr0, argRegs]), if_pos hr0, if_pos hr0]
    exact regHolds_returned ω helper.retType hsized
  · rw [if_neg hr0, if_neg hr0]
    split
    · exact regHolds_uninit
    · exact (h.congr hwf hfresh).regs r

end BpfVerifier
