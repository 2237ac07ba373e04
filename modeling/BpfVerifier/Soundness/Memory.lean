import BpfVerifier.Soundness.Registers
import Mathlib.Data.List.Basic

/-!
# Soundness/Memory — loads, stores and helper calls

A write to the frame keeps every tracked spill it stays apart from (`DescribesWith.overwrite`), and
a full store can be read back (`readFrame_storeFrag`).  Loads, stores and the output buffers of
helpers are instances.
-/

namespace BpfVerifier

variable {p : Program} {L : Layout} {sized : ℕ → BitVec 32 → BitVec 64 → Prop} {ρ : ℕ → Val}
  {state : VerifierState} {stack : StackState} {s s' : MState} {n : ℕ} {insn : BpfInsn}

/-! ## Reads after writes -/

theorem toNat_add_ofNat_sub (o : BitVec 64) {i : ℕ} (hi : i < 2 ^ 64) :
    (o + BitVec.ofNat 64 i - o).toNat = i := by
  rw [BitVec.add_comm, BitVec.add_sub_cancel, BitVec.toNat_ofNat, Nat.mod_eq_of_lt hi]

/-- A byte of the range is replaced. -/
theorem overwrite_of_lt {α : Type*} {f : BitVec 64 → α} {o : BitVec 64} {m i : ℕ} {new : ℕ → α}
    (hi : i < m) (h64 : i < 2 ^ 64) : overwrite f o m new (o + BitVec.ofNat 64 i) = new i := by
  rw [overwrite, toNat_add_ofNat_sub o h64, if_pos hi]

/-- A byte outside the range is kept. -/
theorem overwrite_of_le {α : Type*} {f : BitVec 64 → α} {o k : BitVec 64} {m : ℕ} {new : ℕ → α}
    (h : m ≤ (k - o).toNat) : overwrite f o m new k = f k :=
  if_neg (Nat.not_lt.mpr h)

/-- A read depends on its eight bytes only. -/
theorem readFrame_congr {f g : BitVec 64 → Frag} {k : BitVec 64}
    (h : ∀ i < 8, f (k + BitVec.ofNat 64 i) = g (k + BitVec.ofNat 64 i)) :
    readFrame f k .dw = readFrame g k .dw := by
  have h₀ : f k = g k := by simpa using h 0 (by decide)
  have hwhole : wholeAt f k = wholeAt g k := by
    rw [Bool.eq_iff_iff]
    simp only [wholeAt, List.all_eq_true, List.mem_range, decide_eq_true_eq, h₀]
    exact forall₂_congr fun i hi => by rw [h i hi]
  have hasm : assemble f k 8 = assemble g k 8 :=
    List.foldl_ext _ _ _ fun _ i hi => by rw [h i (List.mem_range.mp hi)]
  simp only [readFrame, decide_true, Bool.true_and, hwhole, h₀, widthBytes, hasm]

/-- **A write that stays apart from a slot leaves what it reads.** -/
theorem readFrame_overwrite_of_apart {f : BitVec 64 → Frag} {k o : BitVec 64} {m m' : ℕ}
    {new : ℕ → Frag} (h : apart k o m = true) (hle : m' ≤ m) :
    readFrame (overwrite f o m' new) k .dw = readFrame f k .dw := by
  simp only [apart, List.all_eq_true, List.mem_range, decide_eq_true_eq] at h
  exact readFrame_congr fun i hi => overwrite_of_le (Nat.le_trans hle (h i hi))

/-- **A full store is read back.** -/
theorem readFrame_storeFrag (f : BitVec 64 → Frag) (o : BitVec 64) (v : Val) :
    readFrame (overwrite f o 8 (storeFrag v .dw)) o .dw = v := by
  have hbyte (i : ℕ) (hi : i < 8) :
      overwrite f o 8 (storeFrag v .dw) (o + BitVec.ofNat 64 i) = ⟨v, i⟩ := by
    rw [overwrite_of_lt hi (by omega)]
    rfl
  have h₀ : overwrite f o 8 (storeFrag v .dw) o = ⟨v, 0⟩ := by simpa using hbyte 0 (by decide)
  have hwhole : wholeAt (overwrite f o 8 (storeFrag v .dw)) o = true := by
    simp only [wholeAt, List.all_eq_true, List.mem_range, decide_eq_true_eq, h₀]
    exact hbyte
  simp only [readFrame, decide_true, hwhole, Bool.and_self, if_true, h₀]

/-- Bytes of plain data read as a number. -/
theorem readFrame_plain {f : BitVec 64 → Frag} {o : BitVec 64} {b : BitVec 8}
    (h : f o = .plain b) : (readFrame f o .dw).prov = .number := by
  unfold readFrame
  split
  · rw [h]
    rfl
  · rfl

/-! ## Offsets in the frame -/

/-- The byte an index stands for. -/
theorem toIndex_eq_some {o : BitVec 64} {j : Fin 512} (h : StackState.toIndex o = some j) :
    -512 ≤ o.toInt ∧ o.toInt < 0 ∧ (512 + o).toNat = j := by
  unfold StackState.toIndex at h
  dsimp only at h
  split at h
  · next hb =>
    obtain rfl := Option.some.inj h
    simp only [Bool.and_eq_true, BitVec.sle_eq_decide, BitVec.slt_eq_decide, decide_eq_true_eq,
      BitVec.toInt_zero, show (512 : BitVec 64).toInt = 512 by decide] at hb
    have hz : (512 + o).toNat = (512 + o.toNat) % 2 ^ 64 := BitVec.toNat_add 512 o
    have ho := o.isLt
    have hlt : (512 + o).toNat < 512 := by
      rcases Word.toInt_cases (512 + o) with ⟨_, _⟩ | ⟨_, _, _⟩ <;> omega
    refine ⟨?_, ?_, (Nat.mod_eq_of_lt hlt).symm⟩
    · rcases Word.toInt_cases o with ⟨_, _⟩ | ⟨_, _, _⟩ <;> omega
    · rcases Word.toInt_cases o with ⟨_, _⟩ | ⟨_, _, _⟩ <;> omega
  · cases h

/-- Every offset of the frame has an index. -/
theorem exists_toIndex {o : BitVec 64} (hlow : -512 ≤ o.toInt) (hhigh : o.toInt < 0) :
    ∃ j, StackState.toIndex o = some j := by
  have h512 : (512 : BitVec 64).toInt = 512 := by decide
  have hsum : (512 + o).toInt = 512 + o.toInt := by
    rw [Word.toInt_add_of_bounds (by omega) (by omega), h512]
  refine ⟨_, if_pos ?_⟩
  simp only [Bool.and_eq_true, BitVec.sle_eq_decide, BitVec.slt_eq_decide, decide_eq_true_eq,
    BitVec.toInt_zero, h512, hsum]
  omega

/-- Offsets of one byte are equal. -/
theorem eq_of_toIndex {o o' : BitVec 64} {j : Fin 512} (h : StackState.toIndex o = some j)
    (h' : StackState.toIndex o' = some j) : o = o' := by
  have heq : 512 + o = 512 + o' :=
    BitVec.eq_of_toNat_eq ((toIndex_eq_some h).2.2.trans (toIndex_eq_some h').2.2.symm)
  simpa using heq

/-! ## Writing to the frame -/

/-- **A write to the frame**: a spill that is tracked afterwards was tracked and stays apart from
the write, or is read back from it. -/
theorem DescribesWith.writeFrame (h : DescribesWith L sized ρ state stack s) {stack' : StackState}
    {o : BitVec 64} {m : ℕ} {new : ℕ → Frag} {written : BitVec 64 → Bool}
    (hspill : ∀ k r, stack'.getSpill k = some r →
      (stack.getSpill k = some r ∧ ∃ m', apart k o m' = true ∧ m ≤ m') ∨
        RegHolds L sized ρ r (readFrame (overwrite s.frame o m new) k .dw))
    (hinit : ∀ k j, StackState.toIndex k = some j → stack'.init j = true → written k = true) :
    DescribesWith L sized ρ state stack'
      { s with frame := overwrite s.frame o m new, written := written } where
  regs := h.regs
  spills k r hr := by
    rcases hspill k r hr with ⟨hold, m', hapart, hle⟩ | hnew
    · change RegHolds L sized ρ r (readFrame (overwrite s.frame o m new) k .dw)
      rw [readFrame_overwrite_of_apart hapart hle]
      exact h.spills k r hold
    · exact hnew
  init := hinit

/-- A byte initialised after a write was so before, or is written. -/
theorem DescribesWith.init_overwrite (h : DescribesWith L sized ρ state stack s)
    {o k : BitVec 64} {m : ℕ} {j : Fin 512} (hk : StackState.toIndex k = some j)
    (hj : stack.init j = true ∨
      ∃ i < m, i < 2 ^ 64 ∧ StackState.toIndex (o + BitVec.ofNat 64 i) = some j) :
    overwrite s.written o m (fun _ => true) k = true := by
  rcases hj with hold | ⟨i, hi, h64, hidx⟩
  · unfold overwrite
    split
    · rfl
    · exact h.init k j hk hold
  · rw [eq_of_toIndex hk hidx, overwrite_of_lt hi h64]

/-! ## Bases -/

/-- Only a pointer is accessed. -/
theorem isPtr_of_accessError {base : RegState} {reg : Reg} {off : BitVec 64} {width pc : ℕ}
    {loc : Option SourceLoc} {locs : List (Option SourceLoc)}
    (h : accessError base reg off width pc loc locs = none) : base.regType.isPtr = true := by
  unfold accessError at h
  cases ht : base.regType <;> first | rfl | simp [ht] at h

/-- **A pointer to the frame is typed as one**, and its offset is tracked. -/
theorem PointsTo.of_frame {t : RegType} {v : Val} (h : PointsTo L sized t v)
    (hv : v.prov = .frame) : ∃ o, t = .framePtr o ∧ v = ⟨L.base .frame + o, .frame⟩ := by
  cases h with
  | frame o => exact ⟨o, rfl, rfl⟩
  | kernel hk => rcases hk with hk | hk <;> exact absurd (hv.symm.trans hk) (by simp)
  | _ => cases hv

/-- A pointer is not null. -/
theorem PointsTo.not_isNull {t : RegType} {v : Val} (h : PointsTo L sized t v) : ¬ v.IsNull := by
  rintro ⟨call, hnull⟩
  have hprov : v.prov = .null call := congrArg Val.prov hnull
  cases h with
  | kernel hk => rcases hk with hk | hk <;> exact absurd (hprov.symm.trans hk) (by simp)
  | _ => cases hprov

/-- The offset of an access through a tracked pointer. -/
theorem Layout.offset_add (L : Layout) (prov : Prov) (o off : BitVec 64) :
    L.offset ⟨L.base prov + o, prov⟩ off = o + off := by
  rw [Layout.offset, BitVec.add_assoc, BitVec.add_comm, BitVec.add_sub_cancel]

/-! ## Loads -/

/-- **A loaded value is described by what the verifier leaves in the destination.** -/
theorem DescribesWith.load (h : DescribesWith L sized ρ state stack s) {base : Reg}
    {off : BitVec 64} {width : MemWidth} (ω : Oracle) :
    RegHolds L sized ρ (loadResult stack (state.get base) off (widthBytes width))
      (s.loadVal L ω (s.regs base) off width) := by
  have hbase := (h.regs base).type
  have hkernel (hp : (s.regs base).prov = .ctx ∨
      (s.regs base).prov = .number ∨ (s.regs base).prov = .kernel) :
      RegHolds L sized ρ (if widthBytes width = 8 then .kernelPtr else .scalarUnknown)
        (s.loadVal L ω (s.regs base) off width) := by
    split
    · refine regHolds_kernelPtr ?_
      unfold MState.loadVal
      rcases hp with hp | hp | hp <;> rw [hp] <;> dsimp only <;> split
      all_goals first | exact Or.inr rfl | exact Or.inl rfl
    · exact regHolds_scalarUnknown
  unfold loadResult
  cases ht : (state.get base).regType with
  | framePtr o =>
    rw [ht] at hbase
    rw [show s.regs base = ⟨L.base .frame + o, .frame⟩ from hbase]
    simp only [MState.loadVal, L.offset_add]
    split
    · next hw =>
      obtain rfl : width = .dw := by cases width <;> first | rfl | cases hw
      cases hs : stack.getSpill (o + off) with
      | none => exact regHolds_scalarUnknown
      | some r => exact h.spills _ r hs
    · exact regHolds_scalarUnknown
  | ctxPtr o =>
    rw [ht] at hbase
    exact hkernel (Or.inl (congrArg Val.prov hbase))
  | kernelPtr =>
    rw [ht] at hbase
    exact hkernel (Or.inr hbase)
  | _ => exact regHolds_scalarUnknown

/-! ## Stores -/

/-- A store outside the frame touches neither the frame nor a register. -/
theorem MState.storeVal_of_ne_frame {base : Val} (h : base.prov ≠ .frame) (off : BitVec 64)
    (width : MemWidth) (v : Val) :
    ∃ stored, s.storeVal L base off width v = { s with stored := stored } := by
  have hput : ∃ stored, (if width = .dw then { s with stored := s.stored ++ [v] } else s)
      = { s with stored := stored } := by
    split
    · exact ⟨_, rfl⟩
    · exact ⟨s.stored, rfl⟩
  unfold MState.storeVal
  cases hp : base.prov with
  | frame => exact absurd hp h
  | mapValue call => exact hput
  | ringBuf call pc reserved => exact hput
  | data name => exact hput
  | _ => exact ⟨s.stored, rfl⟩

/-- **A store is described by what the verifier records of it.** -/
theorem DescribesWith.store (h : DescribesWith L sized ρ state stack s) {base : Reg}
    {off : BitVec 64} {width : MemWidth} {val : Option RegState} {v : Val}
    (hval : ∀ r, val = some r → RegHolds L sized ρ r v)
    (hptr : (state.get base).regType.isPtr = true)
    (hex : storePrecise stack (state.get base) off (widthBytes width) = true) :
    DescribesWith L sized ρ state
      (storeStack stack (state.get base) val off (widthBytes width))
      (s.storeVal L (s.regs base) off width v) := by
  have hbase := (h.regs base).type
  by_cases hframe : (s.regs base).prov = .frame
  · obtain ⟨o, ht, hv⟩ := (hbase.pointsTo hptr).of_frame hframe
    have hapart (k : BitVec 64) (r : RegState) (hk : stack.getSpill k = some r)
        (hne : k ≠ o + off) : apart k (o + off) (widthBytes width) = true := by
      simp only [storePrecise, ht, Bool.and_eq_true, List.all_eq_true, Bool.or_eq_true,
        decide_eq_true_eq] at hex
      exact (hex.2.2 (k, r) (AssocMap.mem_of_get hk)).resolve_left hne
    have hinit (stack' : StackState) (hsame : stack'.init = stack.init) (k : BitVec 64)
        (j : Fin 512) (hk : StackState.toIndex k = some j)
        (hj : (stack'.markWritten (o + off) (widthBytes width)).init j = true) :
        overwrite s.written (o + off) (widthBytes width) (fun _ => true) k = true := by
      have hle := widthBytes_le width
      rw [StackState.init_markWritten, hsame] at hj
      exact h.init_overwrite hk (hj.imp_right fun ⟨i, hi, hidx⟩ => ⟨i, hi, by omega, hidx⟩)
    have hplain : DescribesWith L sized ρ state
        ((stack.clearSpill (o + off)).markWritten (o + off) (widthBytes width))
        { s with
          frame := overwrite s.frame (o + off) (widthBytes width) (storeFrag v width)
          written := overwrite s.written (o + off) (widthBytes width) fun _ => true } := by
      refine h.writeFrame (fun k r hr => Or.inl ?_) (hinit _ rfl)
      rw [StackState.getSpill_markWritten, StackState.getSpill_clearSpill] at hr
      split at hr
      · cases hr
      · next hne => exact ⟨hr, _, hapart k r hr hne, Nat.le_refl _⟩
    simp only [storeStack, ht, hv, MState.storeVal, L.offset_add]
    split
    · next r =>
      split
      · next hspill =>
        obtain rfl : width = .dw := by cases width <;> first | rfl | cases hspill.1
        refine h.writeFrame (fun k q hq => ?_) (hinit _ rfl)
        rw [StackState.getSpill_spill] at hq
        split at hq
        · next hk =>
          obtain rfl := Option.some.inj hq
          right
          rw [hk]
          change RegHolds L sized ρ r (readFrame (overwrite s.frame (o + off) 8 _) (o + off) .dw)
          rw [readFrame_storeFrag]
          exact hval r rfl
        · next hne => exact Or.inl ⟨hq, _, hapart k q hq hne, Nat.le_refl _⟩
      · exact hplain
    · exact hplain
  · obtain ⟨stored, hs⟩ := s.storeVal_of_ne_frame (L := L) hframe off width v
    have hstack : storeStack stack (state.get base) val off (widthBytes width) = stack := by
      unfold storeStack
      split
      · next o ht =>
        rw [ht] at hbase
        exact absurd (congrArg Val.prov hbase) hframe
      · rfl
    rw [hs, hstack]
    exact ⟨h.regs, h.spills, h.init⟩

end BpfVerifier
