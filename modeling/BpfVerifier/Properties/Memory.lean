import BpfVerifier.Properties.Paths
import BpfVerifier.Soundness.Simulation

/-!
# Properties/Memory — which accesses of an accepted programme are safe

Null safety, frame bounds, the bounds of the other objects and the initialisation of the stack, for
every instruction a run executes.  Each holds of the runs that `Soundness/Simulation` explains, and
fails on some accepted programme whose walk takes an unsound step.
-/

namespace BpfVerifier

open Loop

variable {p : Program} {L : Layout} {env : ℕ → Oracle} {s₀ s : MState} {n : ℕ} {insn : BpfInsn}
  {r : Reg} {width : MemWidth}

/-! ## Accesses -/

/-- The base register and the width of a memory access. -/
def BpfInsn.access (insn : BpfInsn) : Option (Reg × MemWidth) :=
  match insn.opcode with
  | .ldx width => some (insn.src, width)
  | .stx width | .st width => some (insn.dst, width)
  | _ => none

/-- Whether the instruction is a load. -/
def BpfInsn.isLoad (insn : BpfInsn) : Bool :=
  match insn.opcode with
  | .ldx _ => true
  | _ => false

/-- **What the verifier has checked of an access.** -/
structure AccessChecked (p : Program) (pc : ℕ) (insn : BpfInsn) (state : VerifierState)
    (stack : StackState) (r : Reg) (width : MemWidth) : Prop where
  error : accessError (state.get r) r insn.off (widthBytes width) pc (p.loc pc) p.sourceLocs = none
  region : regionPrecise (state.get r) insn.off (widthBytes width) = true
  /-- A load finds the bytes initialised, a store ends without overflow. -/
  frame : ∀ o, (state.get r).regType = .framePtr o →
    if insn.isLoad then stack.checkReadable (o + insn.off) (widthBytes width) = true
    else noWrap (512 + (o + insn.off)) (widthBytes width) = true

/-- **Every access that the verifier accepts has been checked.** -/
theorem Accepts.access {pc : ℕ} {state : VerifierState} {stack : StackState} {o : Outcome}
    (h : Accepts p pc insn state stack n o) (hex : transferPrecise insn state stack = true)
    (hacc : insn.access = some (r, width)) : AccessChecked p pc insn state stack r width := by
  have hstore {base : RegState} (hst : storePrecise stack base insn.off (widthBytes width) = true) :
      regionPrecise base insn.off (widthBytes width) = true ∧ ∀ o, base.regType = .framePtr o →
        noWrap (512 + (o + insn.off)) (widthBytes width) = true := by
    obtain ⟨hregion, hframe⟩ := Bool.and_eq_true_iff.mp hst
    refine ⟨hregion, fun o ho => ?_⟩
    rw [ho] at hframe
    exact (Bool.and_eq_true_iff.mp hframe).1
  unfold BpfInsn.access at hacc
  unfold transferPrecise at hex
  cases h with
  | ldx hop _ herr hinit =>
    simp only [hop, Option.some.injEq, Prod.mk.injEq] at hacc hex
    obtain ⟨rfl, rfl⟩ := hacc
    refine ⟨herr, hex, fun o ho => ?_⟩
    rw [if_pos (by simp [BpfInsn.isLoad, hop])]
    by_contra hnot
    simp [uninitStackRead, ho, hnot] at hinit
  | stx hop _ _ _ herr =>
    simp only [hop, Option.some.injEq, Prod.mk.injEq] at hacc hex
    obtain ⟨rfl, rfl⟩ := hacc
    refine ⟨herr, (hstore hex).1, fun o ho => ?_⟩
    rw [if_neg (by simp [BpfInsn.isLoad, hop])]
    exact (hstore hex).2 o ho
  | st hop _ herr =>
    simp only [hop, Option.some.injEq, Prod.mk.injEq] at hacc hex
    obtain ⟨rfl, rfl⟩ := hacc
    refine ⟨herr, (hstore hex).1, fun o ho => ?_⟩
    rw [if_neg (by simp [BpfInsn.isLoad, hop])]
    exact (hstore hex).2 o ho
  | jmp is32 hop _ _ => cases is32 <;> simp [hop] at hacc
  | alu is64 hop _ _ => cases is64 <;> simp [hop] at hacc
  | _ => simp_all

/-- The visit that explains an executed access has checked it. -/
theorem Visit.Explains.access {v : Visit} (h : v.Explains p L s)
    (hacc : v.insn.access = some (r, width)) :
    AccessChecked p s.pc v.insn v.state v.stack r width :=
  h.accepts.access h.precise hacc

/-! ## Null safety -/

/-- **No executed access uses a null result as its base.** -/
theorem base_not_null (h : p.Accepted) (hp : p.Precise) (h₀ : s₀.Entry L)
    (hmix : UnmixedUntil p L env s₀ n) (hrun : exec p L env s₀ n = some s) (hat : s.At p insn)
    (hacc : insn.access = some (r, width)) : ¬ (s.regs r).IsNull := by
  obtain ⟨v, rfl, hv⟩ := h.explains hp h₀ hmix hrun hat
  have hptr := isPtr_of_accessError (hv.access hacc).error
  obtain ⟨ρ, hd⟩ := hv.describes
  exact ((hd.regs r).type.pointsTo hptr).not_isNull

/-- A lookup whose result is checked before it is read. -/
def checkedLookup : Program :=
  .ofInsns [
    .storeImm .dw .r10 (-8) 0, .aluReg .mov .r2 .r10, .aluImm .add .r2 (-8), .aluImm .mov .r1 0,
    .callHelper 1, .jmpImm .jeq .r0 0 1, .load .w .r0 .r0 0, .ret]

theorem base_not_null_checkedLookup :
    ∃ s, exec checkedLookup .flat (fun _ => .quiet 0 false) (.fresh .flat) 6 = some s ∧
      s.pc = 6 ∧ ¬ (s.regs .r0).IsNull := by
  obtain ⟨s, hs, hpc⟩ := exists_exec checkedLookup (fun _ => .quiet 0 false) 6
    (fun s => s.pc = 6) (by decide +kernel)
  exact ⟨s, hs, hpc, base_not_null (by decide +kernel)
    (Program.precise_of_testAll (by decide +kernel))
    (MState.entry_fresh _) (unmixedUntil_of_all (by decide)) hs
    (show s.At checkedLookup (.load .w .r0 .r0 0) by rw [MState.At, hpc]; rfl) rfl⟩

/-- A loop that reads through r6, and leaves an unchecked lookup in r6 for the next round.  At the
loop head the verifier keeps the context pointer that r6 held at first. -/
def derefsNull : Program :=
  .ofInsns [
    .aluReg .mov .r6 .r1, .load .w .r1 .r6 0, .aluReg .mov .r2 .r10, .aluImm .add .r2 (-8),
    .storeImm .dw .r10 (-8) 0, .aluImm .mov .r1 0, .callHelper 1, .aluReg .mov .r6 .r0,
    .jmpImm .jeq .r0 0 (-8), .aluImm .mov .r0 0, .ret]

/-- `derefsNull` is accepted, and its second round reads through null. -/
theorem base_null_of_accepted :
    ¬ ∀ (p : Program) (L : Layout) (env : ℕ → Oracle) (s₀ s : MState) (n : ℕ) (insn : BpfInsn)
      (r : Reg) (width : MemWidth), p.Accepted → s₀.Entry L → exec p L env s₀ n = some s →
      s.At p insn → insn.access = some (r, width) → ¬ (s.regs r).IsNull := by
  intro hall
  obtain ⟨s, hs, hpc, hnull⟩ := exists_exec derefsNull (fun _ => .quiet 0 true) 9
    (fun s => s.pc = 1 ∧ s.regs .r6 = ⟨0, .null 0⟩) (by decide +kernel)
  exact hall derefsNull .flat _ _ s 9 (.load .w .r1 .r6 0) .r6 .w (by decide +kernel)
    (MState.entry_fresh _) hs (by rw [MState.At, hpc]; rfl) rfl ⟨0, hnull⟩

/-! ## Frame bounds -/

/-- The end of an access that does not overflow. -/
theorem toInt_add_of_noWrap {start : BitVec 64} (h : noWrap start (widthBytes width) = true) :
    (start + BitVec.ofNat 64 (widthBytes width)).toInt = start.toInt + widthBytes width := by
  have hw := widthBytes_le width
  simp only [noWrap, BitVec.sle_eq_decide, decide_eq_true_eq] at h
  have hadd := BitVec.toNat_add start (BitVec.ofNat 64 (widthBytes width))
  rw [BitVec.toNat_ofNat, Nat.mod_eq_of_lt (show widthBytes width < 2 ^ 64 by omega)] at hadd
  rcases Word.toInt_cases start with ⟨_, _⟩ | ⟨_, _, _⟩ <;>
    rcases Word.toInt_cases (start + BitVec.ofNat 64 (widthBytes width)) with
      ⟨_, _⟩ | ⟨_, _, _⟩ <;> omega

/-- The offset of the `i`-th byte from one in the frame. -/
theorem toInt_add_of_frame {o : BitVec 64} (h₁ : -512 ≤ o.toInt) (h₂ : o.toInt < 0) {i : ℕ}
    (hi : i < 2 ^ 63) : (o + BitVec.ofNat 64 i).toInt = o.toInt + i := by
  have hadd := BitVec.toNat_add o (BitVec.ofNat 64 i)
  rw [BitVec.toNat_ofNat, Nat.mod_eq_of_lt (show i < 2 ^ 64 by omega)] at hadd
  rcases Word.toInt_cases o with ⟨_, _⟩ | ⟨_, _, _⟩ <;>
    rcases Word.toInt_cases (o + BitVec.ofNat 64 i) with ⟨_, _⟩ | ⟨_, _, _⟩ <;> omega

/-- A readable range lies in the frame. -/
theorem frame_of_checkReadable {stack : StackState} {o : BitVec 64}
    (h : stack.checkReadable o (widthBytes width) = true) :
    -512 ≤ o.toInt ∧ o.toInt + widthBytes width ≤ 0 := by
  rw [StackState.checkReadable_iff] at h
  have hpos := widthBytes_pos width
  have hle := widthBytes_le width
  obtain ⟨_, hfirst, -⟩ := h 0 hpos
  rw [BitVec.add_zero] at hfirst
  obtain ⟨h₁, h₂, -⟩ := toIndex_eq_some hfirst
  obtain ⟨_, hlast, -⟩ := h (widthBytes width - 1) (by omega)
  obtain ⟨-, h₃, -⟩ := toIndex_eq_some hlast
  rw [toInt_add_of_frame h₁ h₂ (by omega)] at h₃
  omega

/-- A range checked against the frame lies in it, unless its end overflows. -/
theorem frame_of_checkBounds {o : BitVec 64}
    (h : StackState.checkBounds o (widthBytes width) = true)
    (hw : noWrap (512 + o) (widthBytes width) = true) :
    -512 ≤ o.toInt ∧ o.toInt + widthBytes width ≤ 0 := by
  have hend := toInt_add_of_noWrap hw
  simp only [StackState.checkBounds, Bool.and_eq_true, BitVec.sle_eq_decide,
    decide_eq_true_eq, show BitVec.toInt (512 : BitVec 64) = 512 by decide,
    BitVec.toInt_zero] at h
  have hpos := widthBytes_pos width
  have hadd := BitVec.toNat_add 512 o
  rw [show (512 : BitVec 64).toNat = 512 by decide] at hadd
  rcases Word.toInt_cases o with ⟨_, _⟩ | ⟨_, _, _⟩ <;>
    rcases Word.toInt_cases (512 + o) with ⟨_, _⟩ | ⟨_, _, _⟩ <;> omega

/-- **Every executed access through a pointer to the frame stays inside it.** -/
theorem access_in_frame (h : p.Accepted) (hp : p.Precise) (h₀ : s₀.Entry L)
    (hmix : UnmixedUntil p L env s₀ n) (hrun : exec p L env s₀ n = some s) (hat : s.At p insn)
    (hacc : insn.access = some (r, width)) (hbase : (s.regs r).prov = .frame) :
    -512 ≤ (L.offset (s.regs r) insn.off).toInt ∧
      (L.offset (s.regs r) insn.off).toInt + widthBytes width ≤ 0 := by
  obtain ⟨v, rfl, hv⟩ := h.explains hp h₀ hmix hrun hat
  have hchecked := hv.access hacc
  have herr := hchecked.error
  obtain ⟨ρ, hd⟩ := hv.describes
  obtain ⟨o, ht, hval⟩ :=
    ((hd.regs r).type.pointsTo (isPtr_of_accessError herr)).of_frame hbase
  rw [hval, L.offset_add]
  have hframe := hchecked.frame o ht
  split at hframe
  · exact frame_of_checkReadable hframe
  · have hbounds : StackState.checkBounds (o + v.insn.off) (widthBytes width) = true := by
      by_contra hnot
      simp [accessError, ht, hnot] at herr
    exact frame_of_checkBounds hbounds hframe

/-- A store to the frame and the load that reads it back. -/
def storesAndLoads : Program :=
  .ofInsns [.storeImm .dw .r10 (-8) 0, .load .dw .r0 .r10 (-8), .ret]

theorem access_in_frame_storesAndLoads :
    ∃ s, exec storesAndLoads .flat (fun _ => .quiet 0 false) (.fresh .flat) 1 = some s ∧
      -512 ≤ (Layout.flat.offset (s.regs .r10) (BpfInsn.off (.load .dw .r0 .r10 (-8)))).toInt ∧
      (Layout.flat.offset (s.regs .r10) (BpfInsn.off (.load .dw .r0 .r10 (-8)))).toInt
        + widthBytes .dw ≤ 0 := by
  obtain ⟨s, hs, hpc, hr10⟩ := exists_exec storesAndLoads (fun _ => .quiet 0 false) 1
    (fun s => s.pc = 1 ∧ (s.regs .r10).prov = .frame) (by decide +kernel)
  have hat : s.At storesAndLoads (.load .dw .r0 .r10 (-8)) := by rw [MState.At, hpc]; rfl
  exact ⟨s, hs, access_in_frame (by decide +kernel)
    (Program.precise_of_testAll (by decide +kernel)) (MState.entry_fresh _)
    (unmixedUntil_of_all (by decide)) hs hat
    (show BpfInsn.access (.load .dw .r0 .r10 (-8)) = some (.r10, .dw) from rfl) hr10⟩

/-- A store through r10 plus an unknown number, whose offset the verifier takes to be zero. -/
def strays : Program :=
  .ofInsns [
    .callHelper 7, .aluReg .mov .r2 .r10, .aluReg .add .r2 .r0, .storeImm .dw .r2 (-8) 0,
    .load .dw .r0 .r10 (-8), .ret]

/-- `strays` is accepted, and stores above the frame when the number is 1000. -/
theorem access_outside_frame_of_accepted :
    ¬ ∀ (p : Program) (L : Layout) (env : ℕ → Oracle) (s₀ s : MState) (n : ℕ) (insn : BpfInsn)
      (r : Reg) (width : MemWidth), p.Accepted → s₀.Entry L → exec p L env s₀ n = some s →
      s.At p insn → insn.access = some (r, width) → (s.regs r).prov = .frame →
      -512 ≤ (L.offset (s.regs r) insn.off).toInt ∧
        (L.offset (s.regs r) insn.off).toInt + widthBytes width ≤ 0 := by
  intro hall
  obtain ⟨s, hs, hpc, hr2⟩ := exists_exec strays (fun _ => .quiet 1000 false) 3
    (fun s => s.pc = 3 ∧ s.regs .r2 = ⟨Layout.flat.frameTop + 1000, .frame⟩) (by decide +kernel)
  have hin := hall strays .flat _ _ s 3 (.storeImm .dw .r2 (-8) 0) .r2 .dw (by decide +kernel)
    (MState.entry_fresh _) hs (by rw [MState.At, hpc]; rfl) rfl (by rw [hr2])
  rw [hr2] at hin
  exact absurd hin (by decide)

/-! ## The other objects -/

/-- The objects of a bounded size, other than the frame. -/
def Prov.hasSize : Prov → Bool
  | .mapValue _ | .ctx | .ringBuf .. => true
  | .number | .frame | .kernel | .data _ | .null _ => false

/-- The size of an object: for a reservation, the value r2 held where the verifier knew it. -/
def Program.ObjectSize (p : Program) : Prov → ℕ → Prop
  | .mapValue _, size => size = 65536
  | .ctx, size => size = 4096
  | .ringBuf _ pc reserved, size => ∃ v, p.Visits v ∧ v.pc = pc ∧
      match (v.state.get .r2).tnum.knownValue with
      | some x => reserved = x ∧ size = reserved.toNat
      | none => size = 65536
  | _, _ => False

/-- The offset and the size an access through a pointer is checked against. -/
def RegType.region : RegType → Option (BitVec 64 × BitVec 64)
  | mapValuePtr _ o size _ | ringBufPtr _ o size _ => some (o, size.setWidth 64)
  | ctxPtr o => some (o, CTX_SIZE)
  | _ => none

/-- An access that has been checked lies in its region. -/
theorem AccessChecked.in_region {pc : ℕ} {state : VerifierState} {stack : StackState}
    (h : AccessChecked p pc insn state stack r width) {o size : BitVec 64}
    (hr : (state.get r).regType.region = some (o, size)) :
    0 ≤ (o + insn.off).toInt ∧ (o + insn.off).toInt + widthBytes width ≤ size.toInt := by
  have herr := h.error
  have hex := h.region
  have hchecked : regionOk (o + insn.off) (widthBytes width) size = true ∧
      noWrap (o + insn.off) (widthBytes width) = true := by
    unfold accessError at herr
    unfold regionPrecise at hex
    unfold RegType.region at hr
    cases ht : (state.get r).regType with
    | mapValuePtr id o' size' pc' =>
      simp only [ht, Option.some.injEq, Prod.mk.injEq, ite_eq_left_iff, reduceCtorEq, imp_false,
        Decidable.not_not] at hr herr hex
      exact ⟨hr.1 ▸ hr.2 ▸ herr, hr.1 ▸ hex⟩
    | ringBufPtr id o' size' pc' =>
      simp only [ht, Option.some.injEq, Prod.mk.injEq, ite_eq_left_iff, reduceCtorEq, imp_false,
        Decidable.not_not] at hr herr hex
      exact ⟨hr.1 ▸ hr.2 ▸ herr, hr.1 ▸ hex⟩
    | ctxPtr o' =>
      simp only [ht, Option.some.injEq, Prod.mk.injEq, ite_eq_left_iff, reduceCtorEq, imp_false,
        Decidable.not_not] at hr herr hex
      exact ⟨hr.1 ▸ hr.2 ▸ herr, hr.1 ▸ hex⟩
    | _ => simp [ht] at hr
  obtain ⟨hok, hwrap⟩ := hchecked
  have hend := toInt_add_of_noWrap hwrap
  simp only [regionOk, Bool.and_eq_true, Bool.not_eq_true', BitVec.slt_eq_decide,
    decide_eq_false_iff_not, BitVec.sle_eq_decide, decide_eq_true_eq,
    show BitVec.toInt (0 : BitVec 64) = 0 from rfl] at hok
  omega

/-- A 32-bit size is what it reads as. -/
theorem toInt_setWidth_size (size : BitVec 32) : (size.setWidth 64).toInt = size.toNat := by
  rw [Word.toInt_eq_of_lt, BitVec.toNat_setWidth]
  · omega
  · rw [BitVec.toNat_setWidth]
    omega

/-- The size recorded for a reservation is at most its own. -/
theorem Program.Sized.objectSize {pc : ℕ} {size : BitVec 32} {reserved : BitVec 64}
    (h : p.Sized pc size reserved) (call : ℕ) :
    ∃ m, p.ObjectSize (.ringBuf call pc reserved) m ∧ size.toNat ≤ m := by
  obtain ⟨v, hv, hpc, rfl, hknown⟩ := h
  unfold reserveSize
  cases hk : (v.state.get .r2).tnum.knownValue with
  | none => exact ⟨65536, ⟨v, hv, hpc, by rw [hk]⟩, by decide⟩
  | some x =>
    obtain rfl := hknown x hk
    refine ⟨reserved.toNat, ⟨v, hv, hpc, by rw [hk]; exact ⟨rfl, rfl⟩⟩, ?_⟩
    simp only [Option.map_some, Option.getD_some, BitVec.toNat_setWidth]
    exact Nat.mod_le _ _

/-- **A pointer to an object of bounded size is typed with a region inside it.** -/
theorem PointsTo.region {t : RegType} {v : Val} (h : PointsTo L p.Sized t v)
    (hv : v.prov.hasSize = true) :
    ∃ o size m, t.region = some (o, size) ∧ v.bits = L.base v.prov + o ∧
      p.ObjectSize v.prov m ∧ size.toInt ≤ m := by
  cases h with
  | ctx o => exact ⟨o, CTX_SIZE, 4096, rfl, rfl, rfl, by decide⟩
  | mapValue id pc call o => exact ⟨o, _, 65536, rfl, rfl, rfl, by decide⟩
  | ringBuf id pc call o hsize =>
    obtain ⟨m, hm, hle⟩ := hsize.objectSize call
    refine ⟨o, _, m, rfl, rfl, hm, ?_⟩
    rw [toInt_setWidth_size]
    exact_mod_cast hle
  | kernel hk => rcases hk with hk | hk <;> simp [hk, Prov.hasSize] at hv
  | _ => cases hv

/-- **Every executed access through a pointer to the context, a map value or a reservation stays
inside it.** -/
theorem access_in_object (h : p.Accepted) (hp : p.Precise) (h₀ : s₀.Entry L)
    (hmix : UnmixedUntil p L env s₀ n) (hrun : exec p L env s₀ n = some s) (hat : s.At p insn)
    (hacc : insn.access = some (r, width)) (hbase : (s.regs r).prov.hasSize = true) :
    ∃ size, p.ObjectSize (s.regs r).prov size ∧ 0 ≤ (L.offset (s.regs r) insn.off).toInt ∧
      (L.offset (s.regs r) insn.off).toInt + widthBytes width ≤ size := by
  obtain ⟨v, rfl, hv⟩ := h.explains hp h₀ hmix hrun hat
  have hchecked := hv.access hacc
  obtain ⟨ρ, hd⟩ := hv.describes
  obtain ⟨o, size, m, hregion, hbits, hm, hle⟩ :=
    ((hd.regs r).type.pointsTo (isPtr_of_accessError hchecked.error)).region hbase
  have hoff : L.offset (s.regs r) v.insn.off = o + v.insn.off := by
    rw [← L.offset_add (s.regs r).prov o v.insn.off, ← hbits]
  obtain ⟨hlo, hhi⟩ := hchecked.in_region hregion
  rw [hoff]
  exact ⟨m, hm, hlo, by omega⟩

theorem access_in_object_checkedLookup :
    ∃ s, exec checkedLookup .flat (fun _ => .quiet 0 false) (.fresh .flat) 6 = some s ∧
      ∃ size, checkedLookup.ObjectSize (s.regs .r0).prov size ∧
        0 ≤ (Layout.flat.offset (s.regs .r0) (BpfInsn.off (.load .w .r0 .r0 0))).toInt ∧
        (Layout.flat.offset (s.regs .r0) (BpfInsn.off (.load .w .r0 .r0 0))).toInt
          + widthBytes .w ≤ size := by
  obtain ⟨s, hs, hpc, hr0⟩ := exists_exec checkedLookup (fun _ => .quiet 0 false) 6
    (fun s => s.pc = 6 ∧ (s.regs .r0).prov = .mapValue 0) (by decide +kernel)
  have hat : s.At checkedLookup (.load .w .r0 .r0 0) := by rw [MState.At, hpc]; rfl
  exact ⟨s, hs, access_in_object (by decide +kernel)
    (Program.precise_of_testAll (by decide +kernel)) (MState.entry_fresh _)
    (unmixedUntil_of_all (by decide)) hs hat
    (show BpfInsn.access (.load .w .r0 .r0 0) = some (.r0, .w) from rfl) (by rw [hr0]; rfl)⟩

/-- A load through the context pointer plus an unknown number. -/
def readsFar : Program :=
  .ofInsns [
    .aluReg .mov .r6 .r1, .callHelper 7, .aluReg .add .r6 .r0, .load .w .r0 .r6 0, .ret]

/-- `readsFar` is accepted, and reads past the context when the number is large. -/
theorem access_outside_object_of_accepted :
    ¬ ∀ (p : Program) (L : Layout) (env : ℕ → Oracle) (s₀ s : MState) (n : ℕ) (insn : BpfInsn)
      (r : Reg) (width : MemWidth), p.Accepted → s₀.Entry L → exec p L env s₀ n = some s →
      s.At p insn → insn.access = some (r, width) → (s.regs r).prov.hasSize = true →
      ∃ size, p.ObjectSize (s.regs r).prov size ∧ 0 ≤ (L.offset (s.regs r) insn.off).toInt ∧
        (L.offset (s.regs r) insn.off).toInt + widthBytes width ≤ size := by
  intro hall
  obtain ⟨s, hs, hpc, hr6⟩ := exists_exec readsFar (fun _ => .quiet 0x100000 false) 3
    (fun s => s.pc = 3 ∧ s.regs .r6 = ⟨Layout.flat.ctxBase + 0x100000, .ctx⟩) (by decide +kernel)
  obtain ⟨size, hsize, -, hin⟩ := hall readsFar .flat _ _ s 3 (.load .w .r0 .r6 0) .r6 .w
    (by decide +kernel) (MState.entry_fresh _) hs (by rw [MState.At, hpc]; rfl) rfl
    (by rw [hr6]; rfl)
  rw [hr6] at hsize hin
  obtain rfl : size = 4096 := hsize
  exact absurd hin (by decide)

/-! ## Initialisation -/

/-- **Every byte that an executed load reads from the frame has been written.** -/
theorem load_written (h : p.Accepted) (hp : p.Precise) (h₀ : s₀.Entry L)
    (hmix : UnmixedUntil p L env s₀ n) (hrun : exec p L env s₀ n = some s) (hat : s.At p insn)
    (hop : insn.opcode = .ldx width) (hbase : (s.regs insn.src).prov = .frame) :
    ∀ i < widthBytes width,
      s.written (L.offset (s.regs insn.src) insn.off + BitVec.ofNat 64 i) = true := by
  obtain ⟨v, rfl, hv⟩ := h.explains hp h₀ hmix hrun hat
  have hacc : v.insn.access = some (v.insn.src, width) := by simp [BpfInsn.access, hop]
  have hchecked := hv.access hacc
  obtain ⟨ρ, hd⟩ := hv.describes
  obtain ⟨o, ht, hval⟩ :=
    ((hd.regs v.insn.src).type.pointsTo (isPtr_of_accessError hchecked.error)).of_frame hbase
  rw [hval, L.offset_add]
  have hframe := hchecked.frame o ht
  rw [if_pos (by simp [BpfInsn.isLoad, hop]), StackState.checkReadable_iff] at hframe
  intro i hi
  obtain ⟨j, hj, hinit⟩ := hframe i hi
  exact hd.init _ j hj hinit

theorem load_written_storesAndLoads :
    ∃ s, exec storesAndLoads .flat (fun _ => .quiet 0 false) (.fresh .flat) 1 = some s ∧
      ∀ i < widthBytes .dw,
        s.written (Layout.flat.offset (s.regs .r10) (BpfInsn.off (.load .dw .r0 .r10 (-8)))
          + BitVec.ofNat 64 i) = true := by
  obtain ⟨s, hs, hpc, hr10⟩ := exists_exec storesAndLoads (fun _ => .quiet 0 false) 1
    (fun s => s.pc = 1 ∧ (s.regs .r10).prov = .frame) (by decide +kernel)
  have hat : s.At storesAndLoads (.load .dw .r0 .r10 (-8)) := by rw [MState.At, hpc]; rfl
  have hop : BpfInsn.opcode (.load .dw .r0 .r10 (-8)) = .ldx .dw := rfl
  have hwritten := load_written (by decide +kernel)
    (Program.precise_of_testAll (by decide +kernel)) (MState.entry_fresh _)
    (unmixedUntil_of_all (by decide)) hs hat hop hr10
  exact ⟨s, hs, hwritten⟩

/-- `strays` is accepted; when the number is -8 its store misses the bytes that it reads. -/
theorem load_unwritten_of_accepted :
    ¬ ∀ (p : Program) (L : Layout) (env : ℕ → Oracle) (s₀ s : MState) (n : ℕ) (insn : BpfInsn)
      (width : MemWidth), p.Accepted → s₀.Entry L → exec p L env s₀ n = some s → s.At p insn →
      insn.opcode = .ldx width → (s.regs insn.src).prov = .frame →
      ∀ i < widthBytes width,
        s.written (L.offset (s.regs insn.src) insn.off + BitVec.ofNat 64 i) = true := by
  intro hall
  obtain ⟨s, hs, hpc, hr10, hunwritten⟩ := exists_exec strays (fun _ => .quiet (-8) false) 4
    (fun s => s.pc = 4 ∧ s.regs .r10 = ⟨Layout.flat.frameTop, .frame⟩ ∧ s.written (-8) = false)
    (by decide +kernel)
  have hwritten := hall strays .flat _ _ s 4 (.load .dw .r0 .r10 (-8)) .dw (by decide +kernel)
    (MState.entry_fresh _) hs (by rw [MState.At, hpc]; rfl) rfl
    (show (s.regs .r10).prov = .frame by rw [hr10]) 0 (by decide)
  have hoff : Layout.flat.offset (s.regs .r10) (BpfInsn.off (.load .dw .r0 .r10 (-8)))
      + BitVec.ofNat 64 0 = -8 := by
    rw [hr10]
    decide
  rw [show BpfInsn.src (.load .dw .r0 .r10 (-8)) = .r10 from rfl, hoff, hunwritten] at hwritten
  cases hwritten

/-! ## Helper buffers -/

/-- At a call that fills a buffer in the frame through r1, the largest size the verifier allows for
r2 fits. -/
def Visit.bufferInside (v : Visit) : Bool :=
  match v.insn.opcode, getHelper v.insn.imm, (v.state.get .r1).regType with
  | .call, some helper, .framePtr o =>
    helper.args[0]? ≠ some (some .ptrToMem) || (v.state.get .r2).umax = 0 ||
      (-512 ≤ o.toInt && o.toInt + (v.state.get .r2).umax.toNat ≤ 0)
  | _, _, _ => true

/-- **Every byte of the frame that a helper may write through r1 lies inside it.** -/
theorem buffer_in_frame (h : p.Accepted) (hp : p.Precise)
    (hbuf : ∀ v, p.Visits v → v.bufferInside = true) (h₀ : s₀.Entry L)
    (hmix : UnmixedUntil p L env s₀ n) (hrun : exec p L env s₀ n = some s) (hat : s.At p insn)
    {helper : HelperSpec} (hop : insn.opcode = .call) (hhelper : getHelper insn.imm = some helper)
    (hmem : helper.args[0]? = some (some .ptrToMem)) (hbase : (s.regs .r1).prov = .frame) :
    ∀ i < (s.regs .r2).bits.toNat,
      -512 ≤ (L.offset (s.regs .r1) (BitVec.ofNat 64 i)).toInt ∧
        (L.offset (s.regs .r1) (BitVec.ofNat 64 i)).toInt < 0 := by
  obtain ⟨v, rfl, hv⟩ := h.explains hp h₀ hmix hrun hat
  obtain ⟨ρ, hd⟩ := hv.describes
  have hargs := hv.accepts.args hop hhelper
  have hptr := isPtr_of_accepts_ptrToMem (accepts_of_checkArgs hargs (i := 0) rfl hmem)
  obtain ⟨o, ht, hval⟩ := ((hd.regs .r1).type.pointsTo hptr).of_frame hbase
  have hsize := ((hd.regs .r2).allows (hv.visits.wf.regs .r2)).umax
  have hfits := hbuf v hv.visits
  simp only [Visit.bufferInside, hop, hhelper, ht, hmem, ne_eq, not_true_eq_false, decide_false,
    Bool.false_or, Bool.or_eq_true, Bool.and_eq_true, decide_eq_true_eq] at hfits
  intro i hi
  rw [hval, L.offset_add]
  rcases hfits with hzero | ⟨hlo, hhi⟩
  · rw [hzero] at hsize
    exact absurd hi (Nat.not_lt.mpr (Nat.le_trans hsize (Nat.zero_le i)))
  · rw [toInt_add_of_frame hlo (by omega) (by omega)]
    omega

/-- Eight bytes read into the frame. -/
def probes : Program :=
  .ofInsns [
    .aluReg .mov .r1 .r10, .aluImm .add .r1 (-8), .aluImm .mov .r2 8, .aluImm .mov .r3 0,
    .callHelper 4, .aluImm .mov .r0 0, .ret]

theorem buffer_in_frame_probes :
    ∃ s, exec probes .flat (fun _ => .quiet 0 false) (.fresh .flat) 4 = some s ∧
      ∀ i < (s.regs .r2).bits.toNat,
        -512 ≤ (Layout.flat.offset (s.regs .r1) (BitVec.ofNat 64 i)).toInt ∧
          (Layout.flat.offset (s.regs .r1) (BitVec.ofNat 64 i)).toInt < 0 := by
  obtain ⟨s, hs, hpc, hr1⟩ := exists_exec probes (fun _ => .quiet 0 false) 4
    (fun s => s.pc = 4 ∧ (s.regs .r1).prov = .frame) (by decide +kernel)
  have hat : s.At probes (.callHelper 4) := by rw [MState.At, hpc]; rfl
  have hhelper : getHelper (BpfInsn.imm (.callHelper 4)) = some ⟨4, "PROBE_READ", .errorCode,
      [some .ptrToMem, some .size, some .scalar, none, none]⟩ := by decide
  exact ⟨s, hs, buffer_in_frame (by decide +kernel)
    (Program.precise_of_testAll (by decide +kernel))
    (Program.forall_visits (by decide +kernel)) (MState.entry_fresh _)
    (unmixedUntil_of_all (by decide)) hs hat rfl hhelper rfl hr1⟩

/-- Sixteen bytes read into the last eight of the frame. -/
def overflows : Program :=
  .ofInsns [
    .aluReg .mov .r1 .r10, .aluImm .add .r1 (-8), .aluImm .mov .r2 16, .aluImm .mov .r3 0,
    .callHelper 4, .aluImm .mov .r0 0, .ret]

/-- `overflows` is accepted, and its buffer ends above the frame. -/
theorem buffer_outside_frame_of_accepted :
    ¬ ∀ (p : Program) (L : Layout) (env : ℕ → Oracle) (s₀ s : MState) (n : ℕ) (insn : BpfInsn)
      (helper : HelperSpec), p.Accepted → s₀.Entry L → exec p L env s₀ n = some s → s.At p insn →
      insn.opcode = .call → getHelper insn.imm = some helper →
      helper.args[0]? = some (some .ptrToMem) → helper.args[1]? = some (some .size) →
      (s.regs .r1).prov = .frame → ∀ i < (s.regs .r2).bits.toNat,
        -512 ≤ (L.offset (s.regs .r1) (BitVec.ofNat 64 i)).toInt ∧
          (L.offset (s.regs .r1) (BitVec.ofNat 64 i)).toInt < 0 := by
  intro hall
  obtain ⟨s, hs, hpc, hr1, hr2⟩ := exists_exec overflows (fun _ => .quiet 0 false) 4
    (fun s => s.pc = 4 ∧ s.regs .r1 = ⟨Layout.flat.frameTop - 8, .frame⟩ ∧
      (s.regs .r2).bits = 16) (by decide +kernel)
  have hhelper : getHelper (BpfInsn.imm (.callHelper 4)) = some ⟨4, "PROBE_READ", .errorCode,
      [some .ptrToMem, some .size, some .scalar, none, none]⟩ := by decide
  have hin := hall overflows .flat _ _ s 4 (.callHelper 4) _ (by decide +kernel)
    (MState.entry_fresh _) hs (by rw [MState.At, hpc]; rfl) rfl hhelper rfl rfl (by rw [hr1]) 8
    (by rw [hr2]; decide)
  rw [hr1] at hin
  exact absurd hin (by decide)

end BpfVerifier
