import BpfVerifier.Kverify.Offsets
import BpfVerifier.Soundness.Invariant

/-!
# Properties/Offsets — when offset arithmetic stays in range

No offset arithmetic of a walk overflows exactly when the offsets and amounts each visit meets stay
clear of the ends of the `i64` range (`offsets_inRange_iff`).  The walk makes no more visits than
its limit, and each moves an offset once: if no known amount that moves a pointer exceeds 2^43 then
every offset the walk tracks is bounded by 2^43 for each visit made (`walkInvariant_within`), and
nothing overflows.
-/

namespace BpfVerifier

open Loop

/-- As many moves by this amount as a walk makes visits stay in the `i64` range. -/
def moveLimit : ℕ := 2 ^ 43

/-- The known amount by which the instruction moves a pointer, if it does, is at most
`moveLimit`. -/
def Visit.MovesLittle (v : Visit) : Prop :=
  match v.insn.opcode with
  | .alu64 op src => ∀ t x,
    movedBy (v.state.get v.insn.dst) (aluSrcState v.state v.insn src true) op = some (t, x) →
      x.toInt.natAbs ≤ moveLimit
  | .alu32 op src => ∀ t x,
    movedBy (v.state.get v.insn.dst) (aluSrcState v.state v.insn src false) op = some (t, x) →
      x.toInt.natAbs ≤ moveLimit
  | _ => True

/-- Every offset in a type is at most `K`. -/
def RegType.Within (K : ℕ) : RegType → Prop
  | .framePtr o | .ctxPtr o | .mapValuePtr _ o _ _ | .ringBufPtr _ o _ _ => o.toInt.natAbs ≤ K
  | .ptrOrNull inner _ _ => inner.Within K
  | .uninit | .scalar | .kernelPtr | .dataPtr _ | .null => True

section

variable {p : Program} {v : Visit} {K n : ℕ} {t : RegType} {delta : Option (BitVec 64)}
  {dst operand r : RegState} {op : AluOp} {src : Source} {is64 : Bool} {o x : BitVec 64}

/-! ## Bounded offsets -/

theorem RegType.Within.mono {K' : ℕ} (hle : K ≤ K') : ∀ {t : RegType}, t.Within K → t.Within K'
  | .framePtr _, h | .ctxPtr _, h | .mapValuePtr .., h | .ringBufPtr .., h => Nat.le_trans h hle
  | .ptrOrNull inner _ _, h => mono (t := inner) hle h
  | .uninit, _ | .scalar, _ | .kernelPtr, _ | .dataPtr _, _ | .null, _ => trivial

theorem RegType.Within.offset (h : t.Within K) (ho : t.offset = some o) :
    o.toInt.natAbs ≤ K := by
  cases t with
  | framePtr _ | ctxPtr _ | mapValuePtr _ _ _ _ | ringBufPtr _ _ _ _ =>
    obtain rfl := Option.some.inj ho
    exact h
  | _ => cases ho

/-- Moving a pointer adds the amount to the bound. -/
theorem within_shiftPtr (ht : t.Within K)
    (hdelta : ∀ d, delta = some d → d.toInt.natAbs ≤ moveLimit) (hK : K + moveLimit < 2 ^ 63) :
    (shiftPtr t delta).Within (K + moveLimit) := by
  have hmoved {o d : BitVec 64} (ho : o.toInt.natAbs ≤ K) (hd : d.toInt.natAbs ≤ moveLimit) :
      (o + d).toInt.natAbs ≤ K + moveLimit := by
    rw [Word.toInt_add_of_bounds (by omega) (by omega)]
    omega
  have hreset : (0 : BitVec 64).toInt.natAbs ≤ K + moveLimit := Nat.zero_le _
  unfold shiftPtr
  split
  · exact hmoved ht (hdelta _ rfl)
  · exact hmoved ht (hdelta _ rfl)
  · exact hmoved ht (hdelta _ rfl)
  · exact hmoved ht (hdelta _ rfl)
  · exact hreset
  · exact hreset
  · exact hreset
  · exact hreset
  · trivial
  · trivial
  · trivial

theorem within_callReturn (state : VerifierState) (ret : HelperReturn) (pc n : ℕ) :
    (callReturn state ret pc n).1.regType.Within K := by
  cases ret with
  | mapPtr | ringBufPtr => exact Nat.zero_le K
  | _ => trivial

theorem kept_within (n K : ℕ) : Kept fun r => r.Wf n ∧ r.regType.Within K where
  tnum h := h.1.tnum
  scalar hs hw := ⟨RegState.wf_of_scalar hs hw, by rw [hs]; trivial⟩
  uninit := ⟨RegState.wf_uninit, trivial⟩
  kernelPtr := ⟨RegState.wf_kernelPtr, trivial⟩
  dataPtr _ := ⟨RegState.wf_unbounded trivial, trivial⟩
  written pc h := ⟨h.1.at pc, h.2⟩
  resolved {q r inner pc id} hq ht hr := by
    have hwf := (kept_wf n).resolved hq.1 ht hr.1
    have hinner : inner.Within K := by
      have hwithin := hq.2
      rwa [ht] at hwithin
    have hresolved {t : RegType} (ht : t.Within K) : (refineWithId id t r).regType.Within K := by
      unfold refineWithId
      split
      · split
        · split
          · trivial
          · exact ht
        · exact hr.2
      · exact hr.2
    exact ⟨⟨hwf.1, hresolved trivial⟩, hwf.2, hresolved hinner⟩

/-- A moved pointer is one of the operands, moved by a known amount or reset. -/
theorem movedBy_of_moves (h : Moves dst operand op t delta) :
    (t = dst.regType ∨ t = operand.regType) ∧ ∀ d, delta = some d →
      ∃ x, movedBy dst operand op = some (t, x) ∧ (d = x ∨ d = -x) := by
  cases h with
  | shift hd hs hop =>
    refine ⟨Or.inl rfl, fun d heq => ?_⟩
    obtain ⟨x, hx, rfl⟩ := Option.map_eq_some_iff.mp heq
    refine ⟨x, by simp [movedBy, hd, hs, hop, hx], ?_⟩
    split
    · exact Or.inl rfl
    · exact Or.inr rfl
  | swap hd hs hop =>
    exact ⟨Or.inr rfl, fun d heq => ⟨d, by simp [movedBy, hd, hs, hop, heq], Or.inl rfl⟩⟩

/-- What moves little moves by little in either direction. -/
theorem Visit.MovesLittle.movedBy_le (h : v.MovesLittle)
    (hop : v.insn.opcode = if is64 then .alu64 op src else .alu32 op src)
    (hx : movedBy (v.state.get v.insn.dst) (aluSrcState v.state v.insn src is64) op
      = some (t, x)) : x.toInt.natAbs ≤ moveLimit := by
  unfold Visit.MovesLittle at h
  cases is64 with
  | true =>
    rw [if_pos rfl] at hop
    rw [hop] at h
    exact h t x hx
  | false =>
    rw [if_neg Bool.false_ne_true] at hop
    rw [hop] at h
    exact h t x hx

theorem natAbs_toInt_neg_le (hx : x.toInt.natAbs ≤ moveLimit) :
    (-x).toInt.natAbs ≤ moveLimit := by
  have hmove : moveLimit = 2 ^ 43 := rfl
  have hne : x ≠ I64_MIN := inI64_neg_iff.mp ⟨by omega, by omega⟩
  rw [toInt_neg_of_ne hne]
  omega

/-- The second operand of an ALU instruction is bounded as the registers are. -/
theorem within_operand {state : VerifierState} {insn : BpfInsn}
    (h : ∀ r, (state.get r).regType.Within K) :
    (aluSrcState state insn src is64).regType.Within K := by
  cases src with
  | imm => trivial
  | reg => exact h insn.src

/-- **After `k` visits every offset is at most `k` moves away from zero.** -/
theorem walkInvariant_within (hp : ∀ v, p.Visits v → v.MovesLittle) :
    WalkInvariant p fun k n r => r.Wf n ∧ r.regType.Within (k * moveLimit) where
  kept k n := kept_within n _
  mono hk hn h := ⟨h.1.mono hn, h.2.mono (Nat.mul_le_mul_right _ hk)⟩
  ctx := ⟨RegState.wf_unbounded (t := .ctxPtr 0) trivial, Nat.zero_le _⟩
  frame := ⟨RegState.wf_unbounded (t := .framePtr 0) trivial, Nat.zero_le _⟩
  alu {k v} hv hk h op src is64 r hop hr := by
    have hlimit : k * moveLimit + moveLimit < 2 ^ 63 := by
      simp only [COMPLEXITY_LIMIT, moveLimit] at hk ⊢
      omega
    have hnext : Everywhere (fun r => r.Wf v.idGen ∧ r.regType.Within (k * moveLimit + moveLimit))
        v.state v.stack := h.imp fun r hr => ⟨hr.1, hr.2.mono (Nat.le_add_right _ _)⟩
    rw [Nat.succ_mul]
    refine hnext.aluResult (kept_within _ _) hr fun t delta hm => ?_
    obtain ⟨ht, hdelta⟩ := movedBy_of_moves hm
    refine ⟨RegState.wf_unbounded (idsBelow_shiftPtr _ t delta),
      within_shiftPtr ?_ (fun d hd => ?_) hlimit⟩
    · rcases ht with rfl | rfl
      · exact (h.regs _).2
      · exact within_operand fun r => (h.regs r).2
    · obtain ⟨x, hx, rfl | rfl⟩ := hdelta d hd
      · exact (hp v hv).movedBy_le hop hx
      · exact natAbs_toInt_neg_le ((hp v hv).movedBy_le hop hx)
  call k n state ret pc := ⟨wf_callReturn n state ret pc, within_callReturn state ret pc n⟩

/-! ## Bounded operands fit -/

/-- How far from zero the offsets of a walk that moves little can be. -/
theorem lt_of_visits {k : ℕ} (hk : k < COMPLEXITY_LIMIT) :
    k * moveLimit + moveLimit + 2 ^ 16 < 2 ^ 63 := by
  simp only [COMPLEXITY_LIMIT, moveLimit] at hk ⊢
  omega

theorem aluFits_of_within (hK : K + moveLimit < 2 ^ 63) (hdst : dst.regType.Within K)
    (hoperand : operand.regType.Within K)
    (hx : ∀ t x, movedBy dst operand op = some (t, x) → x.toInt.natAbs ≤ moveLimit) :
    AluFits dst operand op := by
  intro t x hmoved
  have hle := hx t x hmoved
  have hmove : moveLimit = 2 ^ 43 := rfl
  have ht : t.Within K := by
    unfold movedBy at hmoved
    split at hmoved
    · split at hmoved
      · obtain ⟨_, -, heq⟩ := Option.map_eq_some_iff.mp hmoved
        exact (Prod.mk.inj heq).1 ▸ hdst
      · cases hmoved
    · split at hmoved
      · obtain ⟨_, -, heq⟩ := Option.map_eq_some_iff.mp hmoved
        exact (Prod.mk.inj heq).1 ▸ hoperand
      · cases hmoved
  split
  · refine ⟨inI64_neg_iff.mp ⟨by omega, by omega⟩, fun o ho => ?_⟩
    have := ht.offset ho
    exact ⟨by omega, by omega⟩
  · intro o ho
    have := ht.offset ho
    exact ⟨by omega, by omega⟩

theorem accessFits_of_within {base : RegState} {width : MemWidth} {insn : BpfInsn}
    (hK : K + 2 ^ 16 < 2 ^ 63) (hbase : base.regType.Within K) :
    AccessFits base insn.off (widthBytes width) := by
  intro o ho
  have hle := hbase.offset ho
  have hwidth := widthBytes_le width
  have hoff : insn.off.toInt = insn.offset.toInt := BitVec.toInt_signExtend_of_le (by decide)
  have hlo := BitVec.le_toInt (x := insn.offset)
  have hhi := BitVec.toInt_lt (x := insn.offset)
  refine ⟨by omega, ?_⟩
  split <;> omega

theorem writeFits_of_within {state : VerifierState} {helper : HelperSpec}
    (hK : K + 2 ^ 16 < 2 ^ 63) (hr1 : (state.get .r1).regType.Within K) :
    WriteFits state helper := by
  intro o ho _ _
  rw [ho] at hr1
  have hle : o.toInt.natAbs ≤ K := hr1
  have hsize : writeSize (state.get .r2) < 256 := Nat.mod_lt _ (by decide)
  omega

/-- **A walk that moves pointers by little meets offsets that fit.** -/
theorem offsetsFit_of_movesLittle (hp : ∀ v, p.Visits v → v.MovesLittle) (hv : p.Visits v) :
    v.OffsetsFit p := by
  obtain ⟨k, hk, h⟩ := (walkInvariant_within hp).of_visits hv
  have hlt := lt_of_visits hk
  have hregs (r : Reg) : (v.state.get r).regType.Within (k * moveLimit) := (h.regs r).2
  have hmoves := hp v hv
  unfold Visit.MovesLittle at hmoves
  unfold Visit.OffsetsFit
  split
  · next op src hop =>
    rw [hop] at hmoves
    exact fun _ => aluFits_of_within (by omega) (hregs _) (within_operand hregs) hmoves
  · next op src hop =>
    rw [hop] at hmoves
    exact fun _ => aluFits_of_within (by omega) (hregs _) (within_operand hregs) hmoves
  · exact fun _ => accessFits_of_within (by omega) (hregs _)
  · exact fun _ _ => accessFits_of_within (by omega) (hregs _)
  · exact fun _ => accessFits_of_within (by omega) (hregs _)
  · exact fun _ _ _ => writeFits_of_within (by omega) (hregs _)
  · trivial

end

/-- **Offset arithmetic stays in range** exactly when the operands of every visit fit, and does so
whenever no visit moves a pointer by a known amount of more than 2^43. -/
theorem offsets_inRange_iff (p : Program) :
    (p.OffsetsInRange ↔ ∀ v, p.Visits v → v.OffsetsFit p) ∧
      ((∀ v, p.Visits v → v.MovesLittle) → p.OffsetsInRange) :=
  ⟨p.offsetsInRange_iff, fun hp => p.offsetsInRange_iff.mpr fun _ hv =>
    offsetsFit_of_movesLittle hp hv⟩

/-- `r2 = 2^63 - 1; r1 += r2; r1 += 1; exit` -/
def leaveRange : Program := .ofInsns [
  ⟨.ldImm64, .r2, .r0, 0, 0, some 0x7FFFFFFFFFFFFFFF⟩,
  ⟨.alu64 .add .reg, .r1, .r2, 0, 0, none⟩,
  ⟨.alu64 .add .imm, .r1, .r0, 0, 1, none⟩,
  ⟨.exit, .r0, .r0, 0, 0, none⟩]

/-- **The context pointer is moved out of the range**: the second addition overflows. -/
theorem not_offsetsInRange : ¬∀ p : Program, p.OffsetsInRange := by
  intro hall
  have hvisit : leaveRange.Visits _ :=
    ⟨_, .next (.next .start rfl) rfl, rfl⟩
  exact absurd (hall leaveRange _ hvisit (2 ^ 63) (by decide)) (by decide)

end BpfVerifier
