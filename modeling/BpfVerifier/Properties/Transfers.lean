import BpfVerifier.Kverify.Accepts
import BpfVerifier.Soundness.Results

/-!
# Properties/Transfers — which values the ALU transfer functions keep

`refine_bounds` is exact: it keeps the set of values a register describes (`refineBounds_exact`).
The result of a 64-bit operation on scalars describes the machine's exactly when bit 63 is known and
a subtraction kept the bits it recorded (`checkAlu64_describes_iff`).  The result of a 32-bit
operation does when no pointer is moved, a move finds the low half within the bounds it keeps, and
the 64-bit result truncates to the 32-bit one (`checkAlu32_describes_iff`).
-/

namespace BpfVerifier

open Word

variable {state state' : VerifierState} {insn : BpfInsn} {op : AluOp} {src : Source} {pc : ℕ}
  {loc : Option SourceLoc} {d s : BitVec 64}

/-! ## `refine_bounds` -/

/-- **`refine_bounds` loses no value, and lets none in** where some value is described.  A tnum that
is not well formed describes none (`Tnum.Has.wf`). -/
theorem refineBounds_exact (r : RegState) :
    (∀ x, r.Admits x → r.refineBounds.Admits x) ∧
      ((∃ x, r.Admits x) → ∀ x, r.refineBounds.Admits x ↔ r.Admits x) :=
  ⟨fun _ h => h.refineBounds, fun ⟨_, hx⟩ _ => ⟨hx.of_refineBounds, fun h => h.refineBounds⟩⟩

/-! ## The operands -/

/-- A scalar register describes a word. -/
structure RegState.IsWord (r : RegState) (x : BitVec 64) : Prop where
  type : r.regType = .scalar
  admits : r.Admits x

instance (r : RegState) (x : BitVec 64) : Decidable (r.IsWord x) :=
  decidable_of_iff (r.regType = .scalar ∧ r.Admits x)
    ⟨fun ⟨h₁, h₂⟩ => ⟨h₁, h₂⟩, fun h => ⟨h.type, h.admits⟩⟩

/-- Where a register was written is no matter. -/
theorem admits_at_iff {r : RegState} {x : BitVec 64} : (r.at_ pc).Admits x ↔ r.Admits x :=
  ⟨fun h => ⟨h.tnum, h.umin, h.umax, h.smin, h.smax⟩,
    fun h => ⟨h.tnum, h.umin, h.umax, h.smin, h.smax⟩⟩

theorem isWord_at_iff {r : RegState} {x : BitVec 64} : (r.at_ pc).IsWord x ↔ r.IsWord x :=
  ⟨fun h => ⟨h.type, admits_at_iff.mp h.admits⟩, fun h => ⟨h.type, admits_at_iff.mpr h.admits⟩⟩

theorem get_setAt_self (state : VerifierState) (r : Reg) (v : RegState) (pc : ℕ) :
    (state.setAt r v pc).get r = v.at_ pc := VerifierState.get_set_self state r _

/-- A described shift amount is legal. -/
theorem RegState.Admits.toNat_le {is64 : Bool} (h : (aluSrcState state insn src is64).Admits s)
    (hshift : shiftOverflow state insn src is64 = none) : s.toNat ≤ (maxShift is64).toNat :=
  Nat.le_trans h.umax (umax_operand_le hshift)

/-- A described divisor is not zero. -/
theorem RegState.Admits.ne_zero {is64 : Bool} (h : (aluSrcState state insn src is64).Admits s)
    (hdiv : divByZero state insn src = none) : s ≠ 0 := by
  rintro rfl
  exact umin_operand_ne_zero hdiv (BitVec.eq_of_toNat_eq (Nat.le_zero.mp h.umin))

/-! ## 64-bit operations -/

/-- **The result of a 64-bit operation is tracked**: bit 63 is known, and a difference has the bits
that are recorded of it. -/
def Tracked64 (op : AluOp) (dst src : Tnum) (d s : BitVec 64) : Prop :=
  signKnown op dst src = true ∧ (op = .sub → dst.SubAgrees src d s (BitVec.allOnes 64))

instance (op : AluOp) (dst src : Tnum) (d s : BitVec 64) : Decidable (Tracked64 op dst src d s) :=
  inferInstanceAs (Decidable (_ ∧ _))

/-- The result of known operands is tracked. -/
theorem tracked64_of_isKnown {dst src : Tnum} (hd : dst.Has d) (hs : src.Has s)
    (hkd : dst.isKnown = true) (hks : src.isKnown = true) : Tracked64 op dst src d s := by
  have hmd : dst.mask = 0 := by simpa [Tnum.isKnown] using hkd
  have hms : src.mask = 0 := by simpa [Tnum.isKnown] using hks
  refine ⟨?_, fun _ => by rw [Tnum.SubAgrees, hd.eq_of_isKnown hkd, hs.eq_of_isKnown hks]⟩
  have hd₀ : dst.maxValue = dst.minValue := by simp [Tnum.maxValue, Tnum.minValue, hmd]
  have hs₀ : src.maxValue = src.minValue := by simp [Tnum.maxValue, Tnum.minValue, hms]
  cases op with
  | and => simp only [signKnown, hd₀, hs₀, Bool.or_not_self]
  | _ => simp [signKnown, hd₀, hs₀, Tnum.openBits, hmd, hms, hkd, hks]

/-- **A 64-bit ALU instruction describes its result** exactly when the result is tracked. -/
theorem checkAlu64_describes_iff (hd : (state.get insn.dst).IsWord d)
    (hs : (aluSrcState state insn src true).IsWord s)
    (h : checkAlu state insn op src true pc loc = .ok state') :
    (state'.get insn.dst).IsWord (aluBits true op d s) ↔
      Tracked64 op (state.get insn.dst).tnum (aluSrcState state insn src true).tnum d s := by
  obtain ⟨r, hr, rfl⟩ := checkAlu_eq_ok h
  rw [get_setAt_self, isWord_at_iff]
  cases hr with
  | mov hmov =>
    subst hmov
    have hmov : movState (aluSrcState state insn src true) src true
        = aluSrcState state insn src true := by cases src <;> rfl
    rw [hmov]
    exact iff_of_true hs ⟨rfl, fun hsub => by cases hsub⟩
  | neg hneg _ =>
    subst hneg
    exact iff_of_true ⟨rfl, RegState.admits_unbounded .scalar _⟩ ⟨rfl, fun hsub => by cases hsub⟩
  | binary hmov hneg hdiv hshift hb =>
    cases hb with
    | distance hptr _ _ => simp [hd.type, RegType.isPtr] at hptr
    | shift hptr _ _ => simp [hd.type, RegType.isPtr] at hptr
    | swap _ hptr _ => simp [hs.type, RegType.isPtr] at hptr
    | scalar _ _ =>
      have htype : (scalarAlu (state.get insn.dst) (aluSrcState state insn src true) op
          true).regType = .scalar := RegState.regType_refineBounds _
      have hresult := admits_scalarAlu64_iff hd.admits.tnum hs.admits.tnum hmov hneg
        (fun hop => Nat.lt_succ_of_le (hs.admits.toNat_le (hshift hop)))
        (fun hop => hs.admits.ne_zero (hdiv hop))
      exact ⟨fun hw => hresult.mp hw.admits, fun ht => ⟨htype, hresult.mpr ht⟩⟩

/-- A loaded byte in r0. -/
def byteState : VerifierState :=
  VerifierState.entry.set .r0
    { regType := .scalar, tnum := ⟨0, 0xFF⟩, smin := 0, smax := 0xFF, umin := 0, umax := 0xFF,
      writtenAt := none }

/-- A byte plus one. -/
theorem checkAlu64_describes_byte :
    ∃ state', checkAlu byteState (.aluImm .add .r0 1) .add .imm true 0 none = .ok state' ∧
      (state'.get .r0).IsWord (41 + 1) := by
  have hd : (byteState.get (BpfInsn.aluImm .add .r0 1).dst).IsWord 41 := by decide
  have hs : (aluSrcState byteState (.aluImm .add .r0 1) .imm true).IsWord 1 := by decide
  have h : checkAlu byteState (.aluImm .add .r0 1) .add .imm true 0 none = .ok _ := rfl
  exact ⟨_, h, (checkAlu64_describes_iff hd hs h).mpr (by decide)⟩

/-- **Adding zero to an unknown scalar describes no value**: the signed bounds become zero and
minus one. -/
theorem not_checkAlu64_describes : ¬∀ (state state' : VerifierState) (insn : BpfInsn) (op : AluOp)
    (src : Source) (pc : ℕ) (loc : Option SourceLoc) (d s : BitVec 64),
    (state.get insn.dst).IsWord d → (aluSrcState state insn src true).IsWord s →
    checkAlu state insn op src true pc loc = .ok state' →
    (state'.get insn.dst).IsWord (aluBits true op d s) := by
  intro h
  have hword := h (VerifierState.entry.set .r0 .scalarUnknown) _ (.aluImm .add .r0 0) .add .imm 0
    none 0 0 (by decide) (by decide) rfl
  exact absurd hword (by decide)

/-! ## 32-bit operations -/

/-- A 32-bit register move finds the low half of the value within the bounds it keeps. -/
def LowWithin (r : RegState) (x : BitVec 64) : Prop :=
  r.umin.toNat ≤ (x &&& U32_MAX).toNat ∧ r.smin.toInt ≤ (x &&& U32_MAX).toInt ∧
    (x &&& U32_MAX).toInt ≤ r.smax.toInt

instance (r : RegState) (x : BitVec 64) : Decidable (LowWithin r x) :=
  inferInstanceAs (Decidable (_ ∧ _))

/-- **The result of a 32-bit operation is tracked.** -/
def Tracked32 (op : AluOp) (src : Source) (dst operand : RegState) (d s : BitVec 64) : Prop :=
  match op with
  | .mov => src = .reg → LowWithin operand s
  | .neg => True
  | _ =>
    if dst.regType.isPtr then operand.regType.isPtr = true
    else ¬(op = .add ∧ operand.regType.isPtr = true) ∧
      truncatesAlike op dst.tnum operand.tnum d s

instance (op : AluOp) (src : Source) (dst operand : RegState) (d s : BitVec 64) :
    Decidable (Tracked32 op src dst operand d s) := by
  unfold Tracked32
  split <;> infer_instance

/-- A moved low half is described when it is within the bounds kept. -/
theorem admits_mov32_iff {r : RegState} {x : BitVec 64} (h : r.Admits x) :
    (mov32 r).Admits (x &&& U32_MAX) ↔ LowWithin r x := by
  have hz : (x &&& U32_MAX).toNat = x.toNat % 2 ^ 32 := toNat_and_U32_MAX x
  have hU : U32_MAX.toNat = 2 ^ 32 - 1 := by decide
  have hUi : U32_MAX.toInt = 2 ^ 32 - 1 := by decide
  have h0 : BitVec.toInt (0 : BitVec 64) = 0 := rfl
  have hzi := toInt_eq_of_lt (x := x &&& U32_MAX) (by omega)
  have hhi := h.umax
  constructor
  · intro hm
    have hlo : r.umin.toNat ≤ _ := hm.umin
    have hsmin : (maxS r.smin 0).toInt ≤ _ := hm.smin
    have hsmax : _ ≤ (minS r.smax U32_MAX).toInt := hm.smax
    rw [toInt_maxS] at hsmin
    rw [toInt_minS] at hsmax
    exact ⟨hlo, by omega, by omega⟩
  · rintro ⟨hlo, hsmin, hsmax⟩
    refine ⟨h.tnum.trunc32, hlo, ?_, ?_, ?_⟩
    · change _ ≤ (minU r.umax U32_MAX).toNat
      rw [toNat_minU]
      omega
    · change (maxS r.smin 0).toInt ≤ _
      rw [toInt_maxS]
      omega
    · change _ ≤ (minS r.smax U32_MAX).toInt
      rw [toInt_minS]
      omega

/-- A moved pointer is a pointer. -/
theorem isPtr_shiftPtr {t : RegType} (h : t.isPtr = true) (delta : Option (BitVec 64)) :
    (shiftPtr t delta).isPtr = true := by
  cases t <;> cases delta <;> first | rfl | cases h

/-- **A 32-bit ALU instruction describes its result**, as a scalar, exactly when the result is
tracked. -/
theorem checkAlu32_describes_iff (hd : (state.get insn.dst).Admits d)
    (hs : (aluSrcState state insn src false).Admits s)
    (h : checkAlu state insn op src false pc loc = .ok state') :
    ((state'.get insn.dst).regType.isPtr = false ∧
        (state'.get insn.dst).Admits (aluBits false op d s)) ↔
      Tracked32 op src (state.get insn.dst) (aluSrcState state insn src false) d s := by
  obtain ⟨r, hr, rfl⟩ := checkAlu_eq_ok h
  rw [get_setAt_self, admits_at_iff]
  change r.regType.isPtr = false ∧ _ ↔ _
  cases hr with
  | mov hmov =>
    subst hmov
    have hbits : aluBits false .mov d s = s &&& U32_MAX := setWidth_setWidth_32 s
    rw [hbits]
    cases src with
    | imm =>
      -- the immediate has no upper half
      have hs' : s = insn.immU := Tnum.has_constant.mp hs.tnum
      have hlow : s &&& U32_MAX = s := by
        refine BitVec.eq_of_toNat_eq ((toNat_and_U32_MAX s).trans (Nat.mod_eq_of_lt ?_))
        rw [hs', toNat_immU]
        exact insn.imm.isLt
      rw [hlow]
      exact iff_of_true ⟨rfl, hs⟩ fun hsrc => by cases hsrc
    | reg =>
      change (mov32 _).regType.isPtr = false ∧ (mov32 _).Admits _ ↔ (_ → _)
      rw [admits_mov32_iff hs]
      simp [mov32, RegType.isPtr]
  | neg hneg _ =>
    subst hneg
    exact iff_of_true ⟨rfl, RegState.admits_unbounded .scalar _⟩ trivial
  | @binary r hmov hneg hdiv hshift hb =>
    have htracked : Tracked32 op src (state.get insn.dst) (aluSrcState state insn src false) d s ↔
        if (state.get insn.dst).regType.isPtr then
          (aluSrcState state insn src false).regType.isPtr = true
        else ¬(op = .add ∧ (aluSrcState state insn src false).regType.isPtr = true) ∧
          truncatesAlike op (state.get insn.dst).tnum (aluSrcState state insn src false).tnum
            d s := by
      unfold Tracked32
      split
      · exact absurd rfl hmov
      · exact absurd rfl hneg
      · rfl
    rw [htracked]
    cases hb with
    | distance hptr hptr' _ =>
      rw [if_pos hptr]
      exact iff_of_true ⟨rfl, RegState.admits_unbounded .scalar _⟩ hptr'
    | shift hptr hptr' _ =>
      rw [if_pos hptr, hptr']
      refine iff_of_false (fun hw => ?_) (by decide)
      have := hw.1.symm.trans (isPtr_shiftPtr hptr _)
      cases this
    | swap hptr hptr' hadd =>
      rw [if_neg (by simp [hptr])]
      refine iff_of_false (fun hw => ?_) fun ht => ht.1 ⟨hadd, hptr'⟩
      have := hw.1.symm.trans (isPtr_shiftPtr hptr' _)
      cases this
    | scalar hptr hswap =>
      have htype : (scalarAlu (state.get insn.dst) (aluSrcState state insn src false) op
          false).regType = .scalar := RegState.regType_refineBounds _
      rw [if_neg (by simp [hptr]), htype, admits_scalarAlu32_iff hd.tnum hs.tnum
        (fun hop => Nat.lt_succ_of_le (hs.toNat_le (hshift hop)))
        (fun hop => hs.ne_zero (hdiv hop))]
      exact ⟨fun hw => ⟨hswap, hw.2⟩, fun ht => ⟨rfl, ht.2⟩⟩

/-- `w0 += 1` -/
def lowPlusOne : BpfInsn := .plain (.alu32 .add .imm) .r0 .r0 0 1

theorem checkAlu32_describes_byte :
    ∃ state', checkAlu byteState lowPlusOne .add .imm false 0 none = .ok state' ∧
      (state'.get .r0).regType.isPtr = false ∧ (state'.get .r0).Admits (41 + 1) := by
  have hd : (byteState.get lowPlusOne.dst).Admits 41 := by decide
  have hs : (aluSrcState byteState lowPlusOne .imm false).Admits 1 := by decide
  have h : checkAlu byteState lowPlusOne .add .imm false 0 none = .ok _ := rfl
  exact ⟨_, h, (checkAlu32_describes_iff hd hs h).mpr (by decide)⟩

/-- **Shifting 2^32 right by one on 32 bits** is tracked as 2^31, and gives zero. -/
theorem not_checkAlu32_describes : ¬∀ (state state' : VerifierState) (insn : BpfInsn) (op : AluOp)
    (src : Source) (pc : ℕ) (loc : Option SourceLoc) (d s : BitVec 64),
    (state.get insn.dst).Admits d → (aluSrcState state insn src false).Admits s →
    checkAlu state insn op src false pc loc = .ok state' →
    (state'.get insn.dst).regType.isPtr = false ∧
      (state'.get insn.dst).Admits (aluBits false op d s) := by
  intro h
  have hlow := h (VerifierState.entry.set .r0 (.scalarValue 0x100000000)) _
    (.plain (.alu32 .rsh .imm) .r0 .r0 0 1) .rsh .imm 0 none 0x100000000 1
    (by decide) (by decide) rfl
  exact absurd hlow.2 (by decide)

end BpfVerifier
