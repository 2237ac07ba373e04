import BpfVerifier.Concrete.Machine
import BpfVerifier.Properties.Operations
import BpfVerifier.Properties.Stores
import BpfVerifier.Soundness.Memory

/-!
# Properties/Represents — the machine states an F* state stands for

A register of the F* layer holding a number stands for any value with those bits, a pointer for its
address and provenance (`Denotes`).  The slots of its stack stand for the bytes of the frame, where
one of them covers a byte (`Represents`).  The two layers' operations, comparisons and frame
accesses agree.
-/

namespace BpfVerifier.Fstar

/-! ## Values -/

/-- **The values a register's content stands for.**  `ρ` gives the call a pointer with an id below
`ids` came from. -/
def Denotes (L : Layout) (ρ : ℕ → ℕ) (ids : ℕ) : RegVal → Val → Prop
  | .scalar n, x => x.bits = n
  | .framePtr off, x => x = ⟨L.frameTop + BitVec.ofInt 64 off, .frame⟩
  | .ctxPtr off, x => x = ⟨L.ctxBase + BitVec.ofInt 64 off, .ctx⟩
  | .mapValuePtr id, x => id < ids ∧ x = ⟨L.mapBase (ρ id), .mapValue (ρ id)⟩
  | .ringBufPtr id, x =>
    id < ids ∧ ∃ pc reserved, x = ⟨L.ringBase (ρ id), .ringBuf (ρ id) pc reserved⟩
  | .null, x => x.bits = 0

/-- **The machine states a state stands for.** -/
structure Represents (L : Layout) (ρ : ℕ → ℕ) (st : BpfState) (s : MState) : Prop where
  pc : st.pc = s.pc
  regs : ∀ r, Denotes L ρ st.nextMapId (st.regs r) (s.regs r)
  frame : ∀ k, -stackSize ≤ k → k < 0 → ∀ b, frameBytes st.stack k = some b →
    (s.frame (BitVec.ofInt 64 k)).byte = b

section

variable {L : Layout} {ρ ρ' : ℕ → ℕ} {ids ids' : ℕ} {st st' : BpfState} {s : MState} {v : RegVal}
  {x y : Val} {dst : Reg}

/-- New ids leave the old ones' meaning. -/
theorem Denotes.extend (h : Denotes L ρ ids v x) (hids : ids ≤ ids')
    (hρ : ∀ id < ids, ρ' id = ρ id) : Denotes L ρ' ids' v x := by
  cases v with
  | mapValuePtr id =>
    obtain ⟨hid, rfl⟩ := h
    exact ⟨Nat.lt_of_lt_of_le hid hids, by rw [hρ id hid]⟩
  | ringBufPtr id =>
    obtain ⟨hid, pc, reserved, rfl⟩ := h
    exact ⟨Nat.lt_of_lt_of_le hid hids, pc, reserved, by rw [hρ id hid]⟩
  | _ => exact h

/-- A register write. -/
theorem Represents.setReg (h : Represents L ρ st s) (dst : Reg)
    (hv : Denotes L ρ st.nextMapId v x) : Represents L ρ (st.setReg dst v) (s.advance dst x) where
  pc := by
    rw [BpfState.setReg_pc, h.pc]
    rfl
  regs r := by
    rw [BpfState.setReg_regs, MState.regs_advance, Fstar.setReg]
    split
    · exact hv
    · exact h.regs r
  frame := h.frame

theorem Represents.setNumber {result : Option (BitVec 64)} (h : Represents L ρ st s)
    (hset : st.setNumber dst result = some st') (hx : ∀ n, result = some n → x.bits = n) :
    Represents L ρ st' (s.advance dst x) := by
  obtain ⟨n, hn, rfl⟩ := setNumber_eq_some.mp hset
  exact h.setReg dst (hx n hn)

/-- A jump. -/
theorem Represents.jump (h : Represents L ρ st s) {pc : Int} {t : ℕ} (ht : pc = t) :
    Represents L ρ (st.jump pc) { s with pc := t } := ⟨ht, h.regs, h.frame⟩

theorem Represents.bits (h : Represents L ρ st s) {r : Reg} {n : BitVec 64}
    (hr : st.regs r = .scalar n) : (s.regs r).bits = n := by
  have hdenotes := h.regs r
  rwa [hr] at hdenotes

end

/-! ## Operations -/

section

variable {op : AluOp} {d n n' x : BitVec 64} {imm : BitVec 32}

theorem aluBits_of_alu64 (h : alu64 op d n = some x) : aluBits true op d n = x := by
  rw [aluBits, if_pos rfl]
  cases op with
  | div =>
    simp only [alu64] at h
    split at h
    · next hzero =>
      obtain rfl := Option.some.inj h
      rw [hzero]
      exact BitVec.udiv_zero
    · exact Option.some.inj h
  | mod =>
    simp only [alu64] at h
    split at h
    · next hzero =>
      obtain rfl := Option.some.inj h
      rw [hzero]
      exact BitVec.umod_zero
    · exact Option.some.inj h
  | neg =>
    obtain rfl := Option.some.inj h
    exact (BitVec.zero_sub d).symm
  | arsh =>
    have harsh : alu64 .arsh d n = some (d.sshiftRight (n.toNat % 64)) := by
      rw [← arsh_eq, apply_ite some]
      rfl
    rw [harsh] at h
    exact Option.some.inj h
  | _ => exact Option.some.inj h

/-- A 32-bit operation reads the low halves. -/
theorem aluBits_congr (h : n.setWidth 32 = n'.setWidth 32) :
    aluBits false op d n = aluBits false op d n' := by
  simp only [aluBits, Bool.false_eq_true, if_false, h]

theorem aluBits_of_alu32 (hk : ¬KeepsHighHalf op d n) (h : alu32 op d n = some x) :
    aluBits false op d n = x := by
  rw [aluBits, if_neg Bool.false_ne_true]
  cases op with
  | div =>
    simp only [alu32] at h
    split at h
    · next hzero =>
      obtain rfl := Option.some.inj h
      rw [hzero]
      exact congrArg (BitVec.setWidth 64) (BitVec.udiv_zero (x := d.setWidth 32))
    · exact Option.some.inj h
  | mod =>
    simp only [alu32] at h
    split at h
    · next hzero =>
      obtain rfl := Option.some.inj h
      have hd : d.toNat < 2 ^ 32 := by
        by_contra hd
        exact hk ⟨rfl, hzero, Nat.le_of_not_lt hd⟩
      rw [hzero]
      exact (congrArg (BitVec.setWidth 64) (BitVec.umod_zero (x := d.setWidth 32))).trans
        (zext32_64_trunc64_32.mpr hd)
    · exact Option.some.inj h
  | neg =>
    obtain rfl := Option.some.inj h
    exact congrArg (BitVec.setWidth 64) (BitVec.zero_sub (d.setWidth 32)).symm
  | arsh =>
    have harsh : alu32 .arsh d n =
        some (zext32_64 ((trunc64_32 d).sshiftRight ((trunc64_32 n).toNat % 32))) := by
      rw [← arsh_eq]
      rfl
    rw [harsh] at h
    exact Option.some.inj h
  | _ => exact Option.some.inj h

/-- The low half of an immediate, extended either way. -/
theorem setWidth_immU : (imm.setWidth 64).setWidth 32 = (signExtendImm imm).setWidth 32 := by
  have hlow : (signExtendImm imm).setWidth 32 = imm := by
    apply BitVec.eq_of_getLsbD_eq
    intro i hi
    simp [signExtendImm, BitVec.getLsbD_signExtend, hi]
    omega
  rw [hlow]
  simp

end

/-- **The comparisons of the two layers agree.** -/
theorem compare_eq_evalJmp {w : ℕ} (hw : 0 < w) (op : JmpOp) (x y : BitVec w) :
    compare op x y = evalJmp w op x.toNat y.toNat := by
  have hand : x &&& y ≠ 0 ↔ x.toNat &&& y.toNat ≠ 0 := by
    rw [← BitVec.toNat_and, Ne, Ne, ← BitVec.toNat_inj]
    simp
  cases op with
  | jeq => exact decide_eq_decide.mpr BitVec.toNat_inj.symm
  | jne => exact decide_eq_decide.mpr BitVec.toNat_inj.symm.not
  | jset => exact decide_eq_decide.mpr hand
  | _ =>
    simp only [compare, evalJmp, BitVec.ult, BitVec.ule, BitVec.slt, BitVec.sle, signed_toNat hw,
      gt_iff_lt, ge_iff_le]

theorem jumpTaken_eq_evalJmp64 (op : JmpOp) (x y : BitVec 64) :
    jumpTaken false op x y = evalJmp64 op x y := compare_eq_evalJmp (by decide) op x y

theorem jumpTaken_eq_evalJmp32 (op : JmpOp) (x y : BitVec 64) :
    jumpTaken true op x y = evalJmp32 op x y := by
  have h := compare_eq_evalJmp (by decide) op (x.setWidth 32) (y.setWidth 32)
  rwa [BitVec.toNat_setWidth, BitVec.toNat_setWidth] at h

/-! ## The frame -/

/-- The bytes a read puts together. -/
theorem getLsbD_assemble {frame : BitVec 64 → Frag} {o x : BitVec 64} {n : ℕ} (hn : n ≤ 8)
    (h : ∀ i < n, (frame (o + BitVec.ofNat 64 i)).byte = Bytes.byte x i) {j : ℕ} (hj : j < 64) :
    (assemble frame o n).getLsbD j = (decide (j < 8 * n) && x.getLsbD j) := by
  induction n with
  | zero => simp [assemble]
  | succ n ih =>
    have hbyte := h n (Nat.lt_succ_self n)
    have ih := ih (Nat.le_of_succ_le hn) fun i hi => h i (Nat.lt_succ_of_lt hi)
    have hsplit : assemble frame o (n + 1) =
        assemble frame o n ||| (Bytes.byte x n).setWidth 64 <<< (8 * n) := by
      rw [assemble, List.range_succ, List.foldl_append, List.foldl_cons, List.foldl_nil, hbyte]
      rfl
    rw [hsplit, BitVec.getLsbD_or, ih, BitVec.getLsbD_shiftLeft, BitVec.getLsbD_setWidth,
      Bytes.byte, BitVec.getLsbD_setWidth, BitVec.getLsbD_ushiftRight]
    by_cases hlow : j < 8 * n
    · simp [hlow, show j < 8 * (n + 1) by omega]
    · have hback : 8 * n + (j - 8 * n) = j := by omega
      by_cases hhigh : j < 8 * (n + 1)
      · simp [hlow, hhigh, hback, hj, show j - 8 * n < 64 by omega, show j - 8 * n < 8 by omega]
      · simp [hlow, hhigh, show ¬j - 8 * n < 8 by omega]

/-- Eight bytes of a word put together are the word. -/
theorem assemble_eq {frame : BitVec 64 → Frag} {o x : BitVec 64} {width : MemWidth}
    (hx : x.toNat < 2 ^ (8 * widthBytes width))
    (h : ∀ i < widthBytes width, (frame (o + BitVec.ofNat 64 i)).byte = Bytes.byte x i) :
    assemble frame o (widthBytes width) = x := by
  apply BitVec.eq_of_getLsbD_eq
  intro j hj
  rw [getLsbD_assemble (widthBytes_le width) h hj]
  by_cases hlow : j < 8 * widthBytes width
  · simp [hlow]
  · have hlt : x.toNat < 2 ^ j :=
      Nat.lt_of_lt_of_le hx (Nat.pow_le_pow_right (by decide) (Nat.le_of_not_lt hlow))
    simp [hlow, BitVec.getLsbD, Nat.testBit_lt_two_pow hlt]

/-- **A read of the frame gives the word its bytes spell.** -/
theorem bits_readFrame {frame : BitVec 64 → Frag} {o x : BitVec 64} {width : MemWidth}
    (hx : x.toNat < 2 ^ (8 * widthBytes width))
    (h : ∀ i < widthBytes width, (frame (o + BitVec.ofNat 64 i)).byte = Bytes.byte x i) :
    (readFrame frame o width).bits = x := by
  unfold readFrame
  split
  · next hwhole =>
    obtain ⟨hdw, hwhole⟩ := Bool.and_eq_true_iff.mp hwhole
    obtain rfl := of_decide_eq_true hdw
    simp only [decide_true, Bool.true_and, wholeAt, List.all_eq_true, List.mem_range,
      decide_eq_true_eq] at hwhole
    -- the bytes are those of the value found, and of `x`
    have hval : assemble frame o (widthBytes .dw) = (frame o).val.bits := by
      refine assemble_eq (by exact (frame o).val.bits.isLt) fun i hi => ?_
      rw [hwhole i hi]
      rfl
    rw [← hval]
    exact assemble_eq hx h
  · exact assemble_eq hx h

/-- Addresses of the frame are told apart. -/
theorem toNat_ofInt_sub {k o : Int} (hk : -stackSize ≤ k) (hk₀ : k < 0) (ho : -stackSize ≤ o)
    (ho₀ : o ≤ 0) :
    ((BitVec.ofInt 64 k - BitVec.ofInt 64 o).toNat : Int) = if o ≤ k then k - o else k - o + 2 ^ 64
    := by
  unfold stackSize at hk ho
  rw [BitVec.toNat_sub, BitVec.toNat_ofInt, BitVec.toNat_ofInt]
  split <;> omega

/-- **A write of the frame.** -/
theorem Represents.frame_write {L : Layout} {ρ : ℕ → ℕ} {st : BpfState} {s : MState}
    (h : Represents L ρ st s) {o : Int} {width : MemWidth} {v : BitVec 64} {m : ℕ}
    {new : ℕ → Frag} (ho : stackOffsetValid o width = true) (hm : widthBytes width ≤ m)
    (hnew : ∀ i < widthBytes width, (new i).byte = Bytes.byte v i)
    (hrest : ∀ i < m, widthBytes width ≤ i →
      (new i).byte = (s.frame (BitVec.ofInt 64 o + BitVec.ofNat 64 i)).byte) :
    ∀ k, -stackSize ≤ k → k < 0 → ∀ b,
      frameBytes (stackWrite st.stack o width v) k = some b →
      (overwrite s.frame (BitVec.ofInt 64 o) m new (BitVec.ofInt 64 k)).byte = b := by
  intro k hk hk₀ b hb
  obtain ⟨hlo, hhi⟩ : 0 ≤ stackSize + o ∧ stackSize + o + widthBytes width ≤ stackSize := by
    simpa [stackOffsetValid] using ho
  have hpos := widthBytes_pos width
  have hsize : stackSize = 512 := rfl
  have hdist := toNat_ofInt_sub hk hk₀ (o := o) (by omega) (by omega)
  have hwrite : frameBytes (stackWrite st.stack o width v) k =
      (Bytes.Write.put ⟨o, widthBytes width, v⟩ k).or (frameBytes st.stack k) := rfl
  rw [hwrite, Bytes.Write.put] at hb
  generalize hi : (BitVec.ofInt 64 k - BitVec.ofInt 64 o).toNat = i at hdist
  have hback : BitVec.ofInt 64 o + BitVec.ofNat 64 i = BitVec.ofInt 64 k := by
    rw [← hi, BitVec.ofNat_toNat, BitVec.setWidth_eq, BitVec.add_comm, BitVec.sub_add_cancel]
  unfold overwrite
  rw [hi]
  split at hb
  · next hcovers =>
    obtain ⟨hok, hko⟩ := hcovers
    rw [if_pos hok] at hdist
    dsimp only at hb hko
    have hlt : i < widthBytes width := by omega
    rw [if_pos (Nat.lt_of_lt_of_le hlt hm), hnew i hlt]
    rw [Option.some_or, Option.some.injEq] at hb
    rw [← hb]
    congr 1
    omega
  · next hcovers =>
    rw [Option.none_or] at hb
    split
    · next hlt =>
      have hle : widthBytes width ≤ i := by
        unfold Bytes.Covers at hcovers
        dsimp only at hcovers
        split at hdist <;> omega
      rw [hrest i hlt hle, hback]
      exact h.frame k hk hk₀ b hb
    · exact h.frame k hk hk₀ b hb

end BpfVerifier.Fstar
