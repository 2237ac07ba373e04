import BpfVerifier.Fstar.Places

/-!
# Properties/Stores — what a load finds of the stores before it

Slots are found by their place and width, so a load after a store gives the stored value as long as
nothing writes that access again: the whole value, also when the width is too narrow for it
(`execInsn_ldx_iff`), and also when a later write at another offset or width changed its bytes
(`stackLoad_bytes`).
-/

namespace BpfVerifier.Fstar

/-! ## The same access -/

/-- None of the next `n` instructions of a run writes a byte of the access. -/
def Spares (prog : BpfProgram) (st : BpfState) (n : ℕ) (a : Access) : Prop :=
  ∀ k < n, ∀ u insn b v, (interp prog).after k st = some u → fetchAt prog u.pc = some insn →
    insn.write u = some (b, v) → ¬b.Overlaps a

/-- An access finds what it found before an instruction that writes none of its bytes. -/
theorem peek_of_not_overlaps {st st' : BpfState} {insn : Insn} {a : Access}
    (h : execInsn st insn = some st')
    (hapart : ∀ b v, insn.write st = some (b, v) → ¬b.Overlaps a) : st'.peek a = st.peek a := by
  rw [peek_of_execInsn h]
  unfold BpfState.peekAfter
  split
  · next b v hwrite =>
    have hne : b ≠ a := by
      rintro rfl
      exact hapart b v hwrite b.overlaps_self
    rw [if_neg hne]
  · rfl

/-- …and what it found before a run that spares it. -/
theorem peek_after {prog : BpfProgram} {st st' : BpfState} {n : ℕ} {a : Access}
    (hspares : Spares prog st n a) (h : (interp prog).after n st = some st') :
    st'.peek a = st.peek a := by
  refine Interp.after_invariant (I := fun k u => k ≤ n → u.peek a = st.peek a) (fun _ => rfl) ?_ h
    le_rfl
  intro k u u' hu hnext ih hk
  obtain ⟨insn, hfetch, -, hexec⟩ := Interp.next_eq_some_iff.mp hnext
  rw [peek_of_not_overlaps hexec fun b v => hspares k hk u insn b v hu hfetch]
  exact ih (Nat.le_of_succ_le hk)

/-- The access of a store finds the stored value. -/
theorem peek_of_write {st st' : BpfState} {insn : Insn} {a : Access} {v : BitVec 64}
    (h : execInsn st insn = some st') (hwrite : insn.write st = some (a, v)) :
    st'.peek a = some v := by
  rw [peek_of_execInsn h, hwrite, BpfState.peekAfter, if_pos rfl]

/-- A load gives the value stored last at its access, all of it. -/
theorem execInsn_ldx_of_write {prog : BpfProgram} {st st₁ st₂ : BpfState} {insn : Insn} {a : Access}
    {v : BitVec 64} {n : ℕ} {dst src : Reg} {off : BitVec 32} (hstore : insn.isStore = true)
    (hwrite : insn.write st = some (a, v)) (hexec : execInsn st insn = some st₁)
    (hrun : (interp prog).after n st₁ = some st₂) (hspares : Spares prog st₁ n a)
    (hplace : (st₂.regs src).place off = some a.place) :
    execInsn st₂ (.ldx a.width dst src off) = some (st₂.setReg dst (.scalar v)) :=
  execInsn_ldx hplace (valid_of_write hstore hexec hwrite)
    ((peek_after hspares hrun).trans (peek_of_write hexec hwrite))

/-- The low bytes of a word, as many as a width has. -/
def lowBytes (width : MemWidth) (v : BitVec 64) : BitVec 64 :=
  BitVec.ofNat 64 (v.toNat % 2 ^ (8 * widthBytes width))

theorem lowBytes_eq_iff {width : MemWidth} {v : BitVec 64} :
    lowBytes width v = v ↔ v.toNat < 2 ^ (8 * widthBytes width) := by
  have hle : v.toNat % 2 ^ (8 * widthBytes width) ≤ v.toNat := Nat.mod_le _ _
  have hnat : (lowBytes width v).toNat = v.toNat % 2 ^ (8 * widthBytes width) :=
    Nat.mod_eq_of_lt (Nat.lt_of_le_of_lt hle v.isLt)
  rw [← BitVec.toNat_inj, hnat]
  exact ⟨fun h => h ▸ Nat.mod_lt _ (Nat.two_pow_pos _), Nat.mod_eq_of_lt⟩

/-- **A load gives the stored value cut to the width just when the width held the value.** -/
theorem execInsn_ldx_iff {prog : BpfProgram} {st st₁ st₂ : BpfState} {insn : Insn} {a : Access}
    {v : BitVec 64} {n : ℕ} {dst src : Reg} {off : BitVec 32} (hstore : insn.isStore = true)
    (hwrite : insn.write st = some (a, v)) (hexec : execInsn st insn = some st₁)
    (hrun : (interp prog).after n st₁ = some st₂) (hspares : Spares prog st₁ n a)
    (hplace : (st₂.regs src).place off = some a.place) :
    execInsn st₂ (.ldx a.width dst src off) =
        some (st₂.setReg dst (.scalar (lowBytes a.width v))) ↔
      v.toNat < 2 ^ (8 * widthBytes a.width) := by
  rw [execInsn_ldx_of_write hstore hwrite hexec hrun hspares hplace, ← lowBytes_eq_iff]
  constructor
  · intro h
    have hregs := congrArg BpfState.regs (Option.some.inj h)
    exact (RegVal.scalar.inj (setReg_inj.mp hregs)).symm
  · intro h
    rw [h]

/-- A programme that stores a byte, forgets r0 and loads the byte. -/
def storesByte (imm : BitVec 32) : BpfProgram :=
  [.st .b .r10 (-8) imm, .ldImm64 .r0 0, .ldx .b .r0 .r10 (-8), .exit]

/-- The only instruction between the store and the load writes no memory. -/
theorem spares_storesByte {imm : BitVec 32} {st₁ : BpfState} (hpc : st₁.pc = 1) (a : Access) :
    Spares (storesByte imm) st₁ 1 a := by
  intro k hk u insn b v hu hfetch hwrite
  obtain rfl : k = 0 := by omega
  obtain rfl := Option.some.inj hu
  rw [hpc] at hfetch
  obtain rfl := Option.some.inj hfetch
  cases hwrite

theorem execInsn_ldx_storesByte : ∃ st₂, (interp (storesByte 200)).after 2 BpfState.blank.entry =
      some st₂ ∧
    execInsn st₂ (.ldx .b .r0 .r10 (-8)) =
      some (st₂.setReg .r0 (.scalar (lowBytes .b (signExtendImm 200)))) := by
  have hwrite : Insn.write BpfState.blank.entry (.st .b .r10 (-8) 200) =
      some (⟨.frame (-8), .b⟩, signExtendImm 200) := rfl
  obtain ⟨st₁, st₂, hexec, hrun, hrun₂, hpc, hr10⟩ :
      ∃ st₁ st₂, execInsn BpfState.blank.entry (.st .b .r10 (-8) 200) = some st₁ ∧
        (interp (storesByte 200)).after 1 st₁ = some st₂ ∧
        (interp (storesByte 200)).after 2 BpfState.blank.entry = some st₂ ∧ st₁.pc = 1 ∧
        st₂.regs .r10 = .framePtr 0 := ⟨_, _, rfl, rfl, rfl, rfl, rfl⟩
  have hplace : (st₂.regs .r10).place (-8) = some (.frame (-8)) := by
    rw [hr10]
    rfl
  exact ⟨st₂, hrun₂, (execInsn_ldx_iff rfl hwrite hexec hrun (spares_storesByte hpc _) hplace).mpr
    (by decide)⟩

/-- **A load can give more than its width holds.** -/
theorem not_execInsn_ldx : ¬∀ (prog : BpfProgram) (st st₁ st₂ : BpfState) (insn : Insn) (a : Access)
    (v : BitVec 64) (n : ℕ) (dst src : Reg) (off : BitVec 32), insn.isStore = true →
    insn.write st = some (a, v) → execInsn st insn = some st₁ →
    (interp prog).after n st₁ = some st₂ → Spares prog st₁ n a →
    (st₂.regs src).place off = some a.place →
    execInsn st₂ (.ldx a.width dst src off) =
      some (st₂.setReg dst (.scalar (lowBytes a.width v))) := by
  intro h
  have hload := h (storesByte 300) BpfState.blank.entry _ _ (.st .b .r10 (-8) 300)
    ⟨.frame (-8), .b⟩ 300 1 .r0 .r10 (-8) rfl rfl rfl rfl (spares_storesByte rfl _) rfl
  have hr0 := congrArg (fun s => s.map fun st => st.regs .r0) hload
  revert hr0
  decide

/-! ## Bytes -/

/-- The bytes a slot was written with. -/
def StackSlot.bytes (slot : StackSlot) : Bytes.Write 64 :=
  ⟨slot.offset, widthBytes slot.width, slot.value⟩

/-- The bytes a list of writes, the latest first, leaves in a frame. -/
def frameBytes (slots : List StackSlot) : Bytes.Memory := Bytes.ofWrites (slots.map (·.bytes))

/-- **The writes a state comes from**, the latest first: stores of values that fit, and the eight
zero bytes of a helper that fills a buffer. -/
inductive Wrote : List StackSlot → BpfState → Prop
  | start {st : BpfState} : st.stack = [] → Wrote [] st
  | store {slots : List StackSlot} {st st' : BpfState} {slot : StackSlot} : Wrote slots st →
      slot.value.toNat < 2 ^ (8 * widthBytes slot.width) →
      st.stackStore slot.offset slot.width slot.value = some st' → Wrote (slot :: slots) st'
  | fill {slots : List StackSlot} {st : BpfState} {off : Int} : Wrote slots st →
      st.regs .r1 = .framePtr off → stackOffsetValid off .dw = true →
      Wrote (⟨off, .dw, 0⟩ :: slots) (applyHelperEffect st .ReadIntoPtr)
  /-- Between two writes anything else may change. -/
  | other {slots : List StackSlot} {st st' : BpfState} : Wrote slots st → st'.stack = st.stack →
      Wrote slots st'

/-- The slot list is the history. -/
theorem Wrote.stack_eq {slots : List StackSlot} {st : BpfState} (h : Wrote slots st) :
    st.stack = slots := by
  induction h with
  | start hstack => exact hstack
  | store _ _ hstore ih =>
    obtain ⟨-, rfl⟩ := BpfState.stackStore_eq_some.mp hstore
    simp [stackWrite, ih]
  | fill _ hr1 _ ih => simp [applyHelperEffect, hr1, stackWrite, ih]
  | other _ hstack ih => exact hstack.trans ih

theorem Wrote.fits {slots : List StackSlot} {st : BpfState} (h : Wrote slots st) :
    ∀ slot ∈ slots, slot.value.toNat < 2 ^ (8 * widthBytes slot.width) := by
  induction h with
  | start => simp
  | store _ hfits _ ih => simpa [hfits] using ih
  | fill _ _ _ ih => simpa [widthBytes] using ih
  | other _ _ ih => exact ih

/-- A load finds the last slot of its own offset and width. -/
theorem stackRead_eq_some {slots : StackMem} {off : Int} {width : MemWidth} {x : BitVec 64}
    (h : stackRead slots off width = some x) :
    ∃ later earlier, slots = later ++ ⟨off, width, x⟩ :: earlier ∧
      ∀ slot ∈ later, ¬(slot.offset = off ∧ slot.width = width) := by
  rw [stackRead_eq] at h
  obtain ⟨slot, hfind, rfl⟩ := Option.map_eq_some_iff.mp h
  obtain ⟨hslot, later, earlier, rfl, hlater⟩ := List.find?_eq_some_iff_append.mp hfind
  obtain ⟨rfl, rfl⟩ := of_decide_eq_true hslot
  exact ⟨later, earlier, rfl, fun s hs h => by simpa [h] using hlater s hs⟩

/-- The writes leave the bytes of a slot as it wrote them. -/
def Preserves (later : List StackSlot) (slot : StackSlot) : Prop :=
  ∀ i < widthBytes slot.width, ∀ b, frameBytes later (slot.offset + i) = some b →
    b = Bytes.byte slot.value i

/-- Writes that do not overlap a slot preserve it. -/
theorem preserves_of_not_meet {later : List StackSlot} {slot : StackSlot}
    (h : ∀ s ∈ later, ¬Bytes.Meet s.offset (widthBytes s.width) slot.offset
      (widthBytes slot.width)) : Preserves later slot := by
  intro i hi b hb
  have hnone : frameBytes later (slot.offset + i) = none :=
    Bytes.ofWrites_eq_none (by simpa [StackSlot.bytes] using h) (Bytes.covers_add hi)
  rw [hnone] at hb
  cases hb

/-- **A load gives the value written last at its own offset and width**, which is the value of the
bytes there just when the writes since left them alone. -/
theorem stackLoad_bytes {slots : List StackSlot} {st : BpfState} (hwrote : Wrote slots st)
    {off : Int} {width : MemWidth} {x : BitVec 64} (h : st.stackLoad off width = some x) :
    ∃ later earlier, slots = later ++ ⟨off, width, x⟩ :: earlier ∧
      (∀ slot ∈ later, ¬(slot.offset = off ∧ slot.width = width)) ∧
      (Bytes.Holds (frameBytes slots) off (widthBytes width) x ↔
        Preserves later ⟨off, width, x⟩) ∧
      ((∀ s ∈ later, ¬Bytes.Meet s.offset (widthBytes s.width) off (widthBytes width)) →
        Bytes.Holds (frameBytes slots) off (widthBytes width) x) := by
  obtain ⟨-, hread⟩ := BpfState.stackLoad_eq_some.mp h
  rw [hwrote.stack_eq] at hread
  obtain ⟨later, earlier, rfl, hlater⟩ := stackRead_eq_some hread
  have hfits := hwrote.fits ⟨off, width, x⟩ (by simp)
  have hiff : Bytes.Holds (frameBytes (later ++ ⟨off, width, x⟩ :: earlier)) off (widthBytes width)
      x ↔ Preserves later ⟨off, width, x⟩ := by
    rw [frameBytes, List.map_append, List.map_cons]
    exact Bytes.holds_append_cons_iff hfits
  exact ⟨later, earlier, rfl, hlater, hiff, fun hapart => hiff.mpr (preserves_of_not_meet hapart)⟩

/-- Eight bytes of one, and a two written over the first of them. -/
def overwritten : List StackSlot := [⟨-8, .b, 2⟩, ⟨-8, .dw, 1⟩]

theorem wrote_overwritten : ∃ st, Wrote overwritten st ∧ st.stackLoad (-8) .dw = some 1 :=
  have hempty : Wrote [] BpfState.blank := .start rfl
  ⟨_, .store (.store hempty (by decide) rfl) (by decide) rfl, by decide⟩

theorem stackLoad_bytes_overwritten : ∃ st, Wrote overwritten st ∧ st.stackLoad (-8) .b = some 2 ∧
    Bytes.Holds (frameBytes overwritten) (-8) 1 (2 : BitVec 64) := by
  obtain ⟨st, hwrote, -⟩ := wrote_overwritten
  have hload : st.stackLoad (-8) .b = some 2 := by
    rw [BpfState.stackLoad, hwrote.stack_eq]
    rfl
  obtain ⟨later, earlier, hslots, hlater, -, hholds⟩ := stackLoad_bytes hwrote hload
  refine ⟨st, hwrote, hload, hholds ?_⟩
  -- the byte is the last write
  cases later with
  | nil => simp
  | cons s later =>
    obtain ⟨rfl, -⟩ := List.cons.inj hslots
    exact absurd ⟨rfl, rfl⟩ (hlater ⟨-8, .b, 2⟩ (by simp))

/-- **A load can give bytes that were overwritten.** -/
theorem not_stackLoad_bytes : ¬∀ (slots : List StackSlot) (st : BpfState) (off : Int)
    (width : MemWidth) (x : BitVec 64), Wrote slots st → st.stackLoad off width = some x →
    Bytes.Holds (frameBytes slots) off (widthBytes width) x := by
  intro h
  obtain ⟨st, hwrote, hload⟩ := wrote_overwritten
  have hbyte := (h overwritten st (-8) .dw 1 hwrote hload).2 0 (by decide)
  revert hbyte
  decide

end BpfVerifier.Fstar
