import BpfVerifier.Fstar.Steps
import BpfVerifier.Machinery.Bytes

/-!
# Fstar/Places — what an instruction of the F* layer writes, and where

A `Place` is an address in the frame or in a ring-buffer record.  `Insn.write` names the access a
store or a helper call writes and its value; `peek_of_execInsn` says that an instruction writes that
and nothing else.
-/

namespace BpfVerifier.Fstar

/-- An address in the frame, or in a ring-buffer record. -/
inductive Place where
  | frame (off : Int)
  | record (id : ℕ) (off : Int)
  deriving DecidableEq, Repr

/-- A place and the width it is read or written at. -/
structure Access where
  place : Place
  width : MemWidth
  deriving DecidableEq, Repr

/-- The place an access through a base register goes to, if that is in the frame or in a record. -/
def RegVal.place (base : RegVal) (off : BitVec 32) : Option Place :=
  match base with
  | .framePtr ptrOff => some (.frame (ptrOff + signExtendToInt off))
  | .ringBufPtr id => some (.record id (signExtendToInt off))
  | _ => none

/-- Two accesses have a byte in common. -/
def Access.Overlaps (a b : Access) : Prop :=
  match a.place, b.place with
  | .frame o, .frame o' => Bytes.Meet o (widthBytes a.width) o' (widthBytes b.width)
  | .record id o, .record id' o' =>
    id = id' ∧ Bytes.Meet o (widthBytes a.width) o' (widthBytes b.width)
  | _, _ => False

instance (a b : Access) : Decidable (a.Overlaps b) := by
  unfold Access.Overlaps
  split <;> infer_instance

/-- What an instruction writes: the access and the value of a store that goes through, and the eight
zero bytes a helper leaves where r1 points. -/
def Insn.write (st : BpfState) : Insn → Option (Access × BitVec 64)
  | .stx width dst src off =>
    match (st.regs dst).place off, scalarVal (st.regs src) with
    | some p, some v => some (⟨p, width⟩, v)
    | _, _ => none
  | .st width dst off imm => ((st.regs dst).place off).map fun p => (⟨p, width⟩, signExtendImm imm)
  | .call hid =>
    match (getHelperSpec hid).map HelperSpec.sideEffect, st.regs .r1 with
    | some .ReadIntoPtr, .framePtr off => some (⟨.frame off, .dw⟩, 0)
    | _, _ => none
  | _ => none

/-- The value an access finds. -/
def BpfState.peek (st : BpfState) (a : Access) : Option (BitVec 64) :=
  match a.place with
  | .frame off => stackRead st.stack off a.width
  | .record id off => ringbufRead st.ringbuf id off a.width

/-! ## Places -/

theorem Access.overlaps_self (a : Access) : a.Overlaps a := by
  obtain ⟨place, width⟩ := a
  have hmeet (o : Int) := Bytes.meet_self o (widthBytes_pos width)
  cases place with
  | frame off => exact hmeet off
  | record id off => exact ⟨rfl, hmeet off⟩

theorem peek_congr {st st' : BpfState} (hstack : st'.stack = st.stack)
    (hring : st'.ringbuf = st.ringbuf) (a : Access) : st'.peek a = st.peek a := by
  rw [BpfState.peek, BpfState.peek, hstack, hring]

/-- After a write of the frame, its access finds the value and every other what it found before. -/
theorem peek_of_stackWrite {st st' : BpfState} {off : Int} {width : MemWidth} {v : BitVec 64}
    (hstack : st'.stack = stackWrite st.stack off width v) (hring : st'.ringbuf = st.ringbuf)
    (a : Access) : st'.peek a = if ⟨.frame off, width⟩ = a then some v else st.peek a := by
  obtain ⟨place, width'⟩ := a
  cases place with
  | frame off' => simp [BpfState.peek, hstack, stackWrite, stackRead]
  | record id off' => simp [BpfState.peek, hring]

theorem peek_of_ringbufWrite {st st' : BpfState} {id : ℕ} {off : Int} {width : MemWidth}
    {v : BitVec 64} (hstack : st'.stack = st.stack)
    (hring : st'.ringbuf = ringbufWrite st.ringbuf id off width v) (a : Access) :
    st'.peek a = if ⟨.record id off, width⟩ = a then some v else st.peek a := by
  obtain ⟨place, width'⟩ := a
  cases place with
  | frame off' => simp [BpfState.peek, hstack]
  | record id' off' => simp [BpfState.peek, hring, ringbufWrite, ringbufRead, and_assoc]

/-! ## One instruction -/

/-- What every access finds after a write, if one was made. -/
def BpfState.peekAfter (st : BpfState) (write : Option (Access × BitVec 64)) (a : Access) :
    Option (BitVec 64) :=
  match write with
  | some (b, v) => if b = a then some v else st.peek a
  | none => st.peek a

section

variable {st st' : BpfState}

/-- A store that goes through writes its value at its place. -/
theorem peek_of_store {width : MemWidth} {dst : Reg} {off : BitVec 32} {v : Option (BitVec 64)}
    (h : execStoreWith st st.stackStore width dst off v = some st') :
    ∃ p n, (st.regs dst).place off = some p ∧ v = some n ∧
      ∀ a, st'.peek a = if ⟨p, width⟩ = a then some n else st.peek a := by
  unfold execStoreWith at h
  split at h
  · next ptrOff hptr =>
    split at h
    · next n =>
      obtain ⟨-, rfl⟩ := BpfState.stackStore_eq_some.mp h
      exact ⟨_, n, by rw [hptr]; rfl, rfl, peek_of_stackWrite rfl rfl⟩
    · cases h
  · next id hid =>
    split at h
    · next n =>
      obtain rfl := Option.some.inj h
      exact ⟨_, n, by rw [hid]; rfl, rfl, peek_of_ringbufWrite rfl rfl⟩
    · cases h
  · cases h

/-- Whatever a helper returns, only its side effect writes memory. -/
theorem peek_of_execHelper {spec : HelperSpec} (h : execHelper st spec = some st') (a : Access) :
    st'.peek a = (applyHelperEffect st spec.sideEffect).peek a := by
  unfold execHelper at h
  split at h <;> obtain rfl := Option.some.inj h <;> exact peek_congr rfl rfl a

theorem peek_of_call {hid : HelperId} (h : execInsn st (.call hid) = some st') (a : Access) :
    st'.peek a = st.peekAfter ((Insn.call hid).write st) a := by
  simp only [execInsn] at h
  cases hspec : getHelperSpec hid with
  | none => simp [hspec] at h
  | some spec =>
    simp only [hspec] at h
    rw [peek_of_execHelper h, Insn.write, hspec, Option.map_some]
    cases heff : spec.sideEffect with
    | ReadIntoPtr =>
      cases hr1 : st.regs .r1 with
      | framePtr off =>
        simp only [applyHelperEffect, hr1, BpfState.peekAfter]
        refine peek_of_stackWrite ?_ ?_ a <;> rfl
      | _ => simp [applyHelperEffect, hr1, BpfState.peekAfter]
    | _ => simp [applyHelperEffect, BpfState.peekAfter]

/-- **An instruction writes what `write` says, and nothing else.** -/
theorem peek_of_execInsn {insn : Insn} (h : execInsn st insn = some st') (a : Access) :
    st'.peek a = st.peekAfter (insn.write st) a := by
  cases insn with
  | stx width dst src off =>
    obtain ⟨p, n, hp, hn, hpeek⟩ := peek_of_store h
    simp [Insn.write, hp, hn, hpeek, BpfState.peekAfter]
  | st width dst off imm =>
    have hstore : execStoreWith st st.stackStore width dst off (some (signExtendImm imm)) =
        some st' := h
    obtain ⟨p, n, hp, hn, hpeek⟩ := peek_of_store hstore
    obtain rfl := Option.some.inj hn
    simp [Insn.write, hp, hpeek, BpfState.peekAfter]
  | call hid => exact peek_of_call h a
  | _ =>
    -- the other instructions set a register or jump
    cases effect_of_execInsn rfl h with
    | store _ _ hstore => simp [Insn.isStore] at hstore
    | _ => exact peek_congr rfl rfl a

end

/-! ## Loads -/

/-- A place the frame holds at a width; a record takes every access. -/
def Access.Valid (a : Access) : Prop :=
  match a.place with
  | .frame off => stackOffsetValid off a.width = true
  | .record _ _ => True

/-- A store that goes through is to a valid access. -/
theorem valid_of_write {st st' : BpfState} {insn : Insn} {a : Access} {v : BitVec 64}
    (hstore : insn.isStore = true) (h : execInsn st insn = some st')
    (hwrite : insn.write st = some (a, v)) : a.Valid := by
  have hvalid {width : MemWidth} {dst : Reg} {off : BitVec 32} {v : Option (BitVec 64)}
      (h : execStoreWith st st.stackStore width dst off v = some st') {p : Place}
      (hp : (st.regs dst).place off = some p) : Access.Valid ⟨p, width⟩ := by
    unfold execStoreWith at h
    split at h
    · next ptrOff hptr =>
      split at h
      · rw [hptr] at hp
        obtain rfl := Option.some.inj hp
        exact (BpfState.stackStore_eq_some.mp h).1
      · cases h
    · next id hid =>
      rw [hid] at hp
      obtain rfl := Option.some.inj hp
      trivial
    · cases h
  cases insn with
  | stx width dst src off =>
    simp only [Insn.write] at hwrite
    split at hwrite
    · next p n hp hn =>
      obtain ⟨rfl, rfl⟩ := Prod.mk.inj (Option.some.inj hwrite)
      exact hvalid h hp
    · cases hwrite
  | st width dst off imm =>
    simp only [Insn.write] at hwrite
    obtain ⟨p, hp, hpair⟩ := Option.map_eq_some_iff.mp hwrite
    obtain ⟨rfl, rfl⟩ := Prod.mk.inj hpair
    have hexec : execStoreWith st st.stackStore width dst off (some (signExtendImm imm)) =
        some st' := h
    exact hvalid hexec hp
  | _ => simp [Insn.isStore] at hstore

/-- **A load of an access that finds a value gives that value.** -/
theorem execInsn_ldx {st : BpfState} {a : Access} {v : BitVec 64} {dst src : Reg} {off : BitVec 32}
    (hplace : (st.regs src).place off = some a.place) (hvalid : a.Valid) (hv : st.peek a = some v) :
    execInsn st (.ldx a.width dst src off) = some (st.setReg dst (.scalar v)) := by
  obtain ⟨place, width⟩ := a
  simp only [execInsn, execLdxWith]
  cases hsrc : st.regs src with
  | framePtr ptrOff =>
    rw [hsrc] at hplace
    obtain rfl := Option.some.inj hplace
    have hload : st.stackLoad (ptrOff + signExtendToInt off) width = some v :=
      BpfState.stackLoad_eq_some.mpr ⟨hvalid, hv⟩
    simp [hload, BpfState.setNumber]
  | ringBufPtr id =>
    rw [hsrc] at hplace
    obtain rfl := Option.some.inj hplace
    have hread : ringbufRead st.ringbuf id (signExtendToInt off) width = some v := hv
    simp [hread]
  | _ =>
    rw [hsrc] at hplace
    simp [RegVal.place] at hplace

end BpfVerifier.Fstar
