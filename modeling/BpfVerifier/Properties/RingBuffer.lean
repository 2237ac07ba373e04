import BpfVerifier.Fstar.Places
import BpfVerifier.Fstar.Schedules
import BpfVerifier.Machinery.History

/-!
# Properties/RingBuffer — what a specification of the ring buffer says

The ring buffer of a state logs its stores: after a run, under any schedule, it holds the stores the
run made through ring-buffer pointers, the latest first, on top of what it held at the start
(`ringbuf_of_run`).  So `ringbuf_write_count` counts them and `ringbuf_read_any` finds the last one
at an offset and a width.  `ringbuf_writes_exactly` counts the stores when the buffer is empty at
the start; without that precondition it counts what the buffer held as well
(`ringbufWritesExactly_counts`).
-/

namespace BpfVerifier.Fstar

/-- The slot an instruction adds to the ring buffer. -/
def Insn.record (st : BpfState) (insn : Insn) : Option RingbufSlot :=
  match insn.write st with
  | some (⟨.record id off, width⟩, v) => some ⟨id, off, width, v⟩
  | some (⟨.frame _, _⟩, _) => none
  | none => none

/-- The slot the next instruction of a run adds to the ring buffer. -/
def nextRecord (prog : BpfProgram) (st : BpfState) : Option RingbufSlot :=
  (fetchAt prog st.pc).bind (Insn.record st)

/-- **The stores through ring-buffer pointers** of a run with some fuel, in order. -/
def ringbufStores (st : BpfState) (prog : BpfProgram) (fuel : ℕ) (sched : PathSchedule) :
    List RingbufSlot :=
  ((pathInterp prog).visited fuel (st, sched)).filterMap fun c => nextRecord prog c.1

variable {st st' : BpfState} {insn : Insn} {prog : BpfProgram}

/-! ## One step -/

theorem record_eq_none (h : insn.write st = none) : insn.record st = none := by
  rw [Insn.record, h]

theorem record_of_ringbuf {id : ℕ} {off : Int} {width : MemWidth} {v : BitVec 64}
    (h : insn.write st = some (⟨.record id off, width⟩, v)) :
    insn.record st = some ⟨id, off, width, v⟩ := by
  rw [Insn.record, h]

theorem record_of_frame {off : Int} {width : MemWidth} {v : BitVec 64}
    (h : insn.write st = some (⟨.frame off, width⟩, v)) : insn.record st = none := by
  rw [Insn.record, h]

/-- A store through a ring-buffer pointer adds its slot, and one to the frame none. -/
theorem ringbuf_of_store {width : MemWidth} {dst : Reg} {off : BitVec 32} {v : Option (BitVec 64)}
    (hwrite : ∀ p n, (st.regs dst).place off = some p → v = some n →
      insn.write st = some (⟨p, width⟩, n))
    (h : execStoreWith st st.stackStore width dst off v = some st') :
    st'.ringbuf = (insn.record st).toList ++ st.ringbuf := by
  unfold execStoreWith at h
  split at h
  · next ptrOff hptr =>
    split at h
    · next n =>
      obtain ⟨-, rfl⟩ := BpfState.stackStore_eq_some.mp h
      rw [record_of_frame (hwrite _ n (by rw [hptr]; rfl) rfl)]
      rfl
    · cases h
  · next id hid =>
    split at h
    · next n =>
      obtain rfl := Option.some.inj h
      rw [record_of_ringbuf (hwrite _ n (by rw [hid]; rfl) rfl)]
      rfl
    · cases h
  · cases h

/-- A call adds nothing, whatever it returns. -/
theorem record_call (st : BpfState) (hid : HelperId) : (Insn.call hid).record st = none := by
  cases hwrite : (Insn.call hid).write st with
  | none => exact record_eq_none hwrite
  | some w =>
    have hcases := hwrite
    simp only [Insn.write] at hcases
    split at hcases
    · obtain rfl := Option.some.inj hcases
      exact record_of_frame hwrite
    · cases hcases

/-- **An instruction adds its record to the ring buffer.** -/
theorem ringbuf_of_execInsn (hcall : insn.isCall = false) (h : execInsn st insn = some st') :
    st'.ringbuf = (insn.record st).toList ++ st.ringbuf := by
  cases insn with
  | stx width dst src off =>
    refine ringbuf_of_store (v := scalarVal (st.regs src)) (fun p n hp hn => ?_) h
    simp only [Insn.write, hp, hn]
  | st width dst off imm =>
    refine ringbuf_of_store (v := some (signExtendImm imm)) (fun p n hp hn => ?_) h
    obtain rfl := Option.some.inj hn
    simp only [Insn.write, hp, Option.map_some]
  | call hid => simp [Insn.isCall] at hcall
  | _ =>
    -- the other instructions set a register or jump
    rw [record_eq_none rfl]
    cases effect_of_execInsn rfl h with
    | store _ _ hstore => simp [Insn.isStore] at hstore
    | _ => rfl

theorem returnsChoice_ringbuf (st : BpfState) (ret : HelperRet) (choice : PathChoice) :
    (st.returnsChoice ret choice).ringbuf = st.ringbuf := by
  cases choice with
  | NonNull => by_cases hret : ret = .RetMapPtr <;> simp [BpfState.returnsChoice, hret,
      BpfState.returnsMapPtr, BpfState.returnsRingBufPtr]
  | AsNull => rfl

theorem ringbuf_of_pathEffect {sched sched' : PathSchedule}
    (h : PathEffect st sched insn st' sched') :
    st'.ringbuf = (insn.record st).toList ++ st.ringbuf := by
  cases h with
  | plain hcall hexec => exact ringbuf_of_execInsn hcall hexec
  | nullable =>
    rw [record_call, returnsChoice_ringbuf, applyHelperEffect_ringbuf]
    rfl
  | number =>
    rw [record_call]
    exact applyHelperEffect_ringbuf _ _

/-- **A step of a run adds its record to the ring buffer.** -/
theorem ringbuf_of_next {c c' : BpfState × PathSchedule} (h : (pathInterp prog).next c = some c') :
    c'.1.ringbuf = (nextRecord prog c.1).toList ++ c.1.ringbuf := by
  obtain ⟨insn, hget, -, heffect⟩ := pathEffect_of_next h
  rw [nextRecord, (fetchAt_eq prog c.1.pc).trans hget, Option.bind_some]
  exact ringbuf_of_pathEffect heffect

/-! ## Runs -/

/-- **The ring buffer after a run**: the stores of the run on top of what it held. -/
theorem ringbuf_of_run {fuel : ℕ} {sched : PathSchedule} {final : BpfState}
    (h : execProgramPath st prog fuel sched = some final) :
    final.ringbuf = (ringbufStores st prog fuel sched).reverse ++ st.ringbuf := by
  obtain ⟨c, hrun, rfl⟩ := Option.map_eq_some_iff.mp h
  have hhalt {u : BpfState × PathSchedule} (h : (pathInterp prog).Halted u) :
      nextRecord prog u.1 = none := by
    obtain ⟨insn, hfetch, hexit⟩ := h
    have hfetch' : fetchAt prog u.1.pc = some insn := hfetch
    rw [nextRecord, hfetch', Insn.isExit_iff.mp hexit]
    rfl
  exact @Interp.log_of_run _ _ (pathInterp prog) _ (·.1.ringbuf) (fun c => nextRecord prog c.1)
    ringbuf_of_next hhalt fuel (st, sched) c hrun

/-- **What is read of the ring buffer after a run**: on top of what it held, the writes are counted,
and a read at an offset and a width, of any record or of one, finds the value last stored there. -/
theorem ringbuf_reads (st final : BpfState) (prog : BpfProgram) (fuel : ℕ) (sched : PathSchedule)
    (h : execProgramPath st prog fuel sched = some final) :
    ringbufWriteCount final.ringbuf =
        (ringbufStores st prog fuel sched).length + ringbufWriteCount st.ringbuf ∧
      (∀ off width, ringbufReadAny final.ringbuf off width =
        (((ringbufStores st prog fuel sched).reverse.find? fun slot =>
          slot.rbOffset = off ∧ slot.rbWidth = width).map (·.rbValue)).or
            (ringbufReadAny st.ringbuf off width)) ∧
      ∀ id off width, ringbufRead final.ringbuf id off width =
        (((ringbufStores st prog fuel sched).reverse.find? fun slot =>
          slot.rbId = id ∧ slot.rbOffset = off ∧ slot.rbWidth = width).map (·.rbValue)).or
            (ringbufRead st.ringbuf id off width) := by
  have hlog := ringbuf_of_run h
  refine ⟨?_, fun off width => ?_, fun id off width => ?_⟩
  · rw [ringbufWriteCount, hlog, List.length_append, List.length_reverse, ringbufWriteCount]
  · rw [ringbufReadAny_eq, ringbufReadAny_eq, hlog, List.find?_append, Option.map_or]
  · rw [ringbufRead_eq, ringbufRead_eq, hlog, List.find?_append, Option.map_or]

/-- `r0 = ringbuf_reserve(..); *(u32 *)(r0 + 4) = 7; r0 = 0; exit`. -/
def storesSeven : BpfProgram :=
  [.call .RINGBUF_RESERVE, .st .w .r0 4 7, .alu64Imm .mov .r0 0, .exit]

theorem ringbuf_reads_storesSeven : ∃ final,
    execProgramPath BpfState.blank.entry storesSeven 4 [.NonNull] = some final ∧
      (ringbufWriteCount final.ringbuf =
          (ringbufStores BpfState.blank.entry storesSeven 4 [.NonNull]).length +
            ringbufWriteCount BpfState.blank.entry.ringbuf ∧
        (∀ off width, ringbufReadAny final.ringbuf off width =
          (((ringbufStores BpfState.blank.entry storesSeven 4 [.NonNull]).reverse.find? fun slot =>
            slot.rbOffset = off ∧ slot.rbWidth = width).map (·.rbValue)).or
              (ringbufReadAny BpfState.blank.entry.ringbuf off width)) ∧
        ∀ id off width, ringbufRead final.ringbuf id off width =
          (((ringbufStores BpfState.blank.entry storesSeven 4 [.NonNull]).reverse.find? fun slot =>
            slot.rbId = id ∧ slot.rbOffset = off ∧ slot.rbWidth = width).map (·.rbValue)).or
              (ringbufRead BpfState.blank.entry.ringbuf id off width)) :=
  ⟨_, rfl, ringbuf_reads _ _ storesSeven 4 [.NonNull] rfl⟩

example : ringbufStores BpfState.blank.entry storesSeven 4 [.NonNull] = [⟨0, 4, .w, 7⟩] := by
  decide

/-! ## Specifications -/

theorem ringbuf_of_execProgram {final : BpfState} {fuel : ℕ}
    (h : execProgram st prog fuel = some final) :
    final.ringbuf = (ringbufStores st prog fuel []).reverse ++ st.ringbuf := by
  rw [← execProgramPath_nil] at h
  exact ringbuf_of_run h

/-- **`ringbuf_writes_exactly` counts the stores of a run that starts with an empty ring buffer.**
Alone it asks the same number of writes of every start, and is proved of no programme that finishes
from a fuller buffer. -/
theorem ringbufWritesExactly_counts (prog : BpfProgram) (n : ℕ) (p : RingbufMem → Prop) :
    (programSatisfies prog (.withPre (fun st => ringbufWriteCount st.ringbuf = 0)
        (.ringbufWritesExactly n p)) ↔
      ∀ init final : BpfState, init.ringbuf = [] →
        execProgram init.entry prog prog.length = some final →
        (ringbufStores init.entry prog prog.length []).length = n ∧
          p (ringbufStores init.entry prog prog.length []).reverse) ∧
      (programSatisfies prog (.ringbufWritesExactly n p) →
        ∀ init : BpfState, n < ringbufWriteCount init.ringbuf →
          execProgram init.entry prog prog.length = none) := by
  have hentry (init : BpfState) : init.entry.ringbuf = init.ringbuf := rfl
  constructor
  · have hpost (init final : BpfState) (hempty : init.ringbuf = [])
        (hrun : execProgram init.entry prog prog.length = some final) :
        (BpfSpec.ringbufWritesExactly n p).post final ↔
          (ringbufStores init.entry prog prog.length []).length = n ∧
            p (ringbufStores init.entry prog prog.length []).reverse := by
      have hlog := ringbuf_of_execProgram hrun
      rw [hentry, hempty, List.append_nil] at hlog
      simp only [BpfSpec.ringbufWritesExactly, BpfSpec.postOnly, hlog, ringbufWriteCount,
        List.length_reverse]
    simp only [programSatisfies, meets_iff]
    constructor
    · intro h init final hempty hrun
      have hcount : ringbufWriteCount init.ringbuf = 0 := by rw [hempty]; rfl
      exact (hpost init final hempty hrun).mp (h init ⟨hcount, trivial⟩ final hrun)
    · rintro h init ⟨hcount, -⟩ final hrun
      have hempty : init.ringbuf = [] := List.length_eq_zero_iff.mp hcount
      exact (hpost init final hempty hrun).mpr (h init final hempty hrun)
  · intro h init hlt
    cases hrun : execProgram init.entry prog prog.length with
    | none => rfl
    | some final =>
      have hcount : ringbufWriteCount final.ringbuf = n :=
        (meets_iff.mp (h init trivial) final hrun).1
      rw [ringbufWriteCount, ringbuf_of_execProgram hrun, List.length_append, hentry] at hcount
      rw [ringbufWriteCount] at hlt
      omega

end BpfVerifier.Fstar
