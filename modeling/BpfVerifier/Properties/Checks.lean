import BpfVerifier.Checks.StepSafe

/-!
# Properties/Checks — what the three passes promise of a run

Each pass is right up to what it loses on the way: a null or a frame pointer is lost over a step the
pass does not follow, and in r1–r5 over a call; a frame pointer also where states are joined; a kind
wherever a run does not go to the next instruction.  An access through what is not lost is safe
(`base_ne_null_iff_not_lost`, `stackOffsetValid_of_not_lost`), and a run in which what the passes
leave open holds gets stuck nowhere (`execProgramPath_not_stuck`).
-/

namespace BpfVerifier.Fstar

variable {prog : BpfProgram} {init : BpfState} {sched : PathSchedule} {n : ℕ}
  {c : BpfState × PathSchedule} {insn : Insn} {base : Reg}

/-- The blank state, at the entry of a programme. -/
def blankEntry : BpfState := BpfState.blank.entry

/-! ## Null dereferences -/

/-- **An access of an accepted programme is through null exactly when the null has been lost.** -/
theorem base_ne_null_iff_not_lost (hcheck : nullCheck prog = true)
    (hc : (pathInterp prog).after n (init, sched) = some c)
    (hinsn : fetchAt prog c.1.pc = some insn) (hbase : insn.base = some base) :
    c.1.regs base ≠ .null ↔ nullsLost prog init sched n base = false := by
  obtain ⟨hseen, hmarked⟩ := nullsSeen_after hcheck hc
  rw [fetchAt_eq] at hinsn
  constructor
  · intro hne
    by_contra hlost
    exact hne (hmarked base (by simpa using hlost))
  · exact base_ne_null_of_nullsSeen hcheck hseen hinsn hbase

/-- A lookup, its null test and the load it guards. -/
def guardedLoad : BpfProgram :=
  [.call .MAP_LOOKUP_ELEM, .jmp64Imm .jeq .r0 0 1, .ldx .dw .r0 .r0 0, .exit]

theorem base_ne_null_guardedLoad :
    ∃ c, (pathInterp guardedLoad).after 2 (blankEntry, [.NonNull]) = some c ∧
      (c.1.regs .r0 ≠ .null ↔ nullsLost guardedLoad blankEntry [.NonNull] 2 .r0 = false) := by
  obtain ⟨c, hc⟩ : ∃ c, (pathInterp guardedLoad).after 2 (blankEntry, [.NonNull]) = some c :=
    ⟨_, rfl⟩
  have hinsn : fetchAt guardedLoad c.1.pc = some (.ldx .dw .r0 .r0 0) := by
    cases hc
    rfl
  exact ⟨c, hc, base_ne_null_iff_not_lost (by decide) hc hinsn rfl⟩

/-- The same, with a JA around the null test. -/
def skipsGuard : BpfProgram :=
  [.call .MAP_LOOKUP_ELEM, .jmpJa 1, .jmp64Imm .jeq .r0 0 1, .ldx .dw .r0 .r0 0, .exit]

/-- `skipsGuard` is accepted, and loads through the null of a failed lookup. -/
theorem base_null_of_nullCheck :
    ¬ ∀ (prog : BpfProgram) (init : BpfState) (sched : PathSchedule) (n : ℕ)
      (c : BpfState × PathSchedule) (insn : Insn) (base : Reg), nullCheck prog = true →
      init.regs .r10 = .framePtr 0 → init.regs .r1 = .ctxPtr 0 →
      (∀ r, r ≠ .r10 → r ≠ .r1 → init.regs r ≠ .null) →
      (pathInterp prog).after n (init, sched) = some c → fetchAt prog c.1.pc = some insn →
      insn.base = some base → c.1.regs base ≠ .null := by
  intro hall
  refine hall skipsGuard blankEntry [.AsNull] 2 _ (.ldx .dw .r0 .r0 0) .r0 (by decide) rfl rfl ?_
    rfl rfl rfl rfl
  intro r _ _
  cases r <;> decide

/-! ## Stack bounds -/

/-- **An access of an accepted programme through a frame pointer that is not lost is in bounds.** -/
theorem stackOffsetValid_of_not_lost (hcheck : stackBoundsCheck prog = true)
    (h10 : init.regs .r10 = .framePtr 0) (hc : (pathInterp prog).after n (init, sched) = some c)
    (hinsn : fetchAt prog c.1.pc = some insn) {off : BitVec 32} {width : MemWidth} {ptrOff : Int}
    (hbase : insn.base = some base) (haccess : insn.access = some (off, width))
    (hlost : framesLost prog init sched n base = false) (hptr : c.1.regs base = .framePtr ptrOff) :
    stackOffsetValid (ptrOff + signExtendToInt off) width = true :=
  stackOffsetValid_of_framesSeen hcheck (framesSeen_after hcheck h10 hc)
    ((fetchAt_eq prog c.1.pc).symm.trans hinsn) hbase haccess hlost hptr

/-- A slot written and read back through a copy of r10. -/
def storesSlot : BpfProgram :=
  [.alu64Reg .mov .r2 .r10, .alu64Imm .add .r2 (-8), .st .dw .r2 0 42, .ldx .dw .r0 .r2 0, .exit]

theorem stackOffsetValid_storesSlot : stackOffsetValid (-8 + signExtendToInt 0) .dw = true := by
  obtain ⟨c, hc⟩ : ∃ c, (pathInterp storesSlot).after 2 (blankEntry, []) = some c := ⟨_, rfl⟩
  have hinsn : fetchAt storesSlot c.1.pc = some (.st .dw .r2 0 42) := by
    cases hc
    rfl
  have hptr : c.1.regs .r2 = .framePtr (-8) := by
    cases hc
    rfl
  exact stackOffsetValid_of_not_lost (by decide) rfl hc hinsn rfl rfl (by decide +kernel) hptr

/-- Where two offsets are joined, the pass keeps neither: the store is accepted. -/
def joinsOffsets : BpfProgram :=
  [.alu64Reg .mov .r2 .r10, .alu64Imm .add .r2 (-4), .alu32Imm .mov .r0 0, .jmp64Imm .jeq .r0 0 1,
    .alu64Imm .mov .r2 0, .st .dw .r2 0 42, .alu32Imm .mov .r0 0, .exit]

/-- `joinsOffsets` is accepted, and stores eight bytes at offset −4. -/
theorem stackOffset_invalid_of_stackBoundsCheck :
    ¬ ∀ (prog : BpfProgram) (init : BpfState) (sched : PathSchedule) (n : ℕ)
      (c : BpfState × PathSchedule) (insn : Insn) (base : Reg) (off : BitVec 32) (width : MemWidth)
      (ptrOff : Int), stackBoundsCheck prog = true →
      init.regs .r10 = .framePtr 0 → init.regs .r1 = .ctxPtr 0 →
      (∀ r, r ≠ .r10 → ∀ off, init.regs r ≠ .framePtr off) →
      (pathInterp prog).after n (init, sched) = some c → fetchAt prog c.1.pc = some insn →
      insn.base = some base → insn.access = some (off, width) → c.1.regs base = .framePtr ptrOff →
      stackOffsetValid (ptrOff + signExtendToInt off) width = true := by
  intro hall
  have hbad := hall joinsOffsets blankEntry [] 4 _ (.st .dw .r2 0 42) .r2 0 .dw (-4) (by decide) rfl
    rfl ?_ rfl rfl rfl rfl rfl
  · exact absurd hbad (by decide)
  · intro r hr off
    cases r <;> first | exact absurd rfl hr | (intro h; cases h)

/-! ## Stuck instructions -/

/-- The first `fuel` states of a run are in the list, and what the passes leave open holds there. -/
def needsMet (prog : BpfProgram) (init : BpfState) (sched : PathSchedule) (fuel : ℕ) : Bool :=
  (List.range fuel).all fun n => ((pathInterp prog).after n (init, sched)).all fun c =>
    (fetchAt prog c.1.pc).any fun insn => openNeeds (lostAfter prog init sched n) c.1 insn

theorem exists_of_needsMet {fuel : ℕ} (h : needsMet prog init sched fuel = true) (hn : n < fuel)
    (hc : (pathInterp prog).after n (init, sched) = some c) :
    ∃ insn, fetchAt prog c.1.pc = some insn ∧
      openNeeds (lostAfter prog init sched n) c.1 insn = true := by
  have hat := List.all_eq_true.mp h n (List.mem_range.mpr hn)
  simp only [hc, Option.all_some] at hat
  cases hfetch : fetchAt prog c.1.pc with
  | none => simp [hfetch] at hat
  | some insn => exact ⟨insn, rfl, by simpa [hfetch] using hat⟩

/-- **A run of an accepted programme whose open needs are met gets stuck nowhere**: no instruction
gives nothing, and nothing is returned only when the fuel is used up. -/
theorem execProgramPath_not_stuck (hstack : stackBoundsCheck prog = true)
    (htypes : typeCheck prog = true) (hnulls : nullCheck prog = true) (hpc : init.pc = 0)
    (h10 : init.regs .r10 = .framePtr 0) (h1 : init.regs .r1 = .ctxPtr 0) (hmaps : MapsBacked init)
    {fuel : ℕ} (hmet : needsMet prog init sched fuel = true) :
    (∀ n < fuel, ∀ c insn, (pathInterp prog).after n (init, sched) = some c →
      fetchAt prog c.1.pc = some insn → (execInsnPath c.1 insn c.2).1 ≠ none) ∧
    (execProgramPath init prog fuel sched = none →
      ∃ c, (pathInterp prog).after fuel (init, sched) = some c) := by
  have hall : AllChecked prog := ⟨hstack, htypes, hnulls⟩
  have hstep (n : ℕ) (hn : n < fuel) (c : BpfState × PathSchedule) (insn : Insn)
      (hc : (pathInterp prog).after n (init, sched) = some c)
      (hinsn : fetchAt prog c.1.pc = some insn) : (execInsnPath c.1 insn c.2).1 ≠ none := by
    obtain ⟨insn', hinsn', hopen⟩ := exists_of_needsMet hmet hn hc
    obtain rfl := Option.some.inj (hinsn'.symm.trans hinsn)
    rw [fetchAt_eq] at hinsn
    exact Option.isSome_iff_ne_none.mp (execInsnPath_isSome hall c.2 hinsn
      (allSeen_after hall hpc h10 h1 hmaps hc) hopen)
  refine ⟨hstep, fun hnone => ?_⟩
  rw [execProgramPath, Option.map_eq_none_iff, Interp.run_eq_none_iff] at hnone
  rcases hnone with hfuel | ⟨n, hn, c, hc, hstuck⟩
  · exact hfuel
  · exfalso
    obtain ⟨insn, hinsn, -⟩ := exists_of_needsMet hmet hn hc
    obtain ⟨st', hst'⟩ := Option.ne_none_iff_exists'.mp (hstep n hn c insn hc hinsn)
    -- the instruction goes on, or is EXIT
    cases hexit : insn.isExit with
    | true => exact hstuck.1 ⟨insn, hinsn, hexit⟩
    | false =>
      have hexec : execPath c insn = some (st', (execInsnPath c.1 insn c.2).2) := by
        unfold execPath
        split
        · next hpath => simp [hpath] at hst'
        · next hpath => simp_all
      have hnext : (pathInterp prog).next c = some (st', (execInsnPath c.1 insn c.2).2) :=
        Interp.next_eq_some_iff.mpr ⟨insn, hinsn, hexit, hexec⟩
      rw [hstuck.2] at hnext
      cases hnext

theorem execProgramPath_storesSlot :
    (∀ n < 5, ∀ c insn, (pathInterp storesSlot).after n (blankEntry, []) = some c →
      fetchAt storesSlot c.1.pc = some insn → (execInsnPath c.1 insn c.2).1 ≠ none) ∧
    (execProgramPath blankEntry storesSlot 5 [] = none →
      ∃ c, (pathInterp storesSlot).after 5 (blankEntry, []) = some c) := by
  refine execProgramPath_not_stuck (by decide) (by decide) (by decide) rfl rfl rfl ?_
    (by decide +kernel)
  intro r id hr
  cases r <;> cases hr

/-- A load from a slot that nothing wrote. -/
def readsUnwritten : BpfProgram := [.ldx .dw .r0 .r10 (-8), .exit]

/-- `readsUnwritten` is accepted by the three passes, and stuck at its first instruction. -/
theorem execInsnPath_stuck_of_checked :
    ¬ ∀ (prog : BpfProgram) (init : BpfState) (sched : PathSchedule) (n : ℕ)
      (c : BpfState × PathSchedule) (insn : Insn), stackBoundsCheck prog = true →
      typeCheck prog = true → nullCheck prog = true → init.pc = 0 →
      init.regs .r10 = .framePtr 0 → init.regs .r1 = .ctxPtr 0 →
      (pathInterp prog).after n (init, sched) = some c → fetchAt prog c.1.pc = some insn →
      (execInsnPath c.1 insn c.2).1 ≠ none := by
  intro hall
  exact hall readsUnwritten blankEntry [] 0 _ (.ldx .dw .r0 .r10 (-8)) (by decide) (by decide)
    (by decide) rfl rfl rfl rfl rfl rfl

end BpfVerifier.Fstar
