import BpfVerifier.Analysis.StackLockstep

/-!
# Properties/Witness — the Rust stack-bounds witness and the F\* check

The module a programme is verified by holds the witness steps of the Rust analysis, each checked by
itself.  They establish `stack_bounds_check` when the r10 that the Rust join puts back makes no
difference, and for accepted programmes only then (`analyse_establishes`).
-/

namespace BpfVerifier.StackBounds

open Fstar (BpfProgram Insn stackBoundsCheck sbScanner)

/-- **The witness establishes the check**: all of it holds exactly for the programmes the check
accepts, and it states what the loop of the check holds. -/
structure Establishes (instructions : List BpfInsn) (prog : BpfProgram) : Prop where
  accepts : ((analyse instructions).passed = true ∧
      ∀ step ∈ (analyse instructions).steps, step.holds = true) ↔ stackBoundsCheck prog = true
  states : (analyse instructions).passed = true → ∀ step ∈ (analyse instructions).steps,
    ∃ abs targets, loopAt prog step.pc = some (abs, targets) ∧
      toAbsStateSb step.stateFstar = abs ∧
        ∀ i : Int, step.pc ≤ i → toTargetMapSb step.targetsFstar i = targets i

/-- A step that states what the loop holds is checked like the loop. -/
theorem holds_iff_of_agree {k : ℕ} {s : RegState × TargetMap}
    {t : Fstar.AbsState × Scanner.Targets Fstar.AbsState} (h : Agree k s t) {insn : BpfInsn}
    {finsn : Insn} (hinsn : insn.toFstar = some finsn) :
    (WitnessStep.mk k insn.toFstar s.1.toFstar s.2.toFstar).holds = true ↔
      (sbScanner.checkInsn t.1 finsn k t.2).isSome = true := by
  have hat : toTargetMapSb s.2.toFstar k = t.2 k := h.targets k (Int.le_refl _)
  have hmerged : merged (t.1, toTargetMapSb s.2.toFstar) k = merged t k := by
    unfold merged Scanner.applyTargets
    dsimp only
    rw [hat]
    cases t.2 k <;> rfl
  rw [WitnessStep.holds, hinsn, Option.any_some, toAbsStateSb_toFstar, h.state,
    isSome_checkInsn (t.1, toTargetMapSb s.2.toFstar), isSome_checkInsn t, hmerged]

/-- **Where putting r10 back makes no difference, the witness establishes the check.** -/
theorem Harmless.establishes {instructions : List BpfInsn} {prog : BpfProgram}
    (hharmless : Harmless prog) (hemit : emit instructions = some prog)
    (hlen : instructions.length + 2 ^ 15 ≤ 2 ^ 31) : Establishes instructions prog := by
  have hlength := length_of_emit hemit
  have hend := (lockstep hemit hlen hharmless (Nat.le_refl _)).1
  -- what is written for an instruction agrees with the loop, which gets there too
  have hstep {k : ℕ} {s : RegState × TargetMap} {insn : BpfInsn}
      (hs : stateAt instructions k = some s) (hinsn : instructions[k]? = some insn) :
      ∃ t, loopAt prog k = some t ∧ Agree k s t := by
    have hk : k < instructions.length := (List.getElem?_eq_some_iff.mp hinsn).1
    obtain ⟨hsome, hagree⟩ := lockstep hemit hlen hharmless (Nat.le_of_lt hk)
    rw [hs] at hsome
    obtain ⟨t, ht⟩ := Option.isSome_iff_exists.mp hsome.symm
    exact ⟨t, ht, hagree hk s t hs ht⟩
  refine ⟨⟨?_, ?_⟩, ?_⟩
  · rintro ⟨hpassed, -⟩
    obtain ⟨s, hs⟩ := (passed_iff instructions).mp hpassed
    rw [hs] at hend
    rw [stackBoundsCheck_iff, hlength]
    exact Option.isSome_iff_exists.mp hend.symm
  · intro haccepts
    obtain ⟨tend, htend⟩ := (stackBoundsCheck_iff prog).mp haccepts
    rw [hlength] at htend
    rw [htend] at hend
    refine ⟨(passed_iff instructions).mpr (Option.isSome_iff_exists.mp hend), fun step hmem => ?_⟩
    obtain ⟨k, s, insn, hs, hinsn, rfl⟩ := mem_steps_iff.mp hmem
    have hk : k < instructions.length := (List.getElem?_eq_some_iff.mp hinsn).1
    obtain ⟨t, ht, hagree⟩ := hstep hs hinsn
    obtain ⟨finsn, hfinsn, hto⟩ := toFstar_of_emit hemit hinsn
    rw [holds_iff_of_agree hagree hto, ← loopAt_succ hfinsn ht]
    by_contra hnone
    have hsucc : loopAt prog (k + 1) = none := by simpa using hnone
    rw [loopAt_of_none hk hsucc] at htend
    cases htend
  · intro hpassed step hmem
    obtain ⟨k, s, insn, hs, hinsn, rfl⟩ := mem_steps_iff.mp hmem
    obtain ⟨t, ht, hagree⟩ := hstep hs hinsn
    exact ⟨t.1, t.2, ht, by rw [toAbsStateSb_toFstar, hagree.state], hagree.targets⟩

/-- **For an accepted programme that is the only way.** -/
theorem Establishes.harmless {instructions : List BpfInsn} {prog : BpfProgram}
    (h : Establishes instructions prog) (haccepts : stackBoundsCheck prog = true)
    (hemit : emit instructions = some prog) (hlen : instructions.length + 2 ^ 15 ≤ 2 ^ 31) :
    Harmless prog := by
  have hlength := length_of_emit hemit
  have hpassed := (h.accepts.mpr haccepts).1
  obtain ⟨send, hsend⟩ := (passed_iff instructions).mp hpassed
  obtain ⟨tend, htend⟩ := (stackBoundsCheck_iff prog).mp haccepts
  -- both get to every instruction, and hold the same there
  have hreach {k : ℕ} (hk : k ≤ instructions.length) : ∃ s t,
      stateAt instructions k = some s ∧ loopAt prog k = some t := by
    have hs : stateAt instructions k ≠ none := fun hnone => by
      rw [stateAt_of_none hk hnone] at hsend
      cases hsend
    have ht : loopAt prog k ≠ none := fun hnone => by
      rw [hlength, loopAt_of_none hk hnone] at htend
      cases htend
    obtain ⟨s, hs⟩ := Option.ne_none_iff_exists'.mp hs
    obtain ⟨t, ht⟩ := Option.ne_none_iff_exists'.mp ht
    exact ⟨s, t, hs, ht⟩
  have hagree {k : ℕ} (hk : k < instructions.length) {s : RegState × TargetMap}
      {t : Fstar.AbsState × Scanner.Targets Fstar.AbsState} (hs : stateAt instructions k = some s)
      (ht : loopAt prog k = some t) : Agree k s t := by
    have hmem : WitnessStep.mk k instructions[k].toFstar s.1.toFstar s.2.toFstar ∈
        (analyse instructions).steps :=
      mem_steps_iff.mpr ⟨k, s, _, hs, List.getElem?_eq_getElem hk, rfl⟩
    obtain ⟨abs, targets, hloop, hstate, htargets⟩ := h.states hpassed _ hmem
    obtain rfl := Option.some.inj (ht.symm.trans hloop)
    exact ⟨(toAbsStateSb_toFstar s.1).symm.trans hstate, htargets⟩
  intro k finsn t hfinsn ht
  have hk : k < instructions.length := by
    rw [← hlength]
    exact (List.getElem?_eq_some_iff.mp hfinsn).1
  have hget : instructions[k]? = some instructions[k] := List.getElem?_eq_getElem hk
  obtain ⟨finsn', hfinsn', hto⟩ := toFstar_of_emit hemit hget
  obtain rfl := Option.some.inj (hfinsn.symm.trans hfinsn')
  obtain ⟨s, _, hs, -⟩ := hreach (Nat.le_of_lt hk)
  obtain ⟨s', t', hs', ht'⟩ := hreach hk
  have hat := hagree hk hs ht
  have hsound : Sound k s := sound_stateAt (by omega) hs
  have hnext : next s instructions[k] k = some s' := by
    rwa [stateAt_succ, hs, Option.bind_some, hget, Option.bind_some] at hs'
  have hcheck : sbScanner.checkInsn t.1 finsn k t.2 = some t' := by
    rwa [loopAt_succ hfinsn ht] at ht'
  have hiff := agree_succ_iff hat hsound (by omega) hto hnext hcheck
  refine ⟨?_, fun hlt => (hiff.mp (hagree (by omega) hs' ht')).1,
    fun hlt => (hiff.mp (hagree (by omega) hs' ht')).2⟩
  rw [← hat.isSome_next hsound (by omega) hto, ← isSome_checkInsn, hnext, hcheck]
  rfl

/-- **The witness establishes the check where putting r10 back makes no difference**, and for a
programme the check accepts only there. -/
theorem analyse_establishes {instructions : List BpfInsn} {prog : BpfProgram}
    (hemit : emit instructions = some prog) (hlen : instructions.length + 2 ^ 15 ≤ 2 ^ 31) :
    (Harmless prog → Establishes instructions prog) ∧
      (stackBoundsCheck prog = true → Establishes instructions prog → Harmless prog) :=
  ⟨fun h => h.establishes hemit hlen, fun haccepts h => h.harmless haccepts hemit hlen⟩

/-- A programme that does not write r10. -/
theorem harmless_of_keepsR10 {prog : BpfProgram} (hkeeps : Fstar.keepsR10 prog = true) :
    Harmless prog := by
  intro k insn t hinsn ht
  obtain ⟨habs, hsaved⟩ := Fstar.stateAt_r10 hkeeps ht
  have hmerged : merged t k .r10 = .AbsFramePtr 0 :=
    Scanner.applyTargets_of_closed (p := fun abs : Fstar.AbsState => abs .r10 = .AbsFramePtr 0)
      Fstar.joinStates_r10 habs hsaved k
  have hsame : restored t k = merged t k := by
    unfold restored
    rw [restoreR10_eq_iff.mpr hmerged, ite_self]
  refine ⟨by rw [hsame], fun _ => by rw [hsame], ?_⟩
  intro _ fall target state existing htr hlt hexisting
  obtain ⟨-, rfl⟩ := fall_of_edge htr
  exact Fstar.joinStates_r10 (hsaved target existing hexisting) hmerged

/-- `if r0 = 0 goto +1; *(r10 - 8) = 0; exit`. -/
def storesOnOnePath : List BpfInsn :=
  [.jmpImm .jeq .r0 0 1, .storeImm .dw .r10 (-8) 0, .ret]

theorem establishes_storesOnOnePath : Establishes storesOnOnePath
    [.jmp64Imm .jeq .r0 0 1, .st .dw .r10 (-8) 0, .exit] :=
  (analyse_establishes (by decide) (by decide)).1 (harmless_of_keepsR10 (by decide))

/-- `r10 += 8; if r0 = 0 goto +0; r2 = 0; *(r10 - 8) = 0; exit`: the join puts r10 back, and the
store that ends above the frame passes. -/
def movesFramePointer : List BpfInsn :=
  [.aluImm .add .r10 8, .jmpImm .jeq .r0 0 0, .aluImm .mov .r2 0, .storeImm .dw .r10 (-8) 0, .ret]

/-- **The witness does not establish the check of every programme**: all of it holds for one that
the check rejects. -/
theorem not_establishes : ¬∀ (instructions : List BpfInsn) (prog : BpfProgram),
    emit instructions = some prog → Establishes instructions prog := by
  intro h
  have hestablishes := h movesFramePointer
    [.alu64Imm .add .r10 8, .jmp64Imm .jeq .r0 0 0, .alu64Imm .mov .r2 0, .st .dw .r10 (-8) 0,
      .exit] (by decide)
  have haccepts := hestablishes.accepts.mp ⟨by decide +kernel, by decide +kernel⟩
  have hrejects : stackBoundsCheck [.alu64Imm .add .r10 8, .jmp64Imm .jeq .r0 0 0,
      .alu64Imm .mov .r2 0, .st .dw .r10 (-8) 0, .exit] = false := by decide +kernel
  rw [hrejects] at haccepts
  cases haccepts

end BpfVerifier.StackBounds
