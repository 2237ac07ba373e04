import BpfVerifier.Checks.NullSafety
import BpfVerifier.Checks.StackBounds
import BpfVerifier.Checks.TypeSafety
import BpfVerifier.Fstar.Safe

/-!
# Properties/Guarded — the guarded executor against the plain one

Runs of the guarded executor and of the plain one stay together as long as no drifting instruction
is executed: with no evidence they agree state by state (`execProgramSafe_evidenceNone`), and with
any evidence a specification proved of guarded runs holds of plain ones
(`programSatisfies_of_safe`).
-/

namespace BpfVerifier.Fstar

variable {prog : BpfProgram} {ev : SafetyEvidence} {st : BpfState}

/-- The instructions executed in the first `n` steps of a plain run. -/
def Executes (prog : BpfProgram) (st : BpfState) (n : ℕ) (insn : Insn) : Prop :=
  ∃ k < n, ∃ u, (interp prog).after k st = some u ∧ fetchAt prog u.pc = some insn

/-- No drifting instruction is executed in the first `n` steps of a plain run. -/
def StaysTogether (prog : BpfProgram) (ev : SafetyEvidence) (st : BpfState) (n : ℕ) : Prop :=
  ∀ insn, Executes prog st n insn → insn.drifts ev = false

/-- No EXIT drifts. -/
theorem not_isExit_of_drifts {insn : Insn} (h : insn.drifts ev = true) : insn.isExit = false := by
  cases insn <;> first | rfl | simp [Insn.drifts] at h

/-! ## No evidence -/

/-- Without evidence the two executors take the same step exactly where they do not drift. -/
theorem next_evidenceNone_iff {insn : Insn} (hfetch : fetchAt prog st.pc = some insn) :
    (safeInterp prog evidenceNone).next st = (interp prog).next st ↔
      insn.drifts evidenceNone = false := by
  rw [Interp.next_of_fetch (show (safeInterp prog evidenceNone).fetch st = some insn from hfetch),
    Interp.next_of_fetch (show (interp prog).fetch st = some insn from hfetch)]
  simp only [interpWith]
  cases hdrift : insn.drifts evidenceNone with
  | true =>
    rw [not_isExit_of_drifts hdrift]
    have hiff : execInsnSafe st insn evidenceNone = execInsn st insn ↔
        insn.drifts evidenceNone = false := execInsnSafe_eq_iff rfl insn
    rw [hdrift] at hiff
    exact hiff
  | false =>
    have heq : execInsnSafe st insn evidenceNone = execInsn st insn :=
      (execInsnSafe_eq_iff rfl insn).mpr hdrift
    simp only [heq]

theorem next_evidenceNone {n k : ℕ} (h : StaysTogether prog evidenceNone st n) (hk : k < n)
    {u : BpfState} (hu : (interp prog).after k st = some u) :
    (safeInterp prog evidenceNone).next u = (interp prog).next u := by
  cases hfetch : fetchAt prog u.pc with
  | none =>
    rw [Interp.next_of_fetch_none (show (safeInterp prog evidenceNone).fetch u = none from hfetch),
      Interp.next_of_fetch_none (show (interp prog).fetch u = none from hfetch)]
  | some insn => exact (next_evidenceNone_iff hfetch).mpr (h insn ⟨k, hk, u, hu, hfetch⟩)

/-- **The guarded executor with no evidence**: it does what the plain one does at an instruction
exactly when that does not drift, goes through the same states in a number of steps exactly when
none of the instructions executed there drifts, and then gives the same result. -/
theorem execProgramSafe_evidenceNone (st : BpfState) (insn : Insn) (prog : BpfProgram)
    (fuel : ℕ) :
    (execInsnSafe st insn evidenceNone = execInsn st insn ↔ insn.drifts evidenceNone = false) ∧
      ((∀ k ≤ fuel, (safeInterp prog evidenceNone).after k st = (interp prog).after k st) ↔
        StaysTogether prog evidenceNone st fuel) ∧
      (StaysTogether prog evidenceNone st fuel →
        execProgramSafe st prog fuel evidenceNone = execProgram st prog fuel) := by
  refine ⟨execInsnSafe_eq_iff rfl insn, ⟨?_, ?_⟩, ?_⟩
  · rintro hsame executed ⟨k, hk, u, hu, hexecuted⟩
    refine (next_evidenceNone_iff hexecuted).mp ?_
    have hsafe := hsame (k + 1) hk
    rw [Interp.after_succ_eq, Interp.after_succ_eq, hsame k (Nat.le_of_lt hk), hu] at hsafe
    exact hsafe
  · exact fun h => Interp.after_congr fun k hk u hu => next_evidenceNone h hk hu
  · exact fun h => Interp.run_congr (fun _ => Iff.rfl) fun k hk u hu => next_evidenceNone h hk hu

/-- A programme without drifting instructions stays together in every run. -/
theorem staysTogether_of_all {n : ℕ} (h : prog.all (fun insn => !insn.drifts ev) = true) :
    StaysTogether prog ev st n := by
  rintro insn ⟨k, -, u, -, hinsn⟩
  rw [fetchAt_eq] at hinsn
  simpa using List.all_eq_true.mp h insn (List.mem_of_getElem? hinsn)

/-- A slot written and read back, then returned. -/
def returnsSlot : BpfProgram := [.st .dw .r10 (-8) 42, .ldx .dw .r0 .r10 (-8), .exit]

theorem execProgramSafe_returnsSlot :
    execProgramSafe BpfState.blank.entry returnsSlot 3 evidenceNone =
      execProgram BpfState.blank.entry returnsSlot 3 :=
  (execProgramSafe_evidenceNone BpfState.blank.entry .exit returnsSlot 3).2.2
    (staysTogether_of_all (by decide))

/-- A 32-bit MOV of −1. -/
def movesNegative : BpfProgram := [.alu32Imm .mov .r0 (-1), .exit]

/-- Without evidence `movesNegative` returns 2^64 − 1 when guarded, and 2^32 − 1 when not. -/
theorem execProgramSafe_ne_execProgram :
    ¬ ∀ (st : BpfState) (prog : BpfProgram) (fuel : ℕ),
      execProgramSafe st prog fuel evidenceNone = execProgram st prog fuel := by
  intro hall
  have hregs := congrArg (Option.map fun st => st.regs .r0) (hall BpfState.blank movesNegative 2)
  exact absurd hregs (by decide)

/-! ## Any evidence -/

/-- A plain run that reaches a state without drifting is a guarded run. -/
theorem after_safe {n : ℕ} {t : BpfState} (h : StaysTogether prog ev st n)
    (ht : (interp prog).after n st = some t) : (safeInterp prog ev).after n st = some t := by
  have hsim : ∃ t', (safeInterp prog ev).after n st = some t' ∧ t = t' := by
    refine Interp.after_sim (R := fun _ u u' => u = u') rfl ?_ (Nat.le_refl n) ht
    rintro k u v _ hk hu hnext - rfl
    obtain ⟨insn, hfetch, hhalt, hexec⟩ := Interp.next_eq_some_iff.mp hnext
    have hdrift := h insn ⟨k, hk, u, hu, hfetch⟩
    exact ⟨v, Interp.next_eq_some_iff.mpr
      ⟨insn, hfetch, hhalt, execInsnSafe_of_execInsn hdrift hexec⟩, rfl⟩
  obtain ⟨_, hsafe, rfl⟩ := hsim
  exact hsafe

/-- No plain run of a programme from its specified entries that reaches EXIT executes a drifting
instruction. -/
def RunsTogether (prog : BpfProgram) (spec : BpfSpec) (ev : SafetyEvidence) : Prop :=
  ∀ init, spec.pre init → ∀ n < prog.length, ∀ final,
    (interp prog).after n init.entry = some final → (interp prog).Halted final →
      StaysTogether prog ev init.entry n

/-- **What is proved of guarded runs holds of plain ones**, when these do not drift; the evidence
need not be justified for it. -/
theorem programSatisfies_of_safe {spec : BpfSpec} (hruns : RunsTogether prog spec ev)
    (hsafe : programSatisfiesSafe prog spec ev) : programSatisfies prog spec := by
  intro init hpre
  refine meets_iff.mpr fun final hfinal => ?_
  obtain ⟨n, hn, hafter, hhalted⟩ := Interp.run_eq_some_iff.mp hfinal
  have htogether := hruns init hpre n hn final hafter hhalted
  exact meets_iff.mp (hsafe init hpre) final
    (Interp.run_eq_some_iff.mpr ⟨n, hn, after_safe htogether hafter, hhalted⟩)

theorem programSatisfies_returnsSlot : programSatisfies returnsSlot (.returnsValue 42) := by
  have hruns : RunsTogether returnsSlot (.returnsValue 42) evidenceStack :=
    fun _ _ _ _ _ _ _ => staysTogether_of_all (by decide)
  exact programSatisfies_of_safe hruns fun _ _ => rfl

/-- `movesNegative` returns 2^64 − 1 in guarded runs only. -/
theorem not_programSatisfies_of_safe :
    ¬ ∀ (prog : BpfProgram) (spec : BpfSpec) (ev : SafetyEvidence),
      (ev.stackSafe = true → stackBoundsCheck prog = true) →
      (ev.typeSafe = true → typeCheck prog = true) →
      (ev.nullSafe = true → nullCheck prog = true) →
      programSatisfiesSafe prog spec ev → programSatisfies prog spec := by
  intro hall
  have hplain := hall movesNegative (.returnsValue (-1)) evidenceNone nofun nofun nofun
    fun _ _ => rfl
  have hr0 : RegVal.scalar 0xffffffff = .scalar (-1) := hplain BpfState.blank trivial
  exact absurd hr0 (by decide)

end BpfVerifier.Fstar
