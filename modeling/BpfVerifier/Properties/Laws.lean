import BpfVerifier.Fstar.Schedules
import BpfVerifier.Properties.Fuel

/-!
# Properties/Laws — fuel and schedules that change nothing

More fuel changes no result, and the fuel `programSatisfies` gives is all that a programme without
backward jumps can use (`execProgram_fuel`); NonNull choices at the end of a schedule change no run
(`execProgramPath_padding`).
-/

namespace BpfVerifier.Fstar

/-! ## Fuel -/

/-- Without backward jumps a run is past the programme after one step for each instruction. -/
theorem stuck_of_forwardOnly {prog : BpfProgram} {st : BpfState} (hfwd : ForwardOnly prog = true)
    (hpc : 0 ≤ st.pc) :
    ∀ u, (interp prog).after prog.length st = some u → (interp prog).Stuck u := by
  intro u hu
  have hle := pc_add_le_of_after hfwd hu
  have hpast : ¬u.pc.toNat < prog.length := by omega
  have hfetch : (interp prog).fetch u = none := by
    rw [← List.getElem?_eq_none_iff.mpr (Nat.le_of_not_lt hpast)]
    exact fetchAt_eq prog u.pc
  exact ⟨fun hhalted => hpast (lt_length_of_halted hhalted), Interp.next_of_fetch_none hfetch⟩

/-- **Fuel laws**: a result stays with more fuel; and a programme without backward jumps, run from
its entry or past it, gives with one unit of fuel for each instruction all it ever gives. -/
theorem execProgram_fuel :
    (∀ (st s : BpfState) (prog : BpfProgram) (f g : ℕ), f ≤ g →
      execProgram st prog f = some s → execProgram st prog g = some s) ∧
    (∀ (st : BpfState) (prog : BpfProgram), ForwardOnly prog = true → 0 ≤ st.pc →
      ∀ g ≥ prog.length, execProgram st prog prog.length = execProgram st prog g) := by
  refine ⟨fun st s prog f g hfg h => Interp.run_mono hfg h, fun st prog hfwd hpc g hg => ?_⟩
  exact (Interp.run_eq_of_stuck hg (stuck_of_forwardOnly hfwd hpc)).symm

theorem execProgram_fuel_picks :
    (∃ s, execProgram BpfState.blank.entry picks 4 = some s ∧
      execProgram BpfState.blank.entry picks 40 = some s) ∧
    execProgram BpfState.blank.entry picks 4 = execProgram BpfState.blank.entry picks 99 := by
  obtain ⟨s, hs⟩ : ∃ s, execProgram BpfState.blank.entry picks 4 = some s := ⟨_, rfl⟩
  exact ⟨⟨s, hs, execProgram_fuel.1 _ s picks 4 40 (by decide) hs⟩,
    execProgram_fuel.2 _ picks (by decide) (by decide) 99 (by decide)⟩

/-! ## Schedules -/

/-- **NonNull choices at the end of a schedule change no run**; after an empty schedule they give
the plain run. -/
theorem execProgramPath_padding (st : BpfState) (prog : BpfProgram) (fuel n : ℕ) :
    (∀ sched, execProgramPath st prog fuel (sched ++ nonnullSched n) =
      execProgramPath st prog fuel sched) ∧
    execProgramPath st prog fuel (nonnullSched n) = execProgram st prog fuel ∧
    execProgramPath st prog fuel [] = execProgram st prog fuel := by
  have hpad (sched : PathSchedule) : execProgramPath st prog fuel (sched ++ nonnullSched n) =
      execProgramPath st prog fuel sched :=
    execProgramPath_congr (choiceAt_append_nonnullSched sched n) st prog fuel
  exact ⟨hpad, (hpad []).trans (execProgramPath_nil st prog fuel),
    execProgramPath_nil st prog fuel⟩

end BpfVerifier.Fstar
