import BpfVerifier.Fstar.Taint

/-!
# Properties/Environment — proved specifications when the environment answers

A specification is proved of runs in which helpers return 0, looked-up elements and the context read
as 0, and r1–r5 outlive a call.  It holds of the runs with any environment that do not depend on its
answers, when neither the postcondition does (`post_of_blindRun`).
-/

namespace BpfVerifier.Fstar

variable {env : ℕ → Answer} {prog : BpfProgram} {spec : BpfSpec} {init final : BpfState} {n : ℕ}

/-- The taint a number of steps into a run with an environment. -/
def taintAfter (env : ℕ → Answer) (prog : BpfProgram) (init : BpfState) : ℕ → Taint
  | 0 => Taint.start
  | n + 1 =>
    match (envInterp env prog).after n (0, init) with
    | some c =>
      match fetchAt prog c.2.pc with
      | some insn => taintStep (taintAfter env prog init n) c.2 insn
      | none => taintAfter env prog init n
    | none => taintAfter env prog init n

/-- None of the first `n` instructions executed depends on what the environment answered. -/
def blindRun (env : ℕ → Answer) (prog : BpfProgram) (init : BpfState) (n : ℕ) : Bool :=
  (List.range n).all fun k => ((envInterp env prog).after k (0, init)).all fun c =>
    (fetchAt prog c.2.pc).all fun insn => blindTo (taintAfter env prog init k) insn

theorem blindTo_of_blindRun (h : blindRun env prog init n = true) {k : ℕ} (hk : k < n)
    {c : ℕ × BpfState} {insn : Insn} (hc : (envInterp env prog).after k (0, init) = some c)
    (hinsn : fetchAt prog c.2.pc = some insn) :
    blindTo (taintAfter env prog init k) insn = true := by
  have hat := List.all_eq_true.mp h k (List.mem_range.mpr hk)
  simpa [hc, hinsn] using hat

theorem taintAfter_succ {c : ℕ × BpfState} {insn : Insn}
    (hc : (envInterp env prog).after n (0, init) = some c)
    (hinsn : fetchAt prog c.2.pc = some insn) :
    taintAfter env prog init (n + 1) = taintStep (taintAfter env prog init n) c.2 insn := by
  simp only [taintAfter, hc, hinsn]

/-- Past EXIT the taint stays. -/
theorem taintAfter_of_halted {k : ℕ} {c : ℕ × BpfState}
    (hc : (envInterp env prog).after k (0, init) = some c) (hhalted : (envInterp env prog).Halted c)
    (hk : k ≤ n) : taintAfter env prog init n = taintAfter env prog init k := by
  induction hk with
  | refl => rfl
  | @step n hkn ih =>
    rw [taintAfter, ← ih]
    cases hn : (envInterp env prog).after n (0, init) with
    | none => rfl
    | some c' =>
      -- the run takes no step from `c`, so it is still there
      obtain ⟨m, rfl⟩ := Nat.exists_eq_add_of_le hkn
      rw [Interp.after_add, hc] at hn
      obtain rfl := Interp.after_of_halted hhalted hn
      obtain rfl := Option.some.inj hn
      obtain ⟨insn, hfetch, hexit⟩ := hhalted
      obtain rfl := Insn.isExit_iff.mp hexit
      have hinsn : fetchAt prog c.2.pc = some .exit := hfetch
      simp only [hinsn, taintStep]

/-- **The plain run keeps step** with a run that does not depend on the environment. -/
theorem agrees_after (hblind : blindRun env prog init n = true) {k : ℕ} (hk : k ≤ n)
    {c : ℕ × BpfState} (hc : (envInterp env prog).after k (0, init) = some c) :
    ∃ t, (interp prog).after k init = some t ∧ Agrees (taintAfter env prog init k) c.2 t := by
  refine Interp.after_sim
    (R := fun k (c : ℕ × BpfState) t => Agrees (taintAfter env prog init k) c.2 t) ?_ ?_ hk hc
  · exact Agrees.start init
  · intro k c c' t hk hc hnext _ hagree
    obtain ⟨insn, hfetch, hexit, hexec⟩ := Interp.next_eq_some_iff.mp hnext
    have hinsn : fetchAt prog c.2.pc = some insn := hfetch
    obtain ⟨s', hs', rfl⟩ := Option.map_eq_some_iff.mp hexec
    obtain ⟨t', ht', hagree'⟩ := agree_step hagree (blindTo_of_blindRun hblind hk hc hinsn) hs'
    refine ⟨t', ?_, taintAfter_succ hc hinsn ▸ hagree'⟩
    exact Interp.next_eq_some_iff.mpr
      ⟨insn, (congrArg (fetchAt prog) hagree.pc).symm.trans hinsn, hexit, ht'⟩

/-- **A proved specification holds of a run with any environment** when no instruction of the run
and not the postcondition depends on what the environment answered. -/
theorem post_of_blindRun (h : programSatisfies prog spec) (hpre : spec.pre init)
    (hrun : execProgramEnv env init.entry prog prog.length = some final)
    (hblind : blindRun env prog init.entry prog.length = true)
    (hpost : ∀ t, Agrees (taintAfter env prog init.entry prog.length) final t → spec.post t →
      spec.post final) : spec.post final := by
  obtain ⟨c, hc, rfl⟩ := Option.map_eq_some_iff.mp hrun
  obtain ⟨k, hk, hafter, hhalted⟩ := Interp.run_eq_some_iff.mp hc
  obtain ⟨t, ht, hagree⟩ := agrees_after hblind (Nat.le_of_lt hk) hafter
  have hhalted' : (interp prog).Halted t := by
    obtain ⟨insn, hfetch, hexit⟩ := hhalted
    exact ⟨insn, (congrArg (fetchAt prog) hagree.pc).symm.trans hfetch, hexit⟩
  rw [taintAfter_of_halted hafter hhalted (Nat.le_of_lt hk)] at hpost
  refine hpost t hagree (meets_iff.mp (h init hpre) t ?_)
  exact Interp.run_eq_some_iff.mpr ⟨k, hk, ht, hhalted'⟩

/-- Keeps a number over a call and returns it. -/
def keepsNumber : BpfProgram :=
  [.alu64Imm .mov .r6 7, .call .KTIME_GET_NS, .alu64Reg .mov .r0 .r6, .exit]

/-- An environment that answers with one number everywhere. -/
def answers (n : BitVec 64) : ℕ → Answer := fun _ => ⟨n, n, fun _ => .scalar n⟩

theorem post_of_blindRun_keepsNumber :
    ∃ final, execProgramEnv (answers 42) BpfState.blank.entry keepsNumber 4 = some final ∧
      (BpfSpec.returnsValue 7).post final := by
  have hsat : programSatisfies keepsNumber (.returnsValue 7) := fun _ _ => rfl
  obtain ⟨final, hfinal⟩ :
      ∃ final, execProgramEnv (answers 42) BpfState.blank.entry keepsNumber 4 = some final :=
    ⟨_, rfl⟩
  refine ⟨final, hfinal, post_of_blindRun hsat trivial hfinal (by decide +kernel) ?_⟩
  intro t hagree hpost
  exact (hagree.clean (by decide +kernel)).symm.trans hpost

/-- Returns the time. -/
def returnsTime : BpfProgram := [.call .KTIME_GET_NS, .exit]

/-- `returnsTime` is proved to return 0, and returns 42 when the time is 42. -/
theorem not_post_of_environment :
    ¬ ∀ (prog : BpfProgram) (spec : BpfSpec) (env : ℕ → Answer) (init final : BpfState),
      programSatisfies prog spec → spec.pre init →
      execProgramEnv env init.entry prog prog.length = some final → spec.post final := by
  intro hall
  have hsat : programSatisfies returnsTime (.returnsValue 0) := fun _ _ => rfl
  have hr0 : RegVal.scalar 42 = .scalar 0 :=
    hall returnsTime (.returnsValue 0) (answers 42) .blank _ hsat trivial rfl
  exact absurd hr0 (by decide)

end BpfVerifier.Fstar
