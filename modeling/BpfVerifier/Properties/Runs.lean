import BpfVerifier.Fstar.Executors

/-!
# Properties/Runs — which instructions a run executes, and which wrote its registers

A run executes the instruction at its counter as long as no jump leads below zero, and only then
(`runsAtPc_iff`); its origins are the last instructions that wrote the registers
(`regOrigins_last`).  Both hold of the plain executor and of the one under a schedule.
-/

namespace BpfVerifier.Fstar

/-! ## The instruction at the programme counter -/

/-- A programme counter inside a programme. -/
def Inside (prog : BpfProgram) (pc : Int) : Prop := 0 ≤ pc ∧ pc < prog.length

instance (prog : BpfProgram) (pc : Int) : Decidable (Inside prog pc) :=
  inferInstanceAs (Decidable (_ ∧ _))

/-- The instruction at a programme counter; there is none outside the programme. -/
def insnAt (prog : BpfProgram) (pc : Int) : Option Insn := if 0 ≤ pc then prog[pc.toNat]? else none

theorem insnAt_isSome {prog : BpfProgram} {pc : Int} :
    (insnAt prog pc).isSome ↔ Inside prog pc := by
  unfold insnAt Inside
  split
  · rw [Option.isSome_iff_ne_none, ne_eq, List.getElem?_eq_none_iff]
    omega
  · simp only [Option.isSome_none, Bool.false_eq_true, false_iff]
    omega

theorem fetchAt_of_nonneg {prog : BpfProgram} {pc : Int} (h : 0 ≤ pc) :
    fetchAt prog pc = insnAt prog pc := by
  rw [fetchAt_eq, insnAt, if_pos h]

section Runs

variable {σ : Type} (M : Interp σ Insn) (machine : σ → BpfState) (prog : BpfProgram)

/-- **A run executes the instruction at its counter, and gives nothing once that is outside.** -/
structure RunsAtPc (s : σ) : Prop where
  executes : ∀ {n u}, M.after n s = some u → M.fetch u = insnAt prog (machine u).pc
  stops : ∀ {n u}, M.after n s = some u → ¬Inside prog (machine u).pc →
    ∀ fuel, M.run fuel s = none

/-- No jump of a run leads below zero, and the run starts at or above it. -/
structure StaysAbove (s : σ) : Prop where
  start : 0 ≤ (machine s).pc
  jumps : ∀ {n u insn off}, M.after n s = some u → M.fetch u = some insn →
    insn.taken (machine u) = some off → 0 ≤ (machine u).takenPc off

variable {M machine prog} {s : σ}

theorem StaysAbove.pc_nonneg (hM : IsExecutor M machine prog) (h : StaysAbove M machine s) {n : ℕ}
    {u : σ} (hu : M.after n s = some u) : 0 ≤ (machine u).pc := by
  refine Interp.after_invariant (I := fun _ u => 0 ≤ (machine u).pc) h.start ?_ hu
  intro n u u' hu hnext hpc
  obtain ⟨insn, hfetch, -, -⟩ := Interp.next_eq_some_iff.mp hnext
  rw [(hM.goes hfetch hnext).1, Insn.goesTo]
  cases htaken : insn.taken (machine u) with
  | none => exact Int.le_add_one hpc
  | some off => exact h.jumps hu hfetch htaken

/-- A run that comes to a state where nothing is fetched gives nothing. -/
theorem run_eq_none_of_fetch {n : ℕ} {u : σ} (hu : M.after n s = some u) (hfetch : M.fetch u = none)
    (fuel : ℕ) : M.run fuel s = none := by
  refine Interp.run_eq_none_iff.mpr ?_
  rcases Nat.lt_or_ge n fuel with hlt | hle
  · refine Or.inr ⟨n, hlt, u, hu, ?_, Interp.next_of_fetch_none hfetch⟩
    rintro ⟨i, hi, -⟩
    rw [hfetch] at hi
    cases hi
  · exact Or.inl (Interp.exists_after_of_le hle hu)

/-- **A run executes the instruction at its counter exactly when no jump of it leads below zero**,
or there is no instruction at all. -/
theorem IsExecutor.runs_iff_stays (hM : IsExecutor M machine prog) :
    RunsAtPc M machine prog s ↔ prog = [] ∨ StaysAbove M machine s := by
  constructor
  · intro h
    by_cases hprog : prog = []
    · exact Or.inl hprog
    -- below zero the first instruction is fetched
    have hpos {n : ℕ} {u : σ} (hu : M.after n s = some u) : 0 ≤ (machine u).pc := by
      by_contra hneg
      have hfetch := h.executes hu
      rw [hM.fetch, fetchAt_eq, insnAt, if_neg hneg, Int.toNat_of_nonpos (by omega)] at hfetch
      exact hprog (List.length_eq_zero_iff.mp (by simpa using hfetch))
    refine Or.inr ⟨hpos (n := 0) rfl, fun {n u insn off} hu hfetch htaken => ?_⟩
    obtain ⟨u', hnext⟩ := hM.jumps hfetch htaken
    have hpc : (machine u').pc = (machine u).takenPc off := by
      rw [(hM.goes hfetch hnext).1, Insn.goesTo, htaken]
    have hu' : M.after (n + 1) s = some u' := by
      rw [Interp.after_succ_eq, hu]
      exact hnext
    exact hpc ▸ hpos hu'
  · rintro (rfl | h)
    · have hfetch (u : σ) : M.fetch u = none := by simp [hM.fetch, fetchAt]
      refine ⟨fun {n u} _ => ?_, fun hu _ => run_eq_none_of_fetch hu (hfetch _)⟩
      rw [hfetch, insnAt]
      split <;> rfl
    · have hfetch {n : ℕ} {u : σ} (hu : M.after n s = some u) :
          M.fetch u = insnAt prog (machine u).pc :=
        (hM.fetch u).trans (fetchAt_of_nonneg (h.pc_nonneg hM hu))
      refine ⟨hfetch, fun hu hout => run_eq_none_of_fetch hu ?_⟩
      rw [hfetch hu, ← Option.not_isSome_iff_eq_none, insnAt_isSome]
      exact hout

end Runs

/-- **The executors run the instruction at pc, and stop outside the programme, exactly when** the
programme is empty or the run starts at or above zero and no jump it takes leads below. -/
theorem runsAtPc_iff (prog : BpfProgram) (st : BpfState) :
    (RunsAtPc (interp prog) id prog st ↔ prog = [] ∨ StaysAbove (interp prog) id st) ∧
    ∀ sched, RunsAtPc (pathInterp prog) Prod.fst prog (st, sched) ↔
      prog = [] ∨ StaysAbove (pathInterp prog) Prod.fst (st, sched) :=
  ⟨(isExecutor_interp prog).runs_iff_stays, fun _ => (isExecutor_pathInterp prog).runs_iff_stays⟩

/-- `r0 += 1; if r0 < 2 goto -3; exit`: the jump leads to −1. -/
def jumpsBelow : BpfProgram := [.alu64Imm .add .r0 1, .jmp64Imm .jlt .r0 2 (-3), .exit]

/-- **At −1 the programme starts again**, and the run gets to its EXIT. -/
theorem not_runsAtPc :
    ¬∀ (prog : BpfProgram) (st : BpfState), RunsAtPc (interp prog) id prog st := by
  intro h
  have hnone := (h jumpsBelow BpfState.blank).stops (n := 2) rfl (by decide) 6
  exact absurd hnone (by decide +kernel)

/-! ## Origins -/

/-- The instruction writes a register. -/
def Insn.sets (r : Reg) (insn : Insn) : Bool := insn.result = some r

theorem originsAfter_apply (insn : Insn) (st : BpfState) (r : Reg) :
    insn.originsAfter st r = if insn.sets r then st.origin else st.regOrigins r := by
  unfold Insn.originsAfter Insn.sets
  cases hres : insn.result with
  | none => simp
  | some r' => simp [BpfState.originsAt, eq_comm]

/-- **An origin is the index of the last executed instruction that wrote the register**, or as at
the start when there is none. -/
structure LastOrigin {σ : Type} (M : Interp σ Insn) (machine : σ → BpfState) (prog : BpfProgram)
    (s : σ) (n : ℕ) (r : Reg) (origin : ℕ) : Prop where
  written : ∀ {k u}, M.LastStep (Insn.sets r) s n k u →
    origin = (machine u).pc.toNat ∧ (prog[origin]?).any (Insn.sets r) = true
  kept : (∀ j v, j < n → M.after j s = some v → (M.fetch v).any (Insn.sets r) = false) →
    origin = (machine s).regOrigins r

theorem IsExecutor.lastOrigin {σ : Type} {M : Interp σ Insn} {machine : σ → BpfState}
    {prog : BpfProgram} (hM : IsExecutor M machine prog) {s t : σ} {n : ℕ}
    (ht : M.after n s = some t) (r : Reg) :
    LastOrigin M machine prog s n r ((machine t).regOrigins r) := by
  have hremembers := Interp.after_remembers (p := Insn.sets r)
    (f := fun u => (machine u).regOrigins r) (g := fun u => (machine u).origin) (s := s)
    (fun {u u'} hnext => by
      obtain ⟨insn, hfetch, -, -⟩ := Interp.next_eq_some_iff.mp hnext
      rw [(hM.goes hfetch hnext).2, originsAfter_apply, hfetch, Option.any_some]) ht
  rcases hremembers with ⟨k, u, hlast, horigin⟩ | ⟨hnone, horigin⟩
  · refine ⟨fun {k' u'} hlast' => ?_, fun hnone => ?_⟩
    · obtain ⟨rfl, rfl⟩ := hlast.unique hlast'
      -- a counter below zero selects instruction 0, and is recorded as 0
      have hindex : (machine u).origin = (machine u).pc.toNat := by
        unfold BpfState.origin
        split <;> omega
      have hpasses := hlast.passes
      rw [hM.fetch, fetchAt_eq] at hpasses
      rw [horigin, hindex]
      exact ⟨rfl, hpasses⟩
    · have hfalse := hnone k u hlast.lt hlast.reached
      rw [hlast.passes] at hfalse
      cases hfalse
  · refine ⟨fun {k u} hlast => ?_, fun _ => horigin⟩
    have hfalse := hnone k u hlast.lt hlast.reached
    rw [hlast.passes] at hfalse
    cases hfalse

/-- **Register provenance is exact**, in every run of every programme, under every schedule. -/
theorem regOrigins_last (prog : BpfProgram) (init : BpfState) (n : ℕ) (r : Reg) :
    (∀ st, (interp prog).after n init = some st →
      LastOrigin (interp prog) id prog init n r (st.regOrigins r)) ∧
    ∀ sched c, (pathInterp prog).after n (init, sched) = some c →
      LastOrigin (pathInterp prog) Prod.fst prog (init, sched) n r (c.1.regOrigins r) :=
  ⟨fun _ hst => (isExecutor_interp prog).lastOrigin hst r,
    fun _ _ hc => (isExecutor_pathInterp prog).lastOrigin hc r⟩

/-- `r6 = 5; call MAP_LOOKUP_ELEM; r6 = r0; exit`. -/
def keepsResult : BpfProgram :=
  [.ldImm64 .r6 5, .call .MAP_LOOKUP_ELEM, .alu64Reg .mov .r6 .r0, .exit]

theorem regOrigins_keepsResult :
    (∃ st, (interp keepsResult).after 3 BpfState.blank = some st ∧
      LastOrigin (interp keepsResult) id keepsResult BpfState.blank 3 .r6 (st.regOrigins .r6)) ∧
    ∃ c, (pathInterp keepsResult).after 3 (BpfState.blank, [.AsNull]) = some c ∧
      LastOrigin (pathInterp keepsResult) Prod.fst keepsResult (BpfState.blank, [.AsNull]) 3 .r6
        (c.1.regOrigins .r6) :=
  ⟨⟨_, rfl, (regOrigins_last keepsResult BpfState.blank 3 .r6).1 _ rfl⟩,
    ⟨_, rfl, (regOrigins_last keepsResult BpfState.blank 3 .r6).2 _ _ rfl⟩⟩

end BpfVerifier.Fstar
