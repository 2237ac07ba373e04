import BpfVerifier.Concrete.Run
import BpfVerifier.Soundness.Calls
import BpfVerifier.Soundness.Merge

/-!
# Soundness/Simulation — runs follow the visits of the walk

A step from a state that a visit describes leads to one that a successor of the visit describes
(`Accepts.simulates`).  So every state of a run of an accepted programme is described by a visit
without an error (`Program.Accepted.explains`), when the walk takes no unsound step
(`Program.Precise`) and the run never adds to a pointer another pointer that the verifier takes for
a number (`MState.Unmixed`).
-/

namespace BpfVerifier

open Explorer

variable {p : Program} {L : Layout} {sized : ℕ → BitVec 32 → BitVec 64 → Prop} {ρ : ℕ → Val}
  {state : VerifierState} {stack : StackState} {s s' s₀ : MState} {n pc : ℕ} {insn : BpfInsn}
  {env : ℕ → Oracle}

/-! ## Side conditions -/

/-- What an ALU instruction of the machine may not do: the register it reads as a number in pointer
arithmetic holds no pointer. -/
def UnmixedAt (state : VerifierState) (insn : BpfInsn) (s : MState) : Prop :=
  ∀ (op : AluOp) (is64 : Bool), insn.opcode = (if is64 then .alu64 op .reg else .alu32 op .reg) →
    ∀ q ∈ addend state insn op, (s.regs q).isPtr = false

/-- **The state adds no pointer to a pointer that the verifier takes for a number.** -/
def MState.Unmixed (p : Program) (s : MState) : Prop :=
  ∀ v, p.Visits v → v.pc = s.pc → UnmixedAt v.state v.insn s

/-- What the size recorded for a reservation made at `pc` says about the bytes reserved. -/
def Program.Sized (p : Program) (pc : ℕ) (size : BitVec 32) (reserved : BitVec 64) : Prop :=
  ∃ v, p.Visits v ∧ v.pc = pc ∧ size = reserveSize (v.state.get .r2) ∧
    ∀ x, (v.state.get .r2).tnum.knownValue = some x → reserved = x

/-! ## One step -/

/-- **A step of the machine follows a step of the verifier.** -/
theorem Accepts.simulates {o : Outcome} (h : Accepts p s.pc insn state stack n o)
    (hd : Describes L sized state stack s) (hwf : StateWf n state stack)
    (hex : transferPrecise insn state stack = true) (hmix : UnmixedAt state insn s)
    (hsized : sized s.pc (reserveSize (state.get .r2)) (s.regs .r2).bits) {ω : Oracle}
    (hstep : s.execute L ω p insn = some s') :
    ∃ i ∈ o.successors, i.pc = s'.pc ∧ Describes L sized i.state i.stack s' := by
  obtain ⟨ρ, hd⟩ := hd
  cases h with
  | exit hop _ => simp [MState.execute, hop] at hstep
  | call hop hhelper hargs =>
    simp only [MState.execute, hop, hhelper, Option.map_some, Option.some.injEq] at hstep
    simp only [transferPrecise, hop, hhelper] at hex
    subst hstep
    exact ⟨_, List.mem_singleton.mpr rfl, rfl,
      hd.call hwf (mem_helpers_of_getHelper hhelper) hargs hex hsized ω⟩
  | ja hop ht =>
    simp only [MState.execute, hop, ht, Option.map_some, Option.some.injEq] at hstep
    subst hstep
    exact ⟨_, List.mem_singleton.mpr rfl, rfl, ρ, hd.withPc _⟩
  | @jmp op src t is32 hop _ ht =>
    rw [transferPrecise_jmp hop] at hex
    rw [MState.execute_jmp hop] at hstep
    obtain ⟨htaken, hfall⟩ := hd.refineBranch hwf hex
    rcases MState.of_branch hstep with ⟨hjump, t', ht', rfl⟩ | ⟨hjump, rfl⟩
    · obtain rfl := Option.some.inj (ht.symm.trans ht')
      exact ⟨⟨t, _, _⟩, by simp [Outcome.successors], rfl, ρ, (htaken hjump).withPc _⟩
    · exact ⟨_, List.mem_cons_self, rfl, ρ, (hfall hjump).withPc _⟩
  | @alu op src st is64 hop _ halu =>
    rw [transferPrecise_alu hop] at hex
    rw [MState.execute_alu hop, Option.some.injEq] at hstep
    subst hstep
    obtain ⟨r, hr, rfl⟩ := checkAlu_eq_ok halu
    have hmix' : src = .reg → ∀ q ∈ addend state insn op, (s.regs q).isPtr = false := by
      rintro rfl
      exact hmix op is64 hop
    exact ⟨_, List.mem_singleton.mpr rfl, rfl, ρ,
      hd.setAt insn.dst (hd.aluResult hwf hr hex hmix') s.pc⟩
  | ldImm64 hop =>
    simp only [MState.execute, hop, Option.some.injEq] at hstep
    subst hstep
    exact ⟨_, List.mem_singleton.mpr rfl, rfl, ρ, hd.loadImm64 ω⟩
  | ldx hop _ _ _ =>
    simp only [MState.execute, hop, Option.some.injEq] at hstep
    subst hstep
    exact ⟨_, List.mem_singleton.mpr rfl, rfl, ρ, hd.setAt insn.dst (hd.load ω) s.pc⟩
  | stx hop _ _ _ hacc =>
    simp only [MState.execute, hop, Option.some.injEq] at hstep
    simp only [transferPrecise, hop] at hex
    subst hstep
    have hval : ∀ r, some (state.get insn.src) = some r →
        RegHolds L sized ρ r (s.regs insn.src) := fun r hr => Option.some.inj hr ▸ hd.regs insn.src
    exact ⟨_, List.mem_singleton.mpr rfl, rfl, ρ,
      (hd.store hval (isPtr_of_accessError hacc) hex).withPc _⟩
  | st hop _ hacc =>
    simp only [MState.execute, hop, Option.some.injEq] at hstep
    simp only [transferPrecise, hop] at hex
    subst hstep
    have hval : ∀ r, (none : Option RegState) = some r →
        RegHolds L sized ρ r (.number insn.immS) := fun r hr => by cases hr
    exact ⟨_, List.mem_singleton.mpr rfl, rfl, ρ,
      (hd.store hval (isPtr_of_accessError hacc) hex).withPc _⟩

/-! ## Runs -/

/-- A visit without an error that describes a state of the machine. -/
structure Visit.Explains (p : Program) (L : Layout) (v : Visit) (s : MState) : Prop where
  visits : p.Visits v
  error : (v.outcome p).error = none
  precise : transferPrecise v.insn v.state v.stack = true
  pc_eq : v.pc = s.pc
  describes : Describes L p.Sized v.state v.stack s

/-- The first `n` steps of a run add no pointer to a pointer that the verifier takes for a
number. -/
def UnmixedUntil (p : Program) (L : Layout) (env : ℕ → Oracle) (s₀ : MState) (n : ℕ) : Prop :=
  ∀ m < n, ∀ s, exec p L env s₀ m = some s → s.Unmixed p

/-- Whether the instruction adds or subtracts a register. -/
def BpfInsn.addsRegister (insn : BpfInsn) : Bool :=
  match insn.opcode with
  | .alu64 op .reg | .alu32 op .reg => op = .add || op = .sub
  | _ => false

/-- A programme without register additions and subtractions mixes nothing. -/
theorem unmixedUntil_of_all (h : p.instructions.all (fun insn => !insn.addsRegister) = true) :
    UnmixedUntil p L env s₀ n := by
  intro m _ s _ v hv _ op is64 hop q hq
  have hinsn := List.all_eq_true.mp h v.insn (List.mem_of_getElem? hv.insn_eq)
  have hadd : op ≠ .add ∧ op ≠ .sub := by
    cases is64 <;> simpa [BpfInsn.addsRegister, hop] using hinsn
  simp [addend, hadd] at hq

/-- The size a visited reservation records is what its r2 says. -/
theorem Visit.Explains.reserved {v : Visit} (h : v.Explains p L s) :
    p.Sized s.pc (reserveSize (v.state.get .r2)) (s.regs .r2).bits := by
  obtain ⟨ρ, hd⟩ := h.describes
  exact ⟨v, h.visits, h.pc_eq, rfl, fun x hx =>
    (hd.regs .r2).eq_of_knownValue (h.visits.wf.regs .r2) hx⟩

/-- The visit of a state is one of the instruction executed there. -/
theorem Program.Visits.insn_eq_of_at {v : Visit} (hv : p.Visits v) (hpc : v.pc = s.pc)
    (hat : s.At p insn) : v.insn = insn := by
  have hinsn := hv.insn_eq
  rw [hpc] at hinsn
  exact Option.some.inj (hinsn.symm.trans hat)

/-- An instruction is executed inside the list only. -/
theorem MState.At.lt_length (h : s.At p insn) : s.pc < p.instructions.length :=
  (List.getElem?_eq_some_iff.mp h).1

/-- What a visit that explains a state has checked. -/
theorem Visit.Explains.accepts {v : Visit} (h : v.Explains p L s) :
    Accepts p s.pc v.insn v.state v.stack v.idGen (v.outcome p) :=
  h.pc_eq ▸ Visit.accepts h.error

/-- **A step from an explained state** leads to one that a successor of the visit describes. -/
theorem Visit.Explains.step {v : Visit} (h : v.Explains p L s) (hmix : UnmixedAt v.state v.insn s)
    {ω : Oracle} (hs : s.step L ω p = some s') :
    ∃ i ∈ (v.outcome p).successors, i.pc = s'.pc ∧ Describes L p.Sized i.state i.stack s' := by
  obtain ⟨insn, hinsn, hexec⟩ := MState.exists_at_of_step hs
  obtain rfl := h.visits.insn_eq_of_at h.pc_eq hinsn
  exact h.accepts.simulates h.describes h.visits.wf h.precise hmix h.reserved hexec

/-- Steps of the machine, in some outside world. -/
def MState.Steps (p : Program) (L : Layout) (s s' : MState) : Prop := ∃ ω, s.step L ω p = some s'

/-- Steps of the machine that mix no pointers. -/
def UnmixedStep (p : Program) (L : Layout) (s s' : MState) : Prop :=
  s.Unmixed p ∧ s.Steps p L s'

/-- A run is a chain of its steps. -/
theorem reflTransGen_of_exec {R : MState → MState → Prop}
    (hR : ∀ m < n, ∀ s s', exec p L env s₀ m = some s → s.Steps p L s' → R s s')
    (h : exec p L env s₀ n = some s) : Relation.ReflTransGen R s₀ s := by
  induction n generalizing s with
  | zero =>
    obtain rfl := Option.some.inj h
    exact .refl
  | succ n ih =>
    obtain ⟨s₁, h₁, hstep⟩ := of_exec_succ h
    have hpre : Relation.ReflTransGen R s₀ s₁ := ih (fun m hm => hR m (by omega)) h₁
    exact hpre.tail (hR n (by omega) s₁ s h₁ ⟨_, hstep⟩)

/-- A relation between verifier and machine states that entry, merges and the steps `R` of the
machine carry along. -/
structure Program.Carries (p : Program) (L : Layout) (R : MState → MState → Prop)
    (I : VerifierState → StackState → MState → Prop) : Prop where
  steps : ∀ s s', R s s' → s.Steps p L s'
  entry : ∀ s, s.Entry L → I .entry .new s
  merge : p.Respects (Keeps I)
  step : ∀ v, p.Visits v → (v.outcome p).error = none → ∀ s s', v.pc = s.pc →
    I v.state v.stack s → R s s' →
    ∃ i ∈ (v.outcome p).successors, i.pc = s'.pc ∧ I i.state i.stack s'

/-- **What is carried along holds of every state reached**, at a visit without an error, unless the
state is past the end of the list. -/
theorem Program.Accepted.carried (h : p.Accepted) {R : MState → MState → Prop}
    {I : VerifierState → StackState → MState → Prop} (hc : p.Carries L R I) (h₀ : s₀.Entry L)
    (hreach : Relation.ReflTransGen R s₀ s) :
    (∃ v, p.Visits v ∧ (v.outcome p).error = none ∧ v.pc = s.pc ∧ I v.state v.stack s) ∨
      p.instructions.length ≤ s.pc := by
  obtain ⟨vs, hclosed, hvs⟩ := h.closed hc.merge
  have hdescribed : Described (p.explorer (Keeps I)) vs
      (fun i s => i.pc = s.pc ∧ I i.state i.stack s)
      (fun v s => v.pc = s.pc ∧ I v.state v.stack s) s := by
    refine hclosed.reachable (fun i v _ s hc hd => ⟨hc.1.symm.trans hd.1, hc.2 s hd.2⟩) ?_ ?_
      ⟨h₀.pc_eq.symm, hc.entry s₀ h₀⟩ hreach
    · rintro v hv s s' ⟨hpc, hI⟩ hs
      exact hc.step v (hvs v hv).1 (hvs v hv).2 s s' hpc hI hs
    · rintro i s s' hend ⟨hpc, -⟩ hs
      obtain ⟨ω, hstep⟩ := hc.steps s s' hs
      obtain ⟨insn, hinsn, -⟩ := MState.exists_at_of_step hstep
      have hlt := (List.getElem?_eq_some_iff.mp hinsn).1
      rw [← hpc] at hlt
      exact absurd hend (Nat.not_le.mpr hlt)
  rcases hdescribed with ⟨v, hv, hpc, hI⟩ | ⟨i, hend, hpc, -⟩
  · exact Or.inl ⟨v, (hvs v hv).1, (hvs v hv).2, hpc, hI⟩
  · exact Or.inr (hpc ▸ hend)

/-- **Description is carried along** by a walk that takes no unsound step, over the steps that mix
no pointers. -/
theorem Program.Precise.carries (hp : p.Precise) (L : Layout) :
    p.Carries L (UnmixedStep p L) (Describes L p.Sized) where
  steps _ _ h := h.2
  entry _ h := h.describes
  merge := hp.respects L p.Sized
  step v hv herr s s' hpc hd hs := by
    obtain ⟨hun, ω, hs⟩ := hs
    exact Visit.Explains.step ⟨hv, herr, hp.transfer hv, hpc, hd⟩ (hun v hv hpc) hs

/-- **Every state of a run is explained by a visit**, or is past the end of the list. -/
theorem Program.Accepted.explained (h : p.Accepted) (hp : p.Precise) (h₀ : s₀.Entry L)
    (hmix : UnmixedUntil p L env s₀ n) (hrun : exec p L env s₀ n = some s) :
    (∃ v : Visit, v.Explains p L s) ∨ p.instructions.length ≤ s.pc := by
  have hreach : Relation.ReflTransGen (UnmixedStep p L) s₀ s :=
    reflTransGen_of_exec (fun m hm s _ hs hstep => ⟨hmix m hm s hs, hstep⟩) hrun
  exact (h.carried (hp.carries L) h₀ hreach).imp_left fun ⟨v, hv, herr, hpc, hd⟩ =>
    ⟨v, hv, herr, hp.transfer hv, hpc, hd⟩

/-- **Every executed instruction is explained by a visit of it.** -/
theorem Program.Accepted.explains (h : p.Accepted) (hp : p.Precise) (h₀ : s₀.Entry L)
    (hmix : UnmixedUntil p L env s₀ n) (hrun : exec p L env s₀ n = some s) (hat : s.At p insn) :
    ∃ v : Visit, v.insn = insn ∧ v.Explains p L s := by
  obtain ⟨v, hv⟩ := (h.explained hp h₀ hmix hrun).resolve_right (Nat.not_le.mpr hat.lt_length)
  exact ⟨v, hv.visits.insn_eq_of_at hv.pc_eq hat, hv⟩

end BpfVerifier
