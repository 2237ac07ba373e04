import BpfVerifier.Concrete.Run
import BpfVerifier.Machinery.Descent
import BpfVerifier.Properties.Paths

/-!
# Properties/Termination — which runs of an accepted programme end

The walk closes a loop as soon as its state is subsumed, whether or not an iteration makes progress.
So acceptance bounds nothing by itself: `spins` is accepted and never leaves its loop.  A run ends
when each of its steps descends (`MState.Descends`): by ranks given to the instructions, and by
registers that are counted.  Without backward jumps the instructions alone are ranks enough.
-/

namespace BpfVerifier

variable {p : Program} {L : Layout} {env : ℕ → Oracle} {s₀ s s' : MState}

/-- The state is about to execute EXIT. -/
def MState.AtExit (p : Program) (s : MState) : Prop :=
  ∃ insn, s.At p insn ∧ insn.opcode = .exit

/-- The run from `s₀` reaches EXIT. -/
def ReachesExit (p : Program) (L : Layout) (env : ℕ → Oracle) (s₀ : MState) : Prop :=
  ∃ n s, exec p L env s₀ n = some s ∧ s.AtExit p

/-- **Only EXIT and the end of the list stop an accepted programme.** -/
theorem Program.Accepted.exists_step (h : p.Accepted) {done : List BpfInsn}
    (hpath : p.Path done s.pc) {insn : BpfInsn} (hinsn : s.At p insn) (hexit : insn.opcode ≠ .exit)
    (ω : Oracle) : ∃ s', s.step L ω p = some s' := by
  obtain ⟨v, hacc, -⟩ := h.exists_accepts hpath hinsn
  have hbranch (op : JmpOp) (src : Source) (is32 : Bool) (hj : insn.jumps = true) :
      ∃ s', s.branch p insn op src is32 = some s' := by
    obtain ⟨t, ht⟩ := hacc.jumps hj
    unfold MState.branch
    rw [ht]
    split
    · exact ⟨_, rfl⟩
    · exact ⟨_, rfl⟩
  rw [MState.step_eq hinsn]
  unfold MState.execute
  cases hop : insn.opcode with
  | unknown raw => exact absurd hop (hacc.known raw)
  | exit => exact absurd hop hexit
  | jmp64 op src => exact hbranch op src false (by simp [BpfInsn.jumps, hop])
  | jmp32 op src => exact hbranch op src true (by simp [BpfInsn.jumps, hop])
  | jmpJa =>
    obtain ⟨t, ht⟩ := hacc.jumps (by simp [BpfInsn.jumps, hop])
    simp only [ht, Option.map_some]
    exact ⟨_, rfl⟩
  | call =>
    obtain ⟨helper, hhelper, -⟩ := hacc.exists_helper hop
    simp only [hhelper, Option.map_some]
    exact ⟨_, rfl⟩
  | _ => exact ⟨_, rfl⟩

/-- **A run of an accepted programme that never exits goes on for ever.** -/
theorem Program.Accepted.exists_exec (h : p.Accepted) (hlast : p.LastDiverts) (h₀ : s₀.pc = 0)
    (hnever : ¬ReachesExit p L env s₀) (n : ℕ) : ∃ s, exec p L env s₀ n = some s := by
  induction n with
  | zero => exact ⟨s₀, rfl⟩
  | succ n ih =>
    obtain ⟨s, hs⟩ := ih
    obtain ⟨done, hpath⟩ := exec_path h₀ hs
    have hinsn := List.getElem?_eq_getElem (hlast.lt_length h.length_pos hpath)
    obtain ⟨s', hs'⟩ := h.exists_step (L := L) hpath hinsn
      (fun hop => hnever ⟨n, s, hs, _, hinsn, hop⟩) (env n)
    exact ⟨s', (exec_succ hs).trans hs'⟩

/-! ## Steps that descend -/

/-- A number that a run is to count down. -/
inductive Rank where
  /-- A number for each instruction. -/
  | phase (rank : ℕ → ℕ)
  /-- A register, ranked by its value. -/
  | counter (reg : Reg) (rank : BitVec 64 → ℕ)

/-- The rank of a state. -/
def Rank.value : Rank → MState → ℕ
  | .phase rank, s => rank s.pc
  | .counter reg rank, s => rank (s.regs reg).bits

/-- The word an ALU instruction is about to leave in its destination. -/
def MState.aluResult (s : MState) (insn : BpfInsn) : Option (BitVec 64) :=
  match insn.opcode with
  | .alu64 op src =>
    some (aluBits true op (s.regs insn.dst).bits (s.operand insn src true).bits)
  | .alu32 op src =>
    some (aluBits false op (s.regs insn.dst).bits (s.operand insn src false).bits)
  | _ => none

/-- Going on to `pc'` lowers the rank: the instruction there has a lower one, or an operation on
the counter is about to leave a lower value. -/
def Rank.Lowers (s : MState) (insn : BpfInsn) (pc' : ℕ) : Rank → Prop
  | .phase rank => rank pc' < rank s.pc
  | .counter reg rank =>
    insn.dst = reg ∧ ∃ v, s.aluResult insn = some v ∧ rank v < rank (s.regs reg).bits

/-- Going on to `pc'` leaves the rank as it is. -/
def Rank.Keeps (s : MState) (insn : BpfInsn) (pc' : ℕ) : Rank → Prop
  | .phase rank => rank pc' = rank s.pc
  | .counter reg _ => ¬insn.writes reg

theorem Rank.lowers_phase {insn : BpfInsn} {pc' : ℕ} {rank : ℕ → ℕ} :
    (Rank.phase rank).Lowers s insn pc' ↔ rank pc' < rank s.pc := Iff.rfl

theorem Rank.keeps_phase {insn : BpfInsn} {pc' : ℕ} {rank : ℕ → ℕ} :
    (Rank.phase rank).Keeps s insn pc' ↔ rank pc' = rank s.pc := Iff.rfl

/-- The first rank that changes goes down. -/
def descendsTo (s : MState) (insn : BpfInsn) (pc' : ℕ) : List Rank → Prop
  | [] => False
  | r :: plan => r.Lowers s insn pc' ∨ r.Keeps s insn pc' ∧ descendsTo s insn pc' plan

/-- **The step from `s` descends**, whichever edge of the graph it takes. -/
def MState.Descends (p : Program) (plan : List Rank) (s : MState) : Prop :=
  ∀ insn, s.At p insn → ∀ pc' ∈ p.cfgSucc s.pc insn, descendsTo s insn pc' plan

theorem MState.bits_of_aluResult {insn : BpfInsn} {ω : Oracle} {v : BitVec 64}
    (h : s.execute L ω p insn = some s') (hv : s.aluResult insn = some v) :
    (s'.regs insn.dst).bits = v := by
  have hadvance {val : Val} (ha : some (s.advance insn.dst val) = some s') (hval : val.bits = v) :
      (s'.regs insn.dst).bits = v := by
    obtain rfl := Option.some.inj ha
    rw [MState.regs_advance, if_pos rfl, hval]
  unfold MState.aluResult at hv
  split at hv
  · next op src hop =>
    rw [@MState.execute_alu L ω s p insn op src true hop] at h
    exact hadvance h (Option.some.inj hv)
  · next op src hop =>
    rw [@MState.execute_alu L ω s p insn op src false hop] at h
    exact hadvance h (Option.some.inj hv)
  · cases hv

section

variable {insn : BpfInsn} {ω : Oracle} {r : Rank}

theorem Rank.Lowers.value_lt (hr : r.Lowers s insn s'.pc) (h : s.execute L ω p insn = some s') :
    r.value s' < r.value s := by
  cases r with
  | phase rank => exact hr
  | counter reg rank =>
    obtain ⟨rfl, v, hv, hlt⟩ := hr
    change rank (s'.regs insn.dst).bits < _
    rw [MState.bits_of_aluResult h hv]
    exact hlt

theorem Rank.Keeps.value_eq (hr : r.Keeps s insn s'.pc) (h : s.execute L ω p insn = some s') :
    r.value s' = r.value s := by
  cases r with
  | phase rank => exact hr
  | counter reg rank => exact congrArg (fun v => rank v.bits) (regs_of_execute h hr)

/-- **A step that descends goes down in the order of its plan.** -/
theorem below_of_descendsTo {plan : List Rank} (h : s.execute L ω p insn = some s')
    (hdesc : descendsTo s insn s'.pc plan) :
    Descent.Below (plan.map Rank.value) s' s := by
  induction plan with
  | nil => exact hdesc
  | cons r plan ih =>
    rcases hdesc with hlowers | ⟨hkeeps, hrest⟩
    · exact Or.inl (hlowers.value_lt h)
    · exact Or.inr ⟨hkeeps.value_eq h, ih hrest⟩

end

/-- **A run whose steps descend reaches EXIT**: one that never did would go down for ever. -/
theorem Program.Accepted.reachesExit (h : p.Accepted) (hlast : p.LastDiverts) (h₀ : s₀.pc = 0)
    {plan : List Rank} (hdesc : ∀ n s, exec p L env s₀ n = some s → s.Descends p plan) :
    ReachesExit p L env s₀ := by
  by_contra hnever
  choose run hrun using h.exists_exec hlast h₀ hnever
  obtain ⟨n, hn⟩ := Descent.exists_not_below (plan.map Rank.value) run
  have hstep : (run n).step L (env n) p = some (run (n + 1)) := by
    rw [← exec_succ (hrun n)]
    exact hrun (n + 1)
  obtain ⟨insn, hinsn, hexec⟩ := MState.exists_at_of_step hstep
  exact hn (below_of_descendsTo hexec
    (hdesc n _ (hrun n) insn hinsn _ (mem_cfgSucc_of_execute hexec)))

/-- A backward edge of the graph leads to a back-edge target. -/
theorem mem_backEdgeTargets_of_cfgSucc {pc pc' : ℕ} {insn : BpfInsn}
    (hinsn : p.instructions[pc]? = some insn) (hs : pc' ∈ p.cfgSucc pc insn) (hle : pc' ≤ pc) :
    pc' ∈ p.backEdgeTargets := by
  rcases of_mem_cfgSucc hs with ⟨rfl, -, -⟩ | ⟨hjumps, ht⟩
  · omega
  · exact mem_backEdgeTargets.mpr ⟨pc, insn, hinsn, hjumps, hle, ht⟩

/-- Without backward jumps every step descends towards the end of the list. -/
theorem descends_of_forward (hback : p.backEdgeTargets = []) :
    s.Descends p [.phase fun pc => p.instructions.length - pc] := by
  intro insn hinsn pc' hs
  have hlt := (List.getElem?_eq_some_iff.mp hinsn).1
  have hforward : s.pc < pc' := by
    by_contra hle
    have hmem := mem_backEdgeTargets_of_cfgSucc hinsn hs (Nat.le_of_not_lt hle)
    rw [hback] at hmem
    cases hmem
  exact Or.inl (Rank.lowers_phase.mpr (by omega))

/-- **A run of an accepted programme whose steps descend reaches EXIT**, if the last instruction
does not fall through.  Without backward jumps all runs do. -/
theorem reachesExit_of_descends (h : p.Accepted) (hlast : p.LastDiverts) (h₀ : s₀.pc = 0) :
    (∀ plan : List Rank, (∀ n s, exec p L env s₀ n = some s → s.Descends p plan) →
      ReachesExit p L env s₀) ∧
      (p.backEdgeTargets = [] → ReachesExit p L env s₀) :=
  ⟨fun _ hdesc => h.reachesExit hlast h₀ hdesc,
    fun hback => h.reachesExit hlast h₀ fun _ _ _ => descends_of_forward hback⟩

/-- `r0 = 0; while (r0 != 1); exit`. -/
def spins : Program :=
  .ofInsns [.aluImm .mov .r0 0, .jmpImm .jeq .r0 1 1, .goto (-2), .ret]

/-- A run of `spins` never leaves the loop: r0 stays zero. -/
theorem exec_spins {n : ℕ} (h : exec spins .flat env (.fresh .flat) n = some s) :
    s.pc = 0 ∨ (s.pc = 1 ∨ s.pc = 2) ∧ (s.regs .r0).bits = 0 := by
  induction n generalizing s with
  | zero =>
    obtain rfl := Option.some.inj h
    exact Or.inl rfl
  | succ n ih =>
    obtain ⟨s₁, h₁, hstep⟩ := of_exec_succ h
    rcases ih h₁ with hpc | ⟨hpc | hpc, hr0⟩
    · have hat : s₁.At spins (.aluImm .mov .r0 0) := by rw [MState.At, hpc]; rfl
      rw [MState.step_eq hat] at hstep
      obtain rfl := Option.some.inj hstep
      exact Or.inr ⟨Or.inl (congrArg (· + 1) hpc), rfl⟩
    · have hat : s₁.At spins (.jmpImm .jeq .r0 1 1) := by rw [MState.At, hpc]; rfl
      rw [MState.step_eq hat] at hstep
      have hfall : s₁.branch spins (.jmpImm .jeq .r0 1 1) .jeq .imm false
          = some { s₁ with pc := s₁.pc + 1 } := by
        refine if_neg ?_
        change ¬ jumpTaken false .jeq (s₁.regs .r0).bits
          (BpfInsn.immS (.jmpImm .jeq .r0 1 1)) = true
        rw [hr0]
        decide
      change s₁.branch spins (.jmpImm .jeq .r0 1 1) .jeq .imm false = some s at hstep
      rw [hfall] at hstep
      obtain rfl := Option.some.inj hstep
      exact Or.inr ⟨Or.inr (congrArg (· + 1) hpc), hr0⟩
    · have hat : s₁.At spins (.goto (-2)) := by rw [MState.At, hpc]; rfl
      rw [MState.step_eq hat] at hstep
      have htarget : spins.target s₁.pc (.goto (-2)) = some 1 := by
        rw [hpc]
        decide
      change (spins.target s₁.pc (.goto (-2))).map _ = some s at hstep
      rw [htarget] at hstep
      obtain rfl := Option.some.inj hstep
      exact Or.inr ⟨Or.inl rfl, hr0⟩

/-- `spins` is accepted and never ends. -/
theorem not_reachesExit_of_accepted :
    ¬ ∀ (p : Program) (L : Layout) (env : ℕ → Oracle) (s₀ : MState),
      p.Accepted → s₀.pc = 0 → ReachesExit p L env s₀ := by
  intro hall
  obtain ⟨n, s, hs, insn, hinsn, hop⟩ :=
    hall spins .flat (fun _ => .quiet 0 false) (.fresh .flat) (by decide +kernel) rfl
  have hlast : s.pc = 0 ∨ s.pc = 1 ∨ s.pc = 2 := by
    have := exec_spins hs
    omega
  have hat : spins.instructions[s.pc]? = some insn := hinsn
  rcases hlast with hpc | hpc | hpc <;> rw [hpc] at hat <;>
    · obtain rfl := Option.some.inj hat
      cases hop

/-- `r0 = 3; do { r0 -= 1 } while (r0 != 0); exit`. -/
def countdown : Program :=
  .ofInsns [.aluImm .mov .r0 3, .aluImm .sub .r0 1, .jmpImm .jne .r0 0 (-2), .ret]

/-- The loop of `countdown`, the counter, and the two instructions inside the loop. -/
def countdownPlan : List Rank :=
  [.phase fun pc => if pc = 0 then 2 else if pc = 3 then 0 else 1,
    .counter .r0 BitVec.toNat, .phase fun pc => pc]

/-- The loop of `countdown` is entered with a counter that is not zero. -/
theorem exec_countdown {n : ℕ} (h : exec countdown .flat env (.fresh .flat) n = some s) :
    s.pc = 0 ∨ (s.pc = 1 ∧ (s.regs .r0).bits ≠ 0) ∨ s.pc = 2 ∨ s.pc = 3 := by
  induction n generalizing s with
  | zero =>
    obtain rfl := Option.some.inj h
    exact Or.inl rfl
  | succ n ih =>
    obtain ⟨s₁, h₁, hstep⟩ := of_exec_succ h
    rcases ih h₁ with hpc | ⟨hpc, -⟩ | hpc | hpc
    · have hat : s₁.At countdown (.aluImm .mov .r0 3) := by rw [MState.At, hpc]; rfl
      rw [MState.step_eq hat] at hstep
      obtain rfl := Option.some.inj hstep
      have himm : BpfInsn.immOf (.aluImm .mov .r0 3) true ≠ 0 := by decide
      exact Or.inr (Or.inl ⟨congrArg (· + 1) hpc, himm⟩)
    · have hat : s₁.At countdown (.aluImm .sub .r0 1) := by rw [MState.At, hpc]; rfl
      rw [MState.step_eq hat] at hstep
      obtain rfl := Option.some.inj hstep
      exact Or.inr (Or.inr (Or.inl (congrArg (· + 1) hpc)))
    · have hat : s₁.At countdown (.jmpImm .jne .r0 0 (-2)) := by rw [MState.At, hpc]; rfl
      rw [MState.step_eq hat] at hstep
      change s₁.branch countdown (.jmpImm .jne .r0 0 (-2)) .jne .imm false = some s at hstep
      rcases MState.of_branch hstep with
        ⟨htaken, t, ht, rfl⟩ | ⟨-, rfl⟩
      · have htarget : countdown.target 2 (.jmpImm .jne .r0 0 (-2)) = some 1 := by decide
        rw [hpc, htarget] at ht
        obtain rfl := Option.some.inj ht
        exact Or.inr (Or.inl ⟨rfl, of_decide_eq_true htaken⟩)
      · exact Or.inr (Or.inr (Or.inr (congrArg (· + 1) hpc)))
    · have hat : s₁.At countdown .ret := by rw [MState.At, hpc]; rfl
      rw [MState.step_eq hat] at hstep
      cases hstep

theorem lastDiverts_countdown : countdown.LastDiverts := by
  intro done insn _ hinsn
  obtain rfl : BpfInsn.ret = insn := Option.some.inj hinsn
  exact Or.inl rfl

/-- The steps of `countdown` descend. -/
theorem descends_countdown {n : ℕ} (h : exec countdown .flat env (.fresh .flat) n = some s) :
    s.Descends countdown countdownPlan := by
  intro insn hinsn pc' hs
  have hat : countdown.instructions[s.pc]? = some insn := hinsn
  rcases exec_countdown h with hpc | ⟨hpc, hr0⟩ | hpc | hpc
  · rw [hpc] at hat hs
    obtain rfl : BpfInsn.aluImm .mov .r0 3 = insn := Option.some.inj hat
    obtain rfl : pc' = 1 := List.mem_singleton.mp hs
    exact Or.inl (Rank.lowers_phase.mpr (by rw [hpc]; decide))
  · rw [hpc] at hat hs
    obtain rfl : BpfInsn.aluImm .sub .r0 1 = insn := Option.some.inj hat
    obtain rfl : pc' = 2 := List.mem_singleton.mp hs
    have hlt : ((s.regs .r0).bits - 1).toNat < (s.regs .r0).bits.toNat := by
      have hpos : (s.regs .r0).bits.toNat ≠ 0 := fun h0 => hr0 (BitVec.eq_of_toNat_eq h0)
      bv_omega
    exact Or.inr ⟨Rank.keeps_phase.mpr (by rw [hpc]; decide), Or.inl ⟨rfl, _, rfl, hlt⟩⟩
  · rw [hpc] at hat hs
    obtain rfl : BpfInsn.jmpImm .jne .r0 0 (-2) = insn := Option.some.inj hat
    have hsucc : countdown.cfgSucc 2 (.jmpImm .jne .r0 0 (-2)) = [3, 1] := by decide
    rw [hsucc, List.mem_pair] at hs
    rcases hs with rfl | rfl
    · exact Or.inl (Rank.lowers_phase.mpr (by rw [hpc]; decide))
    · exact Or.inr ⟨Rank.keeps_phase.mpr (by rw [hpc]; decide),
        Or.inr ⟨id, Or.inl (Rank.lowers_phase.mpr (by rw [hpc]; decide))⟩⟩
  · rw [hpc] at hat hs
    obtain rfl : BpfInsn.ret = insn := Option.some.inj hat
    cases hs

theorem reachesExit_of_descends_countdown :
    ReachesExit countdown .flat (fun _ => .quiet 0 false) (.fresh .flat) :=
  (reachesExit_of_descends (by decide +kernel) lastDiverts_countdown rfl).1 countdownPlan
    fun _ _ => descends_countdown

end BpfVerifier
