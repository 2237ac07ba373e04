import BpfVerifier.Bpf.Helpers
import BpfVerifier.Fstar.Steps

/-!
# Checks/Tracking — the registers a pass has lost along a run

The passes over a programme follow values from register to register, but some steps of a run they do
not follow.  A mark on a register says that such a step has come between the value in it and the
pass; `marksAfter` carries the marks along a run, by what each step loses.
-/

namespace BpfVerifier.Fstar

/-- The registers that are marked. -/
abbrev Marks := Reg → Bool

def setMark (m : Marks) (r : Reg) (b : Bool) : Marks := fun i => if i = r then b else m i

/-- Marks go where values go: a MOV copies one, ADD and SUB of an immediate keep it, and a value
made anew has none. -/
def Insn.flow (m : Marks) : Insn → Marks
  | .alu64Reg op dst src => setMark m dst (op = .mov && m src)
  | .alu64Imm op dst _ => setMark m dst ((op = .add || op = .sub) && m dst)
  | .alu32Reg _ dst _ | .alu32Imm _ dst _ | .ldImm64 dst _ | .ldx _ dst _ _ => setMark m dst false
  | .call _ => setMark m .r0 false
  | _ => m

/-- What a step loses: the registers it marks. -/
abbrev Losses := Insn → BpfState → BpfState → Marks

/-- The marks after a step. -/
def track (loses : Losses) (insn : Insn) (st st' : BpfState) (m : Marks) : Marks :=
  fun r => loses insn st st' r || insn.flow m r

/-- **The marks a number of steps into a run**, from those it starts with. -/
def marksAfter (prog : BpfProgram) (loses : Losses) (m₀ : Marks) (c₀ : BpfState × PathSchedule) :
    ℕ → Marks
  | 0 => m₀
  | n + 1 =>
    match (pathInterp prog).after n c₀, (pathInterp prog).after (n + 1) c₀ with
    | some c, some c' =>
      match fetchAt prog c.1.pc with
      | some insn => track loses insn c.1 c'.1 (marksAfter prog loses m₀ c₀ n)
      | none => marksAfter prog loses m₀ c₀ n
    | _, _ => marksAfter prog loses m₀ c₀ n

/-! ## Steps no pass follows -/

/-- A step that no pass over the list follows: a JA, a step that does not go forward, or one from
before the programme. -/
def unfollowed (insn : Insn) (st st' : BpfState) : Bool :=
  insn.isJa || st.pc < 0 || st'.pc ≤ st.pc

/-- A call, seen from an argument register. -/
def atCall (insn : Insn) (r : Reg) : Bool := insn.isCall && argRegs.contains r

/-! ## Runs -/

/-- An instruction keeps the marks of what it does not write. -/
theorem flow_of_number {insn : Insn} {dst : Reg} (m : Marks) (hdst : insn.numberDst = some dst) :
    ∃ b, insn.flow m = setMark m dst b := by
  cases insn with
  | alu64Reg op d s =>
    by_cases hop : op = .mov <;> simp_all [Insn.numberDst, Insn.flow]
  | _ => simp_all [Insn.numberDst, Insn.flow]

/-- Only ADD and SUB of an immediate keep a mark on what they write a number to. -/
theorem moves_of_flow {insn : Insn} {m : Marks} {dst : Reg} (hdst : insn.numberDst = some dst)
    (h : insn.flow m dst = true) :
    m dst = true ∧ ∃ op imm, insn = .alu64Imm op dst imm ∧ (op = .add ∨ op = .sub) := by
  cases insn with
  | alu64Imm op d imm =>
    obtain rfl := Option.some.inj hdst
    simp only [Insn.flow, setMark, if_true, Bool.and_eq_true, Bool.or_eq_true,
      decide_eq_true_eq] at h
    exact ⟨h.2, op, imm, rfl, h.1⟩
  | _ => simp_all [Insn.numberDst, Insn.flow, setMark]

theorem flow_of_store {insn : Insn} (m : Marks) (hstore : insn.isStore = true) :
    insn.flow m = m := by
  cases insn <;> simp_all [Insn.isStore, Insn.flow]

theorem flow_of_branch {insn : Insn} {offset : Int} (m : Marks)
    (hoff : insn.branchOffset = some offset) : insn.flow m = m := by
  cases insn <;> simp_all [Insn.branchOffset, Insn.flow]

/-- Marks that a step leaves off were off before it, up to where values went. -/
theorem track_eq_false {loses : Losses} {insn : Insn} {st st' : BpfState} {m : Marks} {r : Reg} :
    track loses insn st st' m r = false ↔
      loses insn st st' r = false ∧ insn.flow m r = false := by
  simp [track]

variable {prog : BpfProgram} {loses : Losses} {m₀ : Marks} {c₀ : BpfState × PathSchedule}

theorem marksAfter_succ {n : ℕ} {c c' : BpfState × PathSchedule} {insn : Insn}
    (hc : (pathInterp prog).after n c₀ = some c)
    (hc' : (pathInterp prog).after (n + 1) c₀ = some c')
    (hinsn : prog[c.1.pc.toNat]? = some insn) :
    marksAfter prog loses m₀ c₀ (n + 1) =
      track loses insn c.1 c'.1 (marksAfter prog loses m₀ c₀ n) := by
  rw [marksAfter, hc, hc']
  simp only [fetchAt_eq, hinsn]

/-- **The invariant rule for marked runs**: what holds of the first state and its marks, and is kept
by every effect, holds of every state of the run. -/
theorem marked_invariant {I : BpfState → Marks → Prop} (h₀ : I c₀.1 m₀)
    (hstep : ∀ {st st' : BpfState} {sched sched' : PathSchedule} {insn : Insn} {m : Marks},
      prog[st.pc.toNat]? = some insn → insn ≠ .exit → PathEffect st sched insn st' sched' →
      I st m → I st' (track loses insn st st' m)) :
    ∀ {n : ℕ} {c : BpfState × PathSchedule}, (pathInterp prog).after n c₀ = some c →
      I c.1 (marksAfter prog loses m₀ c₀ n) := by
  refine Interp.after_invariant
    (I := fun n (c : BpfState × PathSchedule) => I c.1 (marksAfter prog loses m₀ c₀ n)) h₀ ?_
  intro n c c' hc hnext hI
  have hc' : (pathInterp prog).after (n + 1) c₀ = some c' := by
    rw [Interp.after_succ_eq, hc]
    exact hnext
  obtain ⟨insn, hinsn, hexit, heffect⟩ := pathEffect_of_next hnext
  rw [marksAfter_succ hc hc' hinsn]
  exact hstep hinsn hexit heffect hI

end BpfVerifier.Fstar
