import BpfVerifier.Analysis.StackBounds

/-!
# Analysis/StackWitness — the analysis, instruction by instruction

`stateAt` is what the analysis holds on reaching an instruction and `witnessAt` the step it writes
there.  What is written is read back by F\* as it was (`toAbsStateSb_toFstar`,
`toTargetMapSb_toFstar`).
-/

namespace BpfVerifier.StackBounds

open Fstar (AbsState)

/-! ## What is written -/

/-- The state F\* reads. -/
def RegState.abs (state : RegState) : AbsState := fun r => (state r).toFstar

theorem toAbsStateSb_filter (state : RegState) (l : List Reg) (r : Reg) :
    toAbsStateSb ((l.filter fun r => state r ≠ defaultReg r).map fun r =>
        (r.index, (state r).toFstar)) r =
      if r ∈ l then (state r).toFstar else (defaultReg r).toFstar := by
  induction l with
  | nil => cases r <;> rfl
  | cons head rest ih =>
    by_cases hdefault : state head = defaultReg head
    · rw [List.filter_cons_of_neg (by simpa using hdefault), ih]
      by_cases hr : r = head
      · simp [hr, hdefault]
      · simp [hr]
    · rw [List.filter_cons_of_pos (by simpa using hdefault), List.map_cons, toAbsStateSb]
      by_cases hr : r = head
      · simp [hr]
      · rw [if_neg (mt Reg.index_inj.mp hr), ih]
        simp [hr]

/-- **A state is read back as it was written.** -/
theorem toAbsStateSb_toFstar (state : RegState) : toAbsStateSb state.toFstar = state.abs := by
  funext r
  rw [RegState.toFstar, toAbsStateSb_filter, if_pos (Reg.mem_all r), RegState.abs]

theorem toTargetMapSb_map (l : List (BitVec 32 × RegState)) (key : BitVec 32) :
    toTargetMapSb (l.map fun e => (e.1.toInt, e.2.toFstar)) key.toInt =
      (AssocMap.get ⟨l⟩ key).map RegState.abs := by
  induction l with
  | nil => rfl
  | cons e rest ih =>
    rw [List.map_cons, toTargetMapSb]
    by_cases hkey : e.1 = key
    · simp [hkey, AssocMap.get, toAbsStateSb_toFstar]
    · have hne : key.toInt ≠ e.1.toInt := fun h => hkey (BitVec.eq_of_toInt_eq h.symm)
      rw [if_neg hne, ih]
      simp [AssocMap.get, hkey]

section

variable {w : ℕ} (a b c : BitVec w)

theorem sle_trans (hab : a.sle b) (hbc : b.sle c) : a.sle c := by
  rw [BitVec.sle_iff_toInt_le] at *
  omega

theorem sle_total : a.sle b || b.sle a := by
  rw [Bool.or_eq_true, BitVec.sle_iff_toInt_le, BitVec.sle_iff_toInt_le]
  omega

theorem sle_antisymm (hab : a.sle b) (hba : b.sle a) : a = b := by
  rw [BitVec.sle_iff_toInt_le] at *
  exact BitVec.eq_of_toInt_eq (by omega)

end

theorem TargetMap.toFstar_eq (targets : TargetMap) : targets.toFstar =
    (targets.sorted BitVec.sle).entries.map fun e => (e.1.toInt, e.2.toFstar) := rfl

/-- **A target map is read back as it was written**, at every `i32`. -/
theorem toTargetMapSb_toFstar (targets : TargetMap) (key : BitVec 32) :
    toTargetMapSb targets.toFstar key.toInt = (targets.get key).map RegState.abs := by
  rw [TargetMap.toFstar_eq, toTargetMapSb_map, AssocMap.get_sorted sle_trans sle_total]

/-- Nothing is written for any other index. -/
theorem toTargetMapSb_of_ne_toInt (targets : TargetMap) {i : Int}
    (hi : ∀ key : BitVec 32, key.toInt ≠ i) : toTargetMapSb targets.toFstar i = none := by
  have hall (l : List (BitVec 32 × RegState)) :
      toTargetMapSb (l.map fun e => (e.1.toInt, e.2.toFstar)) i = none := by
    induction l with
    | nil => rfl
    | cons e rest ih => rw [List.map_cons, toTargetMapSb, if_neg (Ne.symm (hi e.1)), ih]
  exact hall _

/-! ## The analysis, instruction by instruction -/

/-- One instruction of phase 2. -/
def next (s : RegState × TargetMap) (insn : BpfInsn) (pc : ℕ) : Option (RegState × TargetMap) :=
  transfer (merge s.1 s.2 pc).1 (merge s.1 s.2 pc).2 insn pc

variable (instructions : List BpfInsn)

/-- The target map after phase 1. -/
def loopHeads : TargetMap := instructions.zipIdx.foldl seedLoopHead .empty

/-- What the analysis holds on reaching an instruction. -/
def stateAt : ℕ → Option (RegState × TargetMap)
  | 0 => some (.init, loopHeads instructions)
  | k + 1 => (stateAt k).bind fun s => instructions[k]?.bind fun insn => next s insn k

/-- The step written for an instruction. -/
def witnessAt (k : ℕ) : Option WitnessStep :=
  (stateAt instructions k).bind fun s => instructions[k]?.map fun insn =>
    ⟨k, insn.toFstar, s.1.toFstar, s.2.toFstar⟩

variable {instructions}

theorem stateAt_succ (k : ℕ) : stateAt instructions (k + 1) =
    (stateAt instructions k).bind fun s => instructions[k]?.bind fun insn => next s insn k := rfl

/-- Nothing is held, and nothing written, past an instruction the analysis fails at. -/
theorem stateAt_of_none {j k : ℕ} (hjk : j ≤ k) (h : stateAt instructions j = none) :
    stateAt instructions k = none := by
  induction hjk with
  | refl => exact h
  | step _ ih => rw [stateAt_succ, ih, Option.bind_none]

/-- The steps written so far, and the one for the next instruction. -/
theorem written_append {k : ℕ} {steps : List WitnessStep} {step : WitnessStep}
    (hsteps : steps.length = k) (hwritten : ∀ j < k, steps[j]? = witnessAt instructions j)
    (hstep : witnessAt instructions k = some step) :
    ∀ j < k + 1, (steps ++ [step])[j]? = witnessAt instructions j := by
  intro j hj
  rcases Nat.lt_succ_iff_lt_or_eq.mp hj with hlt | rfl
  · rw [List.getElem?_append_left (by omega), hwritten j hlt]
  · rw [List.getElem?_append_right (by omega), hsteps, hstep]
    simp

/-- **The loop of phase 2**: it passes when it gets to the end, and writes a step for each
instruction it gets to. -/
theorem analyseFrom_spec {k : ℕ} {s : RegState × TargetMap} {steps : List WitnessStep}
    (hs : stateAt instructions k = some s) (hk : k ≤ instructions.length)
    (hsteps : steps.length = k) (hwritten : ∀ j < k, steps[j]? = witnessAt instructions j) :
    ((analyseFrom (instructions.drop k) k s.1 s.2 steps).passed = true ↔
        ∃ s', stateAt instructions instructions.length = some s') ∧
      ∀ j, (analyseFrom (instructions.drop k) k s.1 s.2 steps).steps[j]? =
        witnessAt instructions j := by
  -- past the last step written there is none to write
  have hend {steps : List WitnessStep} {k : ℕ} (hsteps : steps.length = k)
      (hwritten : ∀ j < k, steps[j]? = witnessAt instructions j)
      (hnone : ∀ j, k ≤ j → witnessAt instructions j = none) (j : ℕ) :
      steps[j]? = witnessAt instructions j := by
    rcases Nat.lt_or_ge j k with hlt | hge
    · exact hwritten j hlt
    · rw [hnone j hge, List.getElem?_eq_none (by omega)]
  induction hn : instructions.length - k generalizing k s steps with
  | zero =>
    obtain rfl : k = instructions.length := by omega
    rw [List.drop_length, analyseFrom]
    refine ⟨⟨fun _ => ⟨s, hs⟩, fun _ => rfl⟩, hend hsteps hwritten fun j hj => ?_⟩
    simp [witnessAt, List.getElem?_eq_none hj]
  | succ n ih =>
    have hlt : k < instructions.length := by omega
    have hget : instructions[k]? = some instructions[k] := List.getElem?_eq_getElem hlt
    have hstep : witnessAt instructions k =
        some ⟨k, instructions[k].toFstar, s.1.toFstar, s.2.toFstar⟩ := by
      simp [witnessAt, hs, hget]
    have hsucc : stateAt instructions (k + 1) = next s instructions[k] k := by
      rw [stateAt_succ, hs, Option.bind_some, hget, Option.bind_some]
    have hwritten' := written_append hsteps hwritten hstep
    have hlength : (steps ++ [(⟨k, instructions[k].toFstar, s.1.toFstar, s.2.toFstar⟩ :
        WitnessStep)]).length = k + 1 := by
      simp [hsteps]
    rw [List.drop_eq_getElem_cons hlt, analyseFrom]
    have hnext : transfer (merge s.1 s.2 k).1 (merge s.1 s.2 k).2 instructions[k] k =
        next s instructions[k] k := rfl
    dsimp only
    rw [hnext, ← hsucc]
    cases hs' : stateAt instructions (k + 1) with
    | none =>
      have hnone (j : ℕ) (hj : k + 1 ≤ j) : stateAt instructions j = none := stateAt_of_none hj hs'
      refine ⟨⟨fun h => (by cases h), fun ⟨s', h⟩ => ?_⟩, hend hlength hwritten' fun j hj => ?_⟩
      · rw [hnone _ hlt] at h
        cases h
      · simp [witnessAt, hnone j hj]
    | some s' => exact ih hs' hlt hlength hwritten' (by omega)

/-- **The analysis passes when it gets to the end.** -/
theorem passed_iff (instructions : List BpfInsn) : (analyse instructions).passed = true ↔
    ∃ s, stateAt instructions instructions.length = some s :=
  (analyseFrom_spec (k := 0) (s := (.init, loopHeads instructions)) rfl (Nat.zero_le _) rfl
    fun _ hj => absurd hj (Nat.not_lt_zero _)).1

/-- **Step `k` is written for what the analysis holds at instruction `k`.** -/
theorem steps_getElem? (instructions : List BpfInsn) (k : ℕ) :
    (analyse instructions).steps[k]? = witnessAt instructions k :=
  (analyseFrom_spec (k := 0) (s := (.init, loopHeads instructions)) rfl (Nat.zero_le _) rfl
    fun _ hj => absurd hj (Nat.not_lt_zero _)).2 k

theorem mem_steps_iff {step : WitnessStep} : step ∈ (analyse instructions).steps ↔
    ∃ k s insn, stateAt instructions k = some s ∧ instructions[k]? = some insn ∧
      step = ⟨k, insn.toFstar, s.1.toFstar, s.2.toFstar⟩ := by
  rw [List.mem_iff_getElem?]
  simp only [steps_getElem?, witnessAt, Option.bind_eq_some_iff, Option.map_eq_some_iff]
  constructor
  · rintro ⟨k, s, hs, insn, hinsn, rfl⟩
    exact ⟨k, s, insn, hs, hinsn, rfl⟩
  · rintro ⟨k, s, insn, hs, hinsn, rfl⟩
    exact ⟨k, s, hs, insn, hinsn, rfl⟩

end BpfVerifier.StackBounds
