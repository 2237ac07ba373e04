import BpfVerifier.Analysis.WitnessText

/-!
# Properties/RoundTrips — the witness is read back as it was written

The Rust side leaves out the registers that hold their default and F\* puts the default back; the
two defaults are one (`toAbsStateSb_toFstar`).  A target map is written in the order of its indices
and looked up by the first entry, which finds what is saved (`toTargetMapSb_toFstar`), in whatever
order the hash map is gone through (`TargetMap.text_of_perm`).
-/

namespace BpfVerifier.StackBounds

/-- What F\* holds of a register says which value it is. -/
theorem AbsReg.toFstar_injective : Function.Injective AbsReg.toFstar := by
  intro v w h
  cases v <;> cases w <;>
    simp only [AbsReg.toFstar, Fstar.AbsReg.AbsFramePtr.injEq, Fstar.AbsReg.AbsCtxPtr.injEq,
      Fstar.AbsReg.AbsRingBufPtr.injEq, BitVec.toInt_inj, BitVec.toNat_inj, reduceCtorEq] at h
  all_goals first | rw [h] | rfl

/-- **The order in which a hash map is gone through is not written.** -/
theorem TargetMap.text_of_perm {targets targets' : TargetMap} (h : targets.NodupKeys)
    (hperm : targets'.entries.Perm targets.entries) : targets'.text = targets.text := by
  have hsorted : targets'.sorted BitVec.sle = targets.sorted BitVec.sle :=
    h.sorted_perm sle_trans sle_total sle_antisymm hperm
  rw [TargetMap.text_eq, TargetMap.text_eq, hsorted]

/-- **A witness is read back as it was written**: off the text of a state the values of all its
registers, and off the text of a target map the state of every index and none for any other. -/
theorem witness_roundTrips :
    Function.Injective AbsReg.toFstar ∧
      (∀ state : RegState, ∃ entries, Reader.readAll readState state.text = some entries ∧
        ∀ r, toAbsStateSb entries r = (state r).toFstar) ∧
      ∀ targets : TargetMap, ∃ entries, Reader.readAll readTargets targets.text = some entries ∧
        (∀ key state, targets.get key = some state →
          toTargetMapSb entries key.toInt = some fun r => (state r).toFstar) ∧
        ∀ pc, (∀ key, key.toInt = pc → targets.get key = none) →
          toTargetMapSb entries pc = none := by
  refine ⟨AbsReg.toFstar_injective, fun state => ?_, fun targets => ?_⟩
  · exact ⟨_, Reader.readAll_of_reads (reads_stateText state),
      congrFun (toAbsStateSb_toFstar state)⟩
  · refine ⟨_, Reader.readAll_of_reads (reads_targetsText targets), ?_, fun pc hpc => ?_⟩
    · intro key state hget
      rw [toTargetMapSb_toFstar, hget]
      rfl
    · by_cases hkey : ∃ key : BitVec 32, key.toInt = pc
      · obtain ⟨key, rfl⟩ := hkey
        rw [toTargetMapSb_toFstar, hpc key rfl, Option.map_none]
      · exact toTargetMapSb_of_ne_toInt targets fun key heq => hkey ⟨key, heq⟩

end BpfVerifier.StackBounds
