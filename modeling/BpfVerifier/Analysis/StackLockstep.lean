import BpfVerifier.Analysis.StackTransfer
import BpfVerifier.Checks.StackSound

/-!
# Analysis/StackLockstep — the analysis and the F\* pass side by side

`Agree` says that what the analysis writes for an instruction is what the F\* loop holds there.
Both start so (`agree_zero`), and an instruction keeps it exactly when the r10 that the Rust join
puts back makes no difference (`HarmlessAt`).
-/

namespace BpfVerifier.StackBounds

open Fstar (AbsState Insn BpfProgram sbScanner transferSb absInit joinStates sbTargets widenSb)

/-! ## The target map, as F\* reads it -/

/-- The map F\* reads, from index 0 on. -/
theorem toTargetMapSb_eq (targets : TargetMap) {i : Int} (hi : 0 ≤ i) :
    toTargetMapSb targets.toFstar i =
      if i < 2 ^ 31 then (targets.get (BitVec.ofInt 32 i)).map RegState.abs else none := by
  split
  · next hlt =>
    have hread := toTargetMapSb_toFstar targets (BitVec.ofInt 32 i)
    rwa [toInt_ofInt_of_bounds (by omega) hlt] at hread
  · next hge =>
    refine toTargetMapSb_of_ne_toInt targets fun key heq => ?_
    have hlt := key.toInt_lt
    omega

theorem ofInt_inj_of_bounds {i j : Int} (hi : -2 ^ 31 ≤ i ∧ i < 2 ^ 31)
    (hj : -2 ^ 31 ≤ j ∧ j < 2 ^ 31) : BitVec.ofInt 32 i = BitVec.ofInt 32 j ↔ i = j := by
  rw [← BitVec.toInt_inj, toInt_ofInt_of_bounds hi.1 hi.2, toInt_ofInt_of_bounds hj.1 hj.2]

theorem toTargetMapSb_remove (targets : TargetMap) {k : ℕ} (hk : k < 2 ^ 31) {i : Int}
    (hi : 0 ≤ i) :
    toTargetMapSb (TargetMap.toFstar (targets.remove (BitVec.ofNat 32 k))) i =
      if i = k then none else toTargetMapSb targets.toFstar i := by
  have hkey : BitVec.ofNat 32 k = BitVec.ofInt 32 (k : Int) := by simp
  rw [toTargetMapSb_eq _ hi, toTargetMapSb_eq targets hi]
  by_cases hlt : i < 2 ^ 31
  · rw [if_pos hlt, if_pos hlt, AssocMap.get_remove, hkey]
    by_cases heq : i = k
    · simp [heq]
    · rw [if_neg (mt (ofInt_inj_of_bounds ⟨by omega, hlt⟩ ⟨by omega, by omega⟩).mp heq), if_neg heq]
  · rw [if_neg hlt, if_neg hlt, ite_self]

theorem toTargetMapSb_insert (targets : TargetMap) {target : Int}
    (ht : -2 ^ 31 ≤ target ∧ target < 2 ^ 31) (state : RegState) {i : Int} (hi : 0 ≤ i) :
    toTargetMapSb (TargetMap.toFstar (targets.insert (BitVec.ofInt 32 target) state)) i =
      if i = target then some state.abs else toTargetMapSb targets.toFstar i := by
  rw [toTargetMapSb_eq _ hi, toTargetMapSb_eq targets hi]
  by_cases hlt : i < 2 ^ 31
  · rw [if_pos hlt, if_pos hlt, AssocMap.get_insert]
    by_cases heq : i = target
    · simp [heq]
    · rw [if_neg (mt (ofInt_inj_of_bounds ⟨by omega, hlt⟩ ht).mp heq), if_neg heq]
  · have hne : i ≠ target := by omega
    rw [if_neg hlt, if_neg hlt, if_neg hne]

theorem toTargetMapSb_save (targets : TargetMap) {target : Int}
    (ht : 0 ≤ target ∧ target < 2 ^ 31) (state : RegState) {i : Int} (hi : 0 ≤ i) :
    toTargetMapSb (targets.save (BitVec.ofInt 32 target) state).toFstar i =
      if i = target then
        some ((toTargetMapSb targets.toFstar target).elim state.abs fun existing =>
          restoreR10 (joinStates existing state.abs))
      else toTargetMapSb targets.toFstar i := by
  rw [toTargetMapSb_eq _ hi, toTargetMapSb_eq targets hi, toTargetMapSb_eq targets ht.1,
    if_pos ht.2]
  by_cases hlt : i < 2 ^ 31
  · rw [if_pos hlt, if_pos hlt, get_save]
    by_cases heq : i = target
    · subst heq
      rw [if_pos rfl, if_pos rfl]
      cases targets.get (BitVec.ofInt 32 i) with
      | none => rfl
      | some existing => exact congrArg some (abs_join existing state)
    · rw [if_neg (mt (ofInt_inj_of_bounds ⟨by omega, hlt⟩ ⟨by omega, ht.2⟩).mp heq), if_neg heq]
  · have hne : i ≠ target := by omega
    rw [if_neg hlt, if_neg hlt, if_neg hne]

/-! ## Agreement -/

/-- **What the analysis holds at instruction `k` is what the F\* loop holds**: the state, and the
targets from `k` on. -/
structure Agree (k : ℕ) (s : RegState × TargetMap) (t : AbsState × Scanner.Targets AbsState) :
    Prop where
  state : s.1.abs = t.1
  targets : ∀ i : Int, k ≤ i → toTargetMapSb s.2.toFstar i = t.2 i

/-- The F\* state at an instruction, with what was saved for it joined in. -/
def merged (t : AbsState × Scanner.Targets AbsState) (k : ℕ) : AbsState :=
  (sbScanner.applyTargets t.1 k t.2).1

/-- The same, with r10 put back where there was something to join. -/
def restored (t : AbsState × Scanner.Targets AbsState) (k : ℕ) : AbsState :=
  if (t.2 k).isSome then restoreR10 (merged t k) else merged t k

/-- **The merge of the analysis** is the one of the pass, with r10 put back. -/
theorem Agree.merge {k : ℕ} {s : RegState × TargetMap} {t : AbsState × Scanner.Targets AbsState}
    (h : Agree k s t) (hk : k < 2 ^ 31) :
    (merge s.1 s.2 k).1.abs = restored t k ∧ ∀ i : Int, k ≤ i →
      toTargetMapSb (merge s.1 s.2 k).2.toFstar i = (sbScanner.applyTargets t.1 k t.2).2 i := by
  have hread : t.2 k = (s.2.get (BitVec.ofNat 32 k)).map RegState.abs := by
    have hkey : BitVec.ofNat 32 k = BitVec.ofInt 32 (k : Int) := by simp
    rw [← h.targets k (Int.le_refl _), toTargetMapSb_eq _ (by omega), if_pos (by omega),
      hkey]
  unfold StackBounds.merge restored merged Scanner.applyTargets
  cases hsaved : s.2.get (BitVec.ofNat 32 k) with
  | none =>
    rw [hsaved, Option.map_none] at hread
    simp only [hread, Option.isSome_none, Bool.false_eq_true, if_false]
    exact ⟨h.state, h.targets⟩
  | some saved =>
    rw [hsaved, Option.map_some] at hread
    simp only [hread, Option.isSome_some, if_true]
    refine ⟨?_, fun i hi => ?_⟩
    · rw [abs_join, h.state]
      rfl
    · rw [toTargetMapSb_remove _ hk (by omega), h.targets i hi]

/-! ## One instruction -/

/-- A jump is written with the offset the analysis reads. -/
theorem branchOffset_toFstar {insn : BpfInsn} {finsn : Insn} (h : insn.toFstar = some finsn) :
    finsn.branchOffset = (branchOffset insn).map BitVec.toInt := by
  rw [branchOffset_of_toFstar h]
  unfold BpfInsn.jumps branchOffset
  cases insn.opcode <;> rfl

/-- The target of a jump the pass saves is an `i32`. -/
theorem edge_lt {insn : BpfInsn} {finsn : Insn} (hinsn : insn.toFstar = some finsn) {k : ℕ}
    (hk : k + 2 ^ 15 < 2 ^ 31) {abs fall : AbsState} {e : Int × AbsState}
    (h : transferSb abs finsn k = some (fall, some e)) : e.1 < 2 ^ 31 := by
  obtain ⟨-, -, off, hoff, htarget⟩ := Fstar.transferSb_edge h
  rw [branchOffset_toFstar hinsn, Option.map_eq_some_iff] at hoff
  obtain ⟨offset, -, rfl⟩ := hoff
  have hlt := offset.toInt_lt
  omega

/-- **Putting r10 back makes no difference at an instruction**: not to the check and, unless it is
the last, not to the state that falls through or to a state saved with another. -/
structure HarmlessAt (prog : BpfProgram) (k : ℕ) (insn : Insn)
    (t : AbsState × Scanner.Targets AbsState) : Prop where
  check : (transferSb (restored t k) insn k).isSome = (transferSb (merged t k) insn k).isSome
  fall : k + 1 < prog.length → (transferSb (restored t k) insn k).map Prod.fst =
    (transferSb (merged t k) insn k).map Prod.fst
  saved : k + 1 < prog.length → ∀ fall target state existing,
    transferSb (merged t k) insn k = some (fall, some (target, state)) → (k : Int) < target →
      t.2 target = some existing →
        Fstar.joinReg (existing .r10) (state .r10) = .AbsFramePtr 0

/-- What one instruction does on both sides. -/
theorem Agree.next {k : ℕ} {s : RegState × TargetMap} {t : AbsState × Scanner.Targets AbsState}
    (h : Agree k s t) (hsound : Sound k s) (hk : k + 2 ^ 15 < 2 ^ 31) {insn : BpfInsn}
    {finsn : Insn} (hinsn : insn.toFstar = some finsn) :
    (next s insn k).map (fun s' => (s'.1.abs, s'.2)) =
      (transferSb (restored t k) finsn k).map fun r =>
        (r.1, StackBounds.saved (StackBounds.merge s.1 s.2 k).2 r.2 k
          (StackBounds.merge s.1 s.2 k).1) := by
  have heq := transfer_eq hinsn hsound.merge.state (by omega) hk (StackBounds.merge s.1 s.2 k).2
  rw [(h.merge (by omega)).1] at heq
  exact heq

theorem restoreR10_eq_iff {abs : AbsState} : restoreR10 abs = abs ↔ abs .r10 = .AbsFramePtr 0 := by
  constructor
  · intro h
    rw [← h]
    rfl
  · intro h
    funext r
    unfold restoreR10 Fstar.absSet
    split
    · next hr => rw [hr, h]
    · rfl

/-- The jump the pass saves depends on the instruction alone. -/
theorem edge_eq {abs fall : AbsState} {insn : Insn} {pc : Int} {edge : Option (Int × AbsState)}
    (h : transferSb abs insn pc = some (fall, edge)) :
    edge = if insn.isJa then none else insn.branchOffset.map fun off => (pc + 1 + off, abs) := by
  cases insn with
  | alu64Reg op d s =>
    cases op <;> obtain ⟨-, rfl⟩ := Prod.ext_iff.mp (Option.some.inj h) <;> rfl
  | alu64Imm op d imm =>
    cases op <;> obtain ⟨-, rfl⟩ := Prod.ext_iff.mp (Option.some.inj h) <;> rfl
  | ldx width d src off =>
    simp only [transferSb] at h
    split at h
    · obtain ⟨-, rfl⟩ := Prod.ext_iff.mp (Option.some.inj h)
      rfl
    · cases h
  | stx width d src off =>
    simp only [transferSb] at h
    split at h
    · obtain ⟨-, rfl⟩ := Prod.ext_iff.mp (Option.some.inj h)
      rfl
    · cases h
  | st width d off imm =>
    simp only [transferSb] at h
    split at h
    · obtain ⟨-, rfl⟩ := Prod.ext_iff.mp (Option.some.inj h)
      rfl
    · cases h
  | _ =>
    obtain ⟨-, rfl⟩ := Prod.ext_iff.mp (Option.some.inj h)
    rfl

/-- A jump is saved with the state that falls through. -/
theorem fall_of_edge {abs fall : AbsState} {insn : Insn} {pc : Int} {e : Int × AbsState}
    (h : transferSb abs insn pc = some (fall, some e)) : fall = abs ∧ e.2 = abs := by
  obtain ⟨-, hja, off, hoff, -⟩ := Fstar.transferSb_edge h
  obtain ⟨hfall, hedge⟩ := Fstar.transferSb_branch hoff hja h
  exact ⟨hfall, congrArg Prod.snd (Option.some.inj hedge)⟩

/-- **What a forward jump saves**, on both sides. -/
theorem Agree.saved {k : ℕ} {s : RegState × TargetMap} {t : AbsState × Scanner.Targets AbsState}
    (h : Agree k s t) {target : Int} (hkt : (k : Int) < target) (hlt : target < 2 ^ 31)
    (abs : AbsState) {i : Int} (hi : (k : Int) < i) :
    toTargetMapSb (saved (StackBounds.merge s.1 s.2 k).2 (some (target, abs)) k
        (StackBounds.merge s.1 s.2 k).1).toFstar i =
      if i = target then some ((t.2 target).elim (restored t k) fun existing =>
        restoreR10 (joinStates existing (restored t k)))
      else t.2 i := by
  obtain ⟨hkept, hkeptTargets⟩ := h.merge (by omega)
  have hread (j : Int) (hj : (k : Int) < j) :
      toTargetMapSb (StackBounds.merge s.1 s.2 k).2.toFstar j = t.2 j := by
    rw [hkeptTargets j (by omega), Scanner.applyTargets_of_ne (by omega)]
  rw [StackBounds.saved, if_pos hkt, toTargetMapSb_save _ ⟨by omega, hlt⟩ _ (by omega), hkept,
    hread target hkt, hread i hi]

/-- **Both sides save the same at a forward jump exactly when** joining keeps r10. -/
theorem Agree.saved_iff {k : ℕ} {s : RegState × TargetMap}
    {t : AbsState × Scanner.Targets AbsState} (h : Agree k s t) {target : Int}
    (hkt : (k : Int) < target) (hlt : target < 2 ^ 31) (hsame : restored t k = merged t k)
    (abs : AbsState) :
    (∀ i : Int, (k : Int) < i →
      toTargetMapSb (StackBounds.saved (StackBounds.merge s.1 s.2 k).2 (some (target, abs)) k
          (StackBounds.merge s.1 s.2 k).1).toFstar i =
        sbScanner.addTarget (sbScanner.applyTargets t.1 k t.2).2 target (merged t k) i) ↔
      ∀ existing, t.2 target = some existing →
        Fstar.joinReg (existing .r10) (merged t k .r10) = .AbsFramePtr 0 := by
  have hadded (i : Int) (hi : (k : Int) < i) :
      sbScanner.addTarget (sbScanner.applyTargets t.1 k t.2).2 target (merged t k) i =
        if i = target then some ((t.2 target).elim (merged t k) fun existing =>
          joinStates existing (merged t k))
        else t.2 i := by
    rw [Scanner.addTarget_apply, Scanner.applyTargets_of_ne (by omega),
      Scanner.applyTargets_of_ne (by omega)]
    rfl
  constructor
  · intro hagree existing hexisting
    have hat := hagree target hkt
    rw [h.saved hkt hlt abs hkt, hadded target hkt, if_pos rfl, if_pos rfl, hexisting] at hat
    exact (congrFun (Option.some.inj hat) .r10).symm
  · intro hkeeps i hi
    rw [h.saved hkt hlt abs hi, hadded i hi, hsame]
    cases hexisting : t.2 target with
    | none => rfl
    | some existing =>
      have hkeep : restoreR10 (joinStates existing (merged t k)) =
          joinStates existing (merged t k) := restoreR10_eq_iff.mpr (hkeeps existing hexisting)
      simp only [Option.elim, hkeep]

/-- **An instruction keeps the agreement exactly when** the same state falls through and the states
saved with another keep r10. -/
theorem agree_succ_iff {k : ℕ} {s s' : RegState × TargetMap}
    {t t' : AbsState × Scanner.Targets AbsState} (h : Agree k s t) (hsound : Sound k s)
    (hk : k + 2 ^ 15 < 2 ^ 31) {insn : BpfInsn} {finsn : Insn} (hinsn : insn.toFstar = some finsn)
    (hs' : StackBounds.next s insn k = some s')
    (ht' : sbScanner.checkInsn t.1 finsn k t.2 = some t') :
    Agree (k + 1) s' t' ↔
      (transferSb (restored t k) finsn k).map Prod.fst =
          (transferSb (merged t k) finsn k).map Prod.fst ∧
        ∀ fall target state existing,
          transferSb (merged t k) finsn k = some (fall, some (target, state)) → (k : Int) < target →
            t.2 target = some existing →
              Fstar.joinReg (existing .r10) (state .r10) = .AbsFramePtr 0 := by
  obtain ⟨hkept, hkeptTargets⟩ := h.merge (by omega)
  have hnext := h.next hsound hk hinsn
  rw [hs', Option.map_some] at hnext
  obtain ⟨⟨fallR, edgeR⟩, hR, hs'eq⟩ := Option.map_eq_some_iff.mp hnext.symm
  obtain ⟨hfallR, hmapR⟩ := Prod.mk.inj hs'eq
  obtain ⟨fall, targets'⟩ := t'
  obtain ⟨edge, hF, htargets'⟩ := Scanner.checkInsn_eq_some.mp ht'
  have hF' : transferSb (merged t k) finsn k = some (fall, edge) := hF
  rw [hR, hF', Option.map_some, Option.map_some, Option.some.injEq]
  have hedgeR := edge_eq hR
  have hedge := edge_eq hF'
  cases hjump : (if finsn.isJa then none else finsn.branchOffset) with
  | none =>
    -- nothing is saved on either side
    have hnoneR : edgeR = none := by
      rw [hedgeR]
      split at hjump <;> simp_all
    have hnone : edge = none := by
      rw [hedge]
      split at hjump <;> simp_all
    subst hnoneR hnone
    constructor
    · intro hagree
      exact ⟨hfallR.trans hagree.state, fun _ _ _ _ heq => by cases heq⟩
    · rintro ⟨hfall, -⟩
      refine ⟨hfallR.symm.trans hfall, fun i hi => ?_⟩
      rw [← hmapR, htargets']
      exact hkeptTargets i (by omega)
  | some off =>
    obtain ⟨hja, hoff⟩ : finsn.isJa = false ∧ finsn.branchOffset = some off := by
      cases hja : finsn.isJa <;> simp_all
    have hsomeR : edgeR = some ((k : Int) + 1 + off, restored t k) := by
      rw [hedgeR, hja, hoff]
      rfl
    have hsome : edge = some ((k : Int) + 1 + off, merged t k) := by
      rw [hedge, hja, hoff]
      rfl
    subst hsomeR hsome
    obtain ⟨hrestored, -⟩ := fall_of_edge hR
    obtain ⟨hmerged, -⟩ := fall_of_edge hF'
    have hlt : (k : Int) + 1 + off < 2 ^ 31 := edge_lt hinsn hk hF'
    generalize (k : Int) + 1 + off = target at *
    have hsame (hfall : fallR = fall) : restored t k = merged t k :=
      hrestored.symm.trans (hfall.trans hmerged)
    constructor
    · intro hagree
      have hfall : fallR = fall := hfallR.trans hagree.state
      refine ⟨hfall, fun fall' target' state existing heq hkt => ?_⟩
      obtain ⟨rfl, rfl⟩ := Prod.mk.inj (Option.some.inj (Prod.mk.inj (Option.some.inj heq)).2)
      refine (h.saved_iff hkt hlt (hsame hfall) (restored t k)).mp (fun i hi => ?_) existing
      have hat : toTargetMapSb s'.2.toFstar i = targets' i := hagree.targets i (by omega)
      rw [← hmapR, htargets'] at hat
      exact hat
    · rintro ⟨hfall, hsaved⟩
      refine ⟨hfallR.symm.trans hfall, fun i hi => ?_⟩
      rw [← hmapR, htargets']
      by_cases hkt : (k : Int) < target
      · exact (h.saved_iff hkt hlt (hsame hfall) (restored t k)).mpr
          (fun existing => hsaved fall target (merged t k) existing rfl hkt) i (by omega)
      · have hskips : saved (StackBounds.merge s.1 s.2 k).2 (some (target, restored t k)) k
            (StackBounds.merge s.1 s.2 k).1 = (StackBounds.merge s.1 s.2 k).2 := if_neg hkt
        dsimp only
        rw [Scanner.addTarget_apply, if_neg (by omega), hskips]
        exact hkeptTargets i (by omega)

/-- Both sides go on at an instruction, or neither does, when r10 does not matter to its check. -/
theorem Agree.isSome_next {k : ℕ} {s : RegState × TargetMap}
    {t : AbsState × Scanner.Targets AbsState} (h : Agree k s t) (hsound : Sound k s)
    (hk : k + 2 ^ 15 < 2 ^ 31) {insn : BpfInsn} {finsn : Insn}
    (hinsn : insn.toFstar = some finsn) :
    (StackBounds.next s insn k).isSome = (transferSb (restored t k) finsn k).isSome := by
  simpa using congrArg Option.isSome (h.next hsound hk hinsn)

theorem isSome_checkInsn (t : AbsState × Scanner.Targets AbsState) (finsn : Insn) (k : ℕ) :
    (sbScanner.checkInsn t.1 finsn k t.2).isSome = (transferSb (merged t k) finsn k).isSome := by
  unfold Scanner.checkInsn merged
  dsimp only
  have htransfer (abs : AbsState) : sbScanner.transfer abs finsn k = transferSb abs finsn k := rfl
  rw [htransfer]
  cases transferSb (sbScanner.applyTargets t.1 k t.2).1 finsn k with
  | none => rfl
  | some r =>
    obtain ⟨fall, edge⟩ := r
    cases edge <;> rfl

/-! ## The start -/

/-- The maps of phase 1, while they are built. -/
structure SeedsAgree (targets : TargetMap) (saved : Scanner.Targets AbsState) : Prop where
  nodup : targets.NodupKeys
  agree : ∀ i : Int, 0 ≤ i → toTargetMapSb targets.toFstar i = saved i
  widened : ∀ i, saved i = none ∨ saved i = some (widenSb absInit)

/-- A loop head found on both sides. -/
theorem SeedsAgree.insert {targets : TargetMap} {saved : Scanner.Targets AbsState}
    (h : SeedsAgree targets saved) {target : Int} (ht : -2 ^ 31 ≤ target ∧ target < 2 ^ 31) :
    SeedsAgree (targets.insert (BitVec.ofInt 32 target) RegState.init.forget)
      (sbScanner.addTarget saved target (widenSb absInit)) := by
  have hwidened : RegState.init.forget.abs = widenSb absInit := by
    rw [abs_forget, abs_init]
    rfl
  have hadd (i : Int) : sbScanner.addTarget saved target (widenSb absInit) i =
      if i = target then some (widenSb absInit) else saved i := by
    have hself : sbScanner.join (widenSb absInit) (widenSb absInit) = widenSb absInit :=
      Fstar.joinStates_self _
    rw [Scanner.addTarget_apply]
    rcases h.widened target with htarget | htarget
    · simp only [htarget, Option.elim]
    · simp only [htarget, Option.elim, hself]
  refine ⟨h.nodup.insert _ _, fun i hi => ?_, fun i => ?_⟩
  · rw [toTargetMapSb_insert _ ht _ hi, hadd, hwidened, h.agree i hi]
  · rw [hadd]
    split
    · exact Or.inr rfl
    · exact h.widened i

/-- **Phase 1 finds the loop heads of the pass.** -/
theorem SeedsAgree.foldl {instructions : List BpfInsn} {prog : BpfProgram}
    (hemit : emit instructions = some prog) {pc : ℕ}
    (hpc : pc + instructions.length + 2 ^ 15 ≤ 2 ^ 31) {targets : TargetMap}
    {saved : Scanner.Targets AbsState} (h : SeedsAgree targets saved) :
    SeedsAgree ((instructions.zipIdx pc).foldl seedLoopHead targets)
      (sbScanner.initLoopTargets Insn.branchOffset (widenSb absInit) prog pc saved) := by
  induction instructions generalizing pc targets saved prog with
  | nil =>
    obtain rfl : prog = [] := by simpa [emit] using hemit.symm
    exact h
  | cons insn rest ih =>
    obtain ⟨finsn, prog', hinsn, hrest, rfl⟩ := emit_cons.mp hemit
    rw [List.length_cons] at hpc
    rw [List.zipIdx_cons, List.foldl_cons, Scanner.initLoopTargets]
    have hcast : (pc : Int) + 1 = ((pc + 1 : ℕ) : Int) := by omega
    rw [hcast]
    refine ih hrest (by omega) ?_
    simp only [seedLoopHead, branchOffset_toFstar hinsn]
    cases branchOffset insn with
    | none => exact h
    | some off =>
      have hlo := off.le_toInt
      have hhi := off.toInt_lt
      have htarget : (BitVec.ofInt 32 ((pc : Int) + 1 + off.toInt)).toInt = pc + 1 + off.toInt :=
        toInt_ofInt_of_bounds (by omega) (by omega)
      simp only [Option.map_some, BitVec.sle, branchTarget_eq, htarget,
        toInt_ofNat_of_lt (show pc < 2 ^ 31 by omega), decide_eq_true_eq]
      rw [← hcast]
      by_cases hle : (pc : Int) + 1 + off.toInt ≤ pc
      · rw [if_pos hle, if_pos hle]
        exact h.insert ⟨by omega, by omega⟩
      · rw [if_neg hle, if_neg hle]
        exact h

/-- **Both start with the same.** -/
theorem agree_zero {instructions : List BpfInsn} {prog : BpfProgram}
    (hemit : emit instructions = some prog) (hlen : instructions.length + 2 ^ 15 ≤ 2 ^ 31) :
    Agree 0 (.init, loopHeads instructions) (absInit, sbTargets prog) := by
  have hempty : SeedsAgree .empty Scanner.emptyTargets := by
    refine ⟨AssocMap.nodupKeys_empty, fun i hi => ?_, fun _ => Or.inl rfl⟩
    rw [toTargetMapSb_eq _ hi]
    split <;> rfl
  have hseeds : SeedsAgree (loopHeads instructions) (sbTargets prog) :=
    hempty.foldl hemit (by omega)
  exact ⟨abs_init, fun i hi => hseeds.agree i hi⟩

/-! ## The whole list -/

/-- What the F\* loop holds on reaching an instruction. -/
def loopAt (prog : BpfProgram) (k : ℕ) : Option (AbsState × Scanner.Targets AbsState) :=
  sbScanner.stateAt absInit prog (sbTargets prog) k

theorem loopAt_zero (prog : BpfProgram) : loopAt prog 0 = some (absInit, sbTargets prog) := by
  rw [loopAt, Scanner.stateAt, Scanner.stateFrom]

theorem loopAt_succ {prog : BpfProgram} {k : ℕ} {insn : Insn} (hinsn : prog[k]? = some insn)
    {t : AbsState × Scanner.Targets AbsState} (ht : loopAt prog k = some t) :
    loopAt prog (k + 1) = sbScanner.checkInsn t.1 insn k t.2 := by
  unfold loopAt Scanner.stateAt at *
  rw [Scanner.stateFrom_succ, ht, Option.bind_some, hinsn, Option.bind_some, Int.zero_add]

theorem loopAt_of_none {prog : BpfProgram} {j k : ℕ} (hjk : j ≤ k) (h : loopAt prog j = none) :
    loopAt prog k = none := by
  by_contra hne
  obtain ⟨t, ht⟩ := Option.ne_none_iff_exists'.mp hne
  obtain ⟨t', ht'⟩ := Scanner.stateFrom_of_le hjk ht
  have ht'' : loopAt prog j = some t' := ht'
  rw [h] at ht''
  cases ht''

/-- The check accepts when its loop gets to the end. -/
theorem stackBoundsCheck_iff (prog : BpfProgram) : Fstar.stackBoundsCheck prog = true ↔
    ∃ t, loopAt prog prog.length = some t :=
  Scanner.loop_iff_stateFrom

/-- **Putting r10 back makes no difference** at any instruction the F\* loop gets to. -/
def Harmless (prog : BpfProgram) : Prop := ∀ (k : ℕ) (insn : Insn)
  (t : AbsState × Scanner.Targets AbsState), prog[k]? = some insn → loopAt prog k = some t →
    HarmlessAt prog k insn t

/-- **Both get equally far, and hold the same on the way.** -/
theorem lockstep {instructions : List BpfInsn} {prog : BpfProgram}
    (hemit : emit instructions = some prog) (hlen : instructions.length + 2 ^ 15 ≤ 2 ^ 31)
    (hharmless : Harmless prog) {k : ℕ} (hk : k ≤ instructions.length) :
    (stateAt instructions k).isSome = (loopAt prog k).isSome ∧ (k < instructions.length →
      ∀ s t, stateAt instructions k = some s → loopAt prog k = some t → Agree k s t) := by
  have hlength := length_of_emit hemit
  induction k with
  | zero =>
    rw [loopAt_zero]
    refine ⟨rfl, fun _ s t hs ht => ?_⟩
    obtain rfl := Option.some.inj hs
    obtain rfl := Option.some.inj ht
    exact agree_zero hemit hlen
  | succ k ih =>
    obtain ⟨hsome, hagree⟩ := ih (Nat.le_of_succ_le hk)
    have hget : instructions[k]? = some instructions[k] := List.getElem?_eq_getElem hk
    obtain ⟨finsn, hfinsn, hto⟩ := toFstar_of_emit hemit hget
    cases hs : stateAt instructions k with
    | none =>
      have ht : loopAt prog k = none := by
        rw [hs] at hsome
        exact Option.isSome_eq_false_iff.mp hsome.symm |> Option.isNone_iff_eq_none.mp
      have hs' := stateAt_of_none (Nat.le_succ k) hs
      have ht' := loopAt_of_none (Nat.le_succ k) ht
      rw [hs', ht']
      exact ⟨rfl, fun _ s t h => by cases h⟩
    | some s =>
      obtain ⟨t, ht⟩ : ∃ t, loopAt prog k = some t := by
        rw [hs] at hsome
        exact Option.isSome_iff_exists.mp hsome.symm
      have h := hagree hk s t hs ht
      have hsound : Sound k s := sound_stateAt (by omega) hs
      have hat := hharmless k finsn t hfinsn ht
      have hsucc : stateAt instructions (k + 1) = next s instructions[k] k := by
        rw [stateAt_succ, hs, Option.bind_some, hget, Option.bind_some]
      rw [hsucc, loopAt_succ hfinsn ht]
      refine ⟨?_, fun hlt s' t' hs' ht' => ?_⟩
      · rw [h.isSome_next hsound (by omega) hto, isSome_checkInsn, hat.check]
      · rw [agree_succ_iff h hsound (by omega) hto hs' ht']
        exact ⟨hat.fall (by omega), hat.saved (by omega)⟩

end BpfVerifier.StackBounds
