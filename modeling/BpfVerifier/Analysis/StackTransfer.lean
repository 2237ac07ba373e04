import BpfVerifier.Analysis.StackWitness
import BpfVerifier.Machinery.Word

/-!
# Analysis/StackTransfer — an instruction of the analysis is one of the F\* pass

As long as no offset leaves 64 bits (`Within`) the Rust transfer is `transferSb` (`transfer_eq`),
and the Rust join is `joinStates` with r10 put back to the frame pointer (`abs_join`).  In a list of
at most 2³¹ instructions no offset gets that far (`sound_stateAt`).
-/

namespace BpfVerifier.StackBounds

open Fstar (AbsState Insn transferSb absSet absInit joinStates signExtendToInt)

/-! ## Offsets that do not overflow -/

/-- The offset, if there is one, is at most `bound` from 0. -/
def AbsReg.Within (bound : ℕ) : AbsReg → Prop
  | .framePtr off | .ctxPtr off => -(bound : Int) ≤ off.toInt ∧ off.toInt ≤ bound
  | .ringBufPtr _ | .other => True

def RegState.Within (bound : ℕ) (state : RegState) : Prop := ∀ r, (state r).Within bound

theorem AbsReg.Within.mono {v : AbsReg} {a b : ℕ} (h : v.Within a) (hab : a ≤ b) : v.Within b := by
  cases v with
  | framePtr off =>
    obtain ⟨hlo, hhi⟩ := h
    exact ⟨by omega, by omega⟩
  | ctxPtr off =>
    obtain ⟨hlo, hhi⟩ := h
    exact ⟨by omega, by omega⟩
  | ringBufPtr id => trivial
  | other => trivial

theorem RegState.Within.mono {state : RegState} {a b : ℕ} (h : state.Within a) (hab : a ≤ b) :
    state.Within b :=
  fun r => (h r).mono hab

theorem RegState.Within.set {state : RegState} {bound : ℕ} (h : state.Within bound) (dst : Reg)
    {v : AbsReg} (hv : v.Within bound) : (state.set dst v).Within bound := by
  intro r
  unfold RegState.set
  split
  · exact hv
  · exact h r

theorem RegState.Within.forget {state : RegState} {bound : ℕ} (h : state.Within bound) :
    state.forget.Within bound := by
  have hother : AbsReg.other.Within bound := trivial
  exact (((((h.set .r0 hother).set .r1 hother).set .r2 hother).set .r3 hother).set .r4
    hother).set .r5 hother

theorem RegState.within_init (bound : ℕ) : RegState.init.Within bound := by
  intro r
  cases r <;> simp [RegState.init, defaultReg, AbsReg.Within]

theorem joinReg_within {a b : AbsReg} {bound : ℕ} (ha : a.Within bound) :
    (joinReg a b).Within bound := by
  cases a <;> cases b <;> try trivial
  all_goals
    simp only [joinReg]
    split
    · exact ha
    · trivial

theorem RegState.Within.join {state other : RegState} {bound : ℕ} (h : state.Within bound) :
    (state.join other).Within bound :=
  RegState.Within.set (fun r => joinReg_within (h r)) .r10 (by simp [AbsReg.Within])

/-! ## Registers and states, as F\* reads them -/

theorem toFstar_joinReg (a b : AbsReg) :
    (joinReg a b).toFstar = Fstar.joinReg a.toFstar b.toFstar := by
  cases a <;> cases b <;> try rfl
  case framePtr.framePtr x y =>
    by_cases h : x = y <;> simp [joinReg, AbsReg.toFstar, Fstar.joinReg, BitVec.toInt_inj, h]
  case ctxPtr.ctxPtr x y =>
    by_cases h : x = y <;> simp [joinReg, AbsReg.toFstar, Fstar.joinReg, BitVec.toInt_inj, h]
  case ringBufPtr.ringBufPtr x y =>
    by_cases h : x = y <;> simp [joinReg, AbsReg.toFstar, Fstar.joinReg, BitVec.toNat_inj, h]

theorem abs_set (state : RegState) (dst : Reg) (v : AbsReg) :
    (state.set dst v).abs = absSet state.abs dst v.toFstar := by
  funext r
  unfold RegState.abs RegState.set absSet
  split <;> rfl

theorem abs_forget (state : RegState) : state.forget.abs = Fstar.forgetCallerSaved state.abs := by
  simp only [RegState.forget, List.foldl_cons, List.foldl_nil, abs_set, AbsReg.toFstar,
    Fstar.forgetCallerSaved]

theorem abs_init : RegState.init.abs = absInit := by
  funext r
  cases r <;> rfl

/-- r10 is the frame pointer again. -/
def restoreR10 (abs : AbsState) : AbsState := absSet abs .r10 (.AbsFramePtr 0)

/-- **The Rust join is the F\* one, with r10 put back.** -/
theorem abs_join (state other : RegState) :
    (state.join other).abs = restoreR10 (joinStates state.abs other.abs) := by
  rw [RegState.join, abs_set]
  exact congrArg restoreR10 (funext fun r => toFstar_joinReg _ _)

/-- **A move that does not overflow** is the move of the integer. -/
theorem shiftReg_of_within {v : AbsReg} {bound : ℕ} {delta : BitVec 64} (h : v.Within bound)
    (hbound : bound + 2 ^ 31 < 2 ^ 63) (hlo : -2 ^ 31 ≤ delta.toInt) (hhi : delta.toInt ≤ 2 ^ 31) :
    (shiftReg v delta).toFstar = Fstar.shiftReg v.toFstar delta.toInt ∧
      (shiftReg v delta).Within (bound + 2 ^ 31) := by
  have hadd (off : BitVec 64) (hoff : -(bound : Int) ≤ off.toInt ∧ off.toInt ≤ bound) :
      (off + delta).toInt = off.toInt + delta.toInt :=
    Word.toInt_add_of_bounds (by omega) (by omega)
  cases v with
  | framePtr off =>
    have hsum := hadd off h
    obtain ⟨hoff, hoff'⟩ := h
    refine ⟨congrArg Fstar.AbsReg.AbsFramePtr hsum, ?_⟩
    rw [shiftReg, AbsReg.Within, hsum]
    omega
  | ctxPtr off =>
    have hsum := hadd off h
    obtain ⟨hoff, hoff'⟩ := h
    refine ⟨congrArg Fstar.AbsReg.AbsCtxPtr hsum, ?_⟩
    rw [shiftReg, AbsReg.Within, hsum]
    omega
  | ringBufPtr id => exact ⟨rfl, trivial⟩
  | other => exact ⟨rfl, trivial⟩

/-- **A check that does not overflow** is the check of the integer. -/
theorem checkMemAccess_of_within {v : AbsReg} {bound : ℕ} (h : v.Within bound)
    (hbound : bound + 2 ^ 31 < 2 ^ 63) (off : BitVec 16) (width : MemWidth) :
    checkMemAccess v off width =
      Fstar.checkMemAccess v.toFstar (off.signExtend 32) width := by
  cases v with
  | framePtr ptrOff =>
    obtain ⟨hlo, hhi⟩ := h
    have hoff : (off.signExtend 64).toInt = off.toInt := BitVec.toInt_signExtend_of_le (by decide)
    have hoff' : signExtendToInt (off.signExtend 32) = off.toInt :=
      BitVec.toInt_signExtend_of_le (by decide)
    have hofflo := off.le_toInt
    have hoffhi := off.toInt_lt
    have hw := widthBytes_le width
    have hptr : (ptrOff + off.signExtend 64).toInt = ptrOff.toInt + off.toInt := by
      rw [Word.toInt_add_of_bounds (by omega) (by omega), hoff]
    have hwidth : (BitVec.ofNat 64 (widthBytes width)).toInt = widthBytes width := by
      cases width <;> decide
    have hsize : (512 : BitVec 64).toInt = 512 := by decide
    have hidx : (512 + (ptrOff + off.signExtend 64)).toInt = 512 + (ptrOff.toInt + off.toInt) := by
      rw [Word.toInt_add_of_bounds (by omega) (by omega), hsize, hptr]
    have hend : (512 + (ptrOff + off.signExtend 64) + BitVec.ofNat 64 (widthBytes width)).toInt =
        512 + (ptrOff.toInt + off.toInt) + widthBytes width := by
      rw [Word.toInt_add_of_bounds (by omega) (by omega), hidx, hwidth]
    simp only [checkMemAccess, stackOffsetValid, Fstar.checkMemAccess, AbsReg.toFstar,
      Fstar.stackOffsetValid, BitVec.sle, hidx, hend, hoff', hsize]
    rfl
  | ctxPtr off => rfl
  | ringBufPtr id => rfl
  | other => rfl

/-! ## One instruction -/

theorem toInt_immS (insn : BpfInsn) : insn.immS.toInt = insn.imm.toInt :=
  BitVec.toInt_signExtend_of_le (by decide)

theorem toInt_neg_immS (insn : BpfInsn) : (-insn.immS).toInt = -insn.imm.toInt := by
  have hlo := insn.imm.le_toInt
  have hhi := insn.imm.toInt_lt
  rw [BitVec.toInt_neg, toInt_immS]
  exact Int.bmod_eq_of_le (by omega) (by omega)

/-- The map after an instruction that makes the pass save a jump. -/
def saved (targets : TargetMap) (edge : Option (Int × AbsState)) (pc : ℕ) (state : RegState) :
    TargetMap :=
  match edge with
  | some (target, _) =>
    if (pc : Int) < target then targets.save (BitVec.ofInt 32 target) state else targets
  | none => targets

theorem branchTarget_eq (pc : ℕ) (offset : BitVec 16) :
    branchTarget pc offset = BitVec.ofInt 32 (pc + 1 + offset.toInt) := by
  apply BitVec.eq_of_toInt_eq
  rw [toInt_branchTarget, BitVec.toInt_ofInt]

theorem toInt_ofNat_of_lt {pc : ℕ} (h : pc < 2 ^ 31) : (BitVec.ofNat 32 pc).toInt = pc := by
  rw [BitVec.toInt_ofNat']
  exact Int.bmod_eq_of_le (by omega) (by omega)

theorem toInt_ofInt_of_bounds {i : Int} (hlo : -2 ^ 31 ≤ i) (hhi : i < 2 ^ 31) :
    (BitVec.ofInt 32 i).toInt = i := by
  rw [BitVec.toInt_ofInt]
  exact Int.bmod_eq_of_le (by omega) (by omega)

/-- A conditional jump saves the state when it goes forward, as long as the index is an `i32`. -/
theorem save_branch {pc : ℕ} (hpc : pc + 2 ^ 15 < 2 ^ 31) (offset : BitVec 16) (state : RegState)
    (targets : TargetMap) :
    (if (BitVec.ofNat 32 pc).slt (branchTarget pc offset) then
        some (state, targets.save (branchTarget pc offset) state)
      else some (state, targets)) =
      some (state, saved targets (some ((pc : Int) + 1 + offset.toInt, state.abs)) pc state) := by
  have hlo := offset.le_toInt
  have hhi := offset.toInt_lt
  have htarget : (branchTarget pc offset).toInt = pc + 1 + offset.toInt := by
    rw [branchTarget_eq, toInt_ofInt_of_bounds (by omega) (by omega)]
  simp only [BitVec.slt, toInt_ofNat_of_lt (show pc < 2 ^ 31 by omega), htarget, decide_eq_true_eq,
    saved, ← branchTarget_eq]
  split <;> rfl

/-- **An instruction of the Rust transfer is one of the pass**, up to what is saved. -/
theorem transfer_eq {insn : BpfInsn} {finsn : Insn} (hinsn : insn.toFstar = some finsn)
    {state : RegState} {bound : ℕ} (hstate : state.Within bound) (hbound : bound + 2 ^ 31 < 2 ^ 63)
    {pc : ℕ} (hpc : pc + 2 ^ 15 < 2 ^ 31) (targets : TargetMap) :
    (transfer state targets insn pc).map (fun s => (s.1.abs, s.2)) =
      (transferSb state.abs finsn pc).map fun r => (r.1, saved targets r.2 pc state) := by
  have himm := toInt_immS insn
  have hneg := toInt_neg_immS insn
  have himmlo := insn.imm.le_toInt
  have himmhi := insn.imm.toInt_lt
  have hcheck (r : Reg) (width : MemWidth) : checkMemAccess (state r) insn.offset width =
      Fstar.checkMemAccess (state.abs r) (insn.offset.signExtend 32) width :=
    checkMemAccess_of_within (hstate r) hbound insn.offset width
  have hset (v : AbsReg) (a : Fstar.AbsReg) (hv : v.toFstar = a) :
      (some (state.set insn.dst v, targets)).map (fun s => (s.1.abs, s.2)) =
        (some (absSet state.abs insn.dst a, none)).map fun r : AbsState × Option (Int × AbsState) =>
          (r.1, saved targets r.2 pc state) := by
    rw [Option.map_some, Option.map_some, abs_set, hv]
    rfl
  cases hop : insn.opcode with
  | alu64 op src =>
    cases src with
    | reg =>
      obtain rfl : _ = finsn := by simpa [BpfInsn.toFstar, hop] using hinsn
      cases op <;> simp only [transfer, hop, transferSb] <;> exact hset _ _ rfl
    | imm =>
      obtain rfl : _ = finsn := by simpa [BpfInsn.toFstar, hop] using hinsn
      cases op <;> simp only [transfer, hop, transferSb]
      case add =>
        refine hset _ _ ?_
        rw [(shiftReg_of_within (hstate insn.dst) hbound (by omega) (by omega)).1, himm]
        rfl
      case sub =>
        refine hset _ _ ?_
        rw [(shiftReg_of_within (hstate insn.dst) hbound (by omega) (by omega)).1, hneg]
        rfl
      all_goals exact hset _ _ rfl
  | alu32 op src =>
    cases src with
    | reg =>
      obtain rfl : _ = finsn := by simpa [BpfInsn.toFstar, hop] using hinsn
      simp only [transfer, hop, transferSb]
      exact hset _ _ rfl
    | imm =>
      obtain rfl : _ = finsn := by simpa [BpfInsn.toFstar, hop] using hinsn
      simp only [transfer, hop, transferSb]
      exact hset _ _ rfl
  | ldImm64 =>
    obtain rfl : _ = finsn := by simpa [BpfInsn.toFstar, hop] using hinsn
    simp only [transfer, hop, transferSb]
    exact hset _ _ rfl
  | ldx width =>
    obtain rfl : _ = finsn := by simpa [BpfInsn.toFstar, hop] using hinsn
    simp only [transfer, hop, transferSb, hcheck]
    split
    · exact hset _ _ rfl
    · rfl
  | stx width =>
    obtain rfl : _ = finsn := by simpa [BpfInsn.toFstar, hop] using hinsn
    simp only [transfer, hop, transferSb, hcheck]
    split <;> rfl
  | st width =>
    obtain rfl : _ = finsn := by simpa [BpfInsn.toFstar, hop] using hinsn
    simp only [transfer, hop, transferSb, hcheck]
    split <;> rfl
  | jmp64 op src =>
    simp only [transfer, hop, save_branch hpc]
    cases src <;>
      (obtain rfl : _ = finsn := by simpa [BpfInsn.toFstar, hop] using hinsn
       rfl)
  | jmp32 op src =>
    simp only [transfer, hop, save_branch hpc]
    cases src <;>
      (obtain rfl : _ = finsn := by simpa [BpfInsn.toFstar, hop] using hinsn
       rfl)
  | jmpJa =>
    obtain rfl : _ = finsn := by simpa [BpfInsn.toFstar, hop] using hinsn
    simp only [transfer, hop, transferSb]
    rfl
  | call =>
    obtain ⟨hid, -, rfl⟩ : ∃ hid, insn.fstarHelper = some hid ∧ .call hid = finsn := by
      simpa [BpfInsn.toFstar, hop] using hinsn
    simp only [transfer, hop, transferSb, Option.map_some, abs_forget]
    rfl
  | exit =>
    obtain rfl : _ = finsn := by simpa [BpfInsn.toFstar, hop] using hinsn
    simp only [transfer, hop, transferSb]
    rfl
  | unknown raw => simp [BpfInsn.toFstar, hop] at hinsn

/-! ## What the analysis keeps -/

theorem get_save (targets : TargetMap) (target key : BitVec 32) (state : RegState) :
    (targets.save target state).get key =
      if key = target then
        some ((targets.get target).elim state fun existing => existing.join state)
      else targets.get key := by
  unfold TargetMap.save
  cases targets.get target <;> simp [AssocMap.get_insert]

theorem nodupKeys_save {targets : TargetMap} (h : targets.NodupKeys) (target : BitVec 32)
    (state : RegState) : (targets.save target state).NodupKeys := by
  unfold TargetMap.save
  cases targets.get target with
  | none => exact h.insert _ _
  | some existing => exact h.insert _ _

/-- **What the analysis holds at instruction `k`**: keys bound once, and offsets that `k` moves can
reach. -/
structure Sound (k : ℕ) (s : RegState × TargetMap) : Prop where
  nodup : s.2.NodupKeys
  state : s.1.Within (k * 2 ^ 31)
  targets : ∀ key saved, s.2.get key = some saved → saved.Within (k * 2 ^ 31)

theorem Sound.merge {k : ℕ} {s : RegState × TargetMap} (h : Sound k s) :
    Sound k (merge s.1 s.2 k) := by
  unfold StackBounds.merge
  cases hsaved : s.2.get (BitVec.ofNat 32 k) with
  | none => exact h
  | some saved =>
    refine ⟨h.nodup.remove _, h.state.join, fun key x hx => ?_⟩
    rw [AssocMap.get_remove] at hx
    split at hx
    · cases hx
    · exact h.targets key x hx

/-- Saving a state keeps the map sound. -/
theorem Sound.save {k : ℕ} {state : RegState} {targets : TargetMap} (h : Sound k (state, targets))
    (target : BitVec 32) : Sound k (state, targets.save target state) := by
  refine ⟨nodupKeys_save h.nodup target state, h.state, fun key x hx => ?_⟩
  rw [get_save] at hx
  split at hx
  · cases hget : targets.get target with
    | none =>
      simp only [hget, Option.elim, Option.some.injEq] at hx
      exact hx ▸ h.state
    | some existing =>
      simp only [hget, Option.elim, Option.some.injEq] at hx
      exact hx ▸ (h.targets target existing hget).join
  · exact h.targets key x hx

theorem Sound.mono {k : ℕ} {s : RegState × TargetMap} (h : Sound k s) : Sound (k + 1) s where
  nodup := h.nodup
  state := h.state.mono (by omega)
  targets key x hx := (h.targets key x hx).mono (by omega)

theorem Sound.set {k : ℕ} {state : RegState} {targets : TargetMap} (h : Sound k (state, targets))
    (dst : Reg) {v : AbsReg} (hv : v.Within (k * 2 ^ 31)) : Sound k (state.set dst v, targets) :=
  ⟨h.nodup, h.state.set dst hv, h.targets⟩

/-- **What an instruction does** to the state and the map: it writes its destination, with what it
copies or an offset moved by at most 2³¹, forgets r0–r5 or saves the state for a jump. -/
inductive Effect (state : RegState) (targets : TargetMap) (insn : BpfInsn) :
    RegState × TargetMap → Prop
  | keep : Effect state targets insn (state, targets)
  | write : Effect state targets insn (state.set insn.dst .other, targets)
  | copy : Effect state targets insn (state.set insn.dst (state insn.src), targets)
  | shift (delta : BitVec 64) : -2 ^ 31 ≤ delta.toInt → delta.toInt ≤ 2 ^ 31 →
      Effect state targets insn (state.set insn.dst (shiftReg (state insn.dst) delta), targets)
  | forget : Effect state targets insn (state.forget, targets)
  | save (target : BitVec 32) : Effect state targets insn (state, targets.save target state)

theorem effect_of_transfer {state : RegState} {targets : TargetMap} {insn : BpfInsn} {pc : ℕ}
    {s : RegState × TargetMap} (htr : transfer state targets insn pc = some s) :
    Effect state targets insn s := by
  have himm := toInt_immS insn
  have hneg := toInt_neg_immS insn
  have himmlo := insn.imm.le_toInt
  have himmhi := insn.imm.toInt_lt
  have hthen {c : Prop} [Decidable c] {after : RegState}
      (hafter : Effect state targets insn (after, targets))
      (heq : (if c then some (after, targets) else none) = some s) :
      Effect state targets insn s := by
    split at heq
    · obtain rfl := Option.some.inj heq
      exact hafter
    · cases heq
  have hjump {c : Prop} [Decidable c] {target : BitVec 32}
      (heq : (if c then some (state, targets.save target state) else some (state, targets)) =
        some s) : Effect state targets insn s := by
    split at heq
    · obtain rfl := Option.some.inj heq
      exact .save target
    · obtain rfl := Option.some.inj heq
      exact .keep
  unfold StackBounds.transfer at htr
  -- the branches of `transfer`, in its order
  split at htr
  · split at htr
    · exact Option.some.inj htr ▸ .copy
    · exact Option.some.inj htr ▸ .write
  · split at htr
    · exact Option.some.inj htr ▸ .shift insn.immS (by omega) (by omega)
    · exact Option.some.inj htr ▸ .shift (-insn.immS) (by omega) (by omega)
    · exact Option.some.inj htr ▸ .write
  · exact Option.some.inj htr ▸ .write
  · exact Option.some.inj htr ▸ .write
  · exact hthen .write htr
  · exact hthen .keep htr
  · exact hthen .keep htr
  · exact hjump htr
  · exact hjump htr
  · exact Option.some.inj htr ▸ .keep
  · exact Option.some.inj htr ▸ .forget
  · exact Option.some.inj htr ▸ .keep
  · exact Option.some.inj htr ▸ .keep

/-- **Every instruction keeps the offsets in reach.** -/
theorem Sound.transfer {k : ℕ} {state : RegState} {targets : TargetMap} {s' : RegState × TargetMap}
    {insn : BpfInsn} {pc : ℕ} (h : Sound k (state, targets)) (hk : k < 2 ^ 31)
    (htr : transfer state targets insn pc = some s') : Sound (k + 1) s' := by
  cases effect_of_transfer htr with
  | keep => exact h.mono
  | write => exact h.mono.set insn.dst trivial
  | copy => exact h.mono.set insn.dst (h.mono.state insn.src)
  | shift delta hlo hhi =>
    have hbound : k * 2 ^ 31 + 2 ^ 31 < 2 ^ 63 := by omega
    have hwithin := (shiftReg_of_within (h.state insn.dst) hbound hlo hhi).2
    refine h.mono.set insn.dst ?_
    rwa [show (k + 1) * 2 ^ 31 = k * 2 ^ 31 + 2 ^ 31 by omega]
  | forget => exact ⟨h.nodup, h.mono.state.forget, h.mono.targets⟩
  | save target => exact (h.save target).mono

/-- What phase 1 keeps. -/
theorem foldl_seedLoopHead {P : TargetMap → Prop}
    (hinsert : ∀ targets target, P targets → P (targets.insert target RegState.init.forget))
    (l : List (BpfInsn × ℕ)) : ∀ targets, P targets → P (l.foldl seedLoopHead targets) := by
  induction l with
  | nil => exact fun _ h => h
  | cons entry rest ih =>
    intro targets h
    obtain ⟨insn, pc⟩ := entry
    refine ih _ ?_
    simp only [seedLoopHead]
    cases branchOffset insn with
    | none => exact h
    | some off =>
      dsimp only
      split
      · exact hinsert _ _ h
      · exact h

/-- Phase 1 binds keys once, to the widened state. -/
theorem sound_loopHeads (instructions : List BpfInsn) :
    Sound 0 (RegState.init, loopHeads instructions) := by
  have hheads : (loopHeads instructions).NodupKeys ∧ ∀ key saved,
      (loopHeads instructions).get key = some saved → saved = RegState.init.forget := by
    refine foldl_seedLoopHead (P := fun targets => targets.NodupKeys ∧
      ∀ key saved, targets.get key = some saved → saved = RegState.init.forget) ?_ _ _
      ⟨AssocMap.nodupKeys_empty, fun key saved h => by simp at h⟩
    rintro targets target ⟨hnodup, hsaved⟩
    refine ⟨hnodup.insert _ _, fun key saved h => ?_⟩
    rw [AssocMap.get_insert] at h
    split at h
    · exact (Option.some.inj h).symm
    · exact hsaved key saved h
  refine ⟨hheads.1, RegState.within_init _, fun key saved h => ?_⟩
  rw [hheads.2 key saved h]
  exact (RegState.within_init _).forget

/-- **The analysis is sound at every instruction it gets to**, in a list of at most 2³¹. -/
theorem sound_stateAt {instructions : List BpfInsn} (hlen : instructions.length ≤ 2 ^ 31) :
    ∀ {k : ℕ} {s : RegState × TargetMap}, stateAt instructions k = some s → Sound k s
  | 0, s, h => by
      obtain rfl := Option.some.inj h
      exact sound_loopHeads instructions
  | k + 1, s', h => by
      rw [stateAt_succ] at h
      obtain ⟨s, hs, hnext⟩ := Option.bind_eq_some_iff.mp h
      obtain ⟨insn, hinsn, hnext⟩ := Option.bind_eq_some_iff.mp hnext
      have hk : k < instructions.length := (List.getElem?_eq_some_iff.mp hinsn).1
      exact (sound_stateAt hlen hs).merge.transfer (by omega) hnext

end BpfVerifier.StackBounds
