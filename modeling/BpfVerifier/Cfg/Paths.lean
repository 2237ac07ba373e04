import BpfVerifier.Kverify.Accepts
import BpfVerifier.Machinery.Placement

/-!
# Cfg/Paths — control-flow paths of an accepted programme

The control-flow graph takes both edges of every conditional jump.  `Path` is a path from
instruction 0 and `writtenBy` the registers written along it; the walk of an accepted programme
accounts for every path (`Accepted.described`), so every instruction met is well formed and reads
only registers written before it.
-/

namespace BpfVerifier

open Explorer Placement

/-! ## Raw positions -/

/-- The raw slot an instruction starts at. -/
def Program.rawStart (p : Program) (pc : ℕ) : ℕ := ((p.instructions.take pc).map slots).sum

/-- The maps of `buildPcMap` after `n` instructions. -/
structure PcMapOf (l : List BpfInsn) (n : ℕ) (acc : List ℕ × AssocMap ℕ ℕ × ℕ) : Prop where
  raw : acc.1 = (List.range n).map fun k => ((l.take k).map slots).sum
  collapsed : ∀ raw t, acc.2.1.get raw = some t → t < n ∧ ((l.take t).map slots).sum = raw
  next : acc.2.2 = ((l.take n).map slots).sum

theorem pcMapOf_step {l : List BpfInsn} {n : ℕ} {acc : List ℕ × AssocMap ℕ ℕ × ℕ}
    (h : PcMapOf l n acc) (hn : n < l.length) : PcMapOf l (n + 1) (pcMapStep acc (l[n], n)) := by
  obtain ⟨collapsedToRaw, rawToCollapsed, rawPc⟩ := acc
  refine ⟨?_, fun raw t ht => ?_, ?_⟩
  · have hraw := h.raw
    have hnext := h.next
    simp only at hraw hnext
    simp [pcMapStep, hraw, hnext, List.range_succ]
  · simp only [pcMapStep, AssocMap.get_insert] at ht
    split at ht
    · next heq =>
      obtain rfl := Option.some.inj ht
      exact ⟨by omega, by rw [heq]; exact h.next.symm⟩
    · obtain ⟨hlt, hsum⟩ := h.collapsed raw t ht
      exact ⟨by omega, hsum⟩
  · have hnext := h.next
    simp only at hnext
    rw [List.take_succ_eq_append_getElem hn, List.map_append, List.sum_append]
    simp only [pcMapStep, hnext, List.map_cons, List.map_nil, List.sum_singleton]

/-- One raw PC is recorded for each instruction, and instructions are found at their raw PCs. -/
theorem pcMapOf_buildPcMap (p : Program) :
    (buildPcMap p.instructions).1 = (List.range p.instructions.length).map p.rawStart ∧
      ∀ raw t, (buildPcMap p.instructions).2.get raw = some t →
        t < p.instructions.length ∧ p.rawStart t = raw := by
  have hstart : PcMapOf p.instructions 0 ([], .empty, 0) :=
    ⟨rfl, fun raw t ht => by simp at ht, by simp⟩
  have h : PcMapOf p.instructions p.instructions.length
      (p.instructions.zipIdx.foldl pcMapStep ([], .empty, 0)) :=
    foldl_zipIdx hstart fun n hn acc h => pcMapOf_step h hn
  exact ⟨h.raw, fun raw t ht => h.collapsed raw t ht⟩

theorem getD_buildPcMap (p : Program) {pc : ℕ} (hpc : pc < p.instructions.length) :
    (buildPcMap p.instructions).1.getD pc 0 = p.rawStart pc := by
  simp [(pcMapOf_buildPcMap p).1, hpc]

theorem length_buildPcMap (p : Program) :
    (buildPcMap p.instructions).1.length = p.instructions.length := by
  rw [(pcMapOf_buildPcMap p).1, List.length_map, List.length_range]

/-- **A resolved branch lands on the start of an instruction.** -/
theorem Program.target_eq_some {p : Program} {pc t : ℕ} {insn : BpfInsn}
    (hpc : p.instructions[pc]? = some insn) (h : p.target pc insn = some t) :
    t < p.instructions.length ∧ (p.rawStart t : Int) = p.rawStart pc + 1 + insn.offset.toInt := by
  have hlt : pc < p.instructions.length := (List.getElem?_eq_some_iff.mp hpc).1
  simp only [Program.target, resolveBranchTarget, getD_buildPcMap p hlt] at h
  split at h
  · cases h
  · obtain ⟨ht, hstart⟩ := (pcMapOf_buildPcMap p).2 _ t h
    refine ⟨ht, ?_⟩
    omega

/-- The back-edge targets are what jumps resolve to that lead to themselves or back. -/
theorem mem_backEdgeTargets {p : Program} {t : ℕ} :
    t ∈ p.backEdgeTargets ↔ ∃ pc insn, p.instructions[pc]? = some insn ∧ insn.jumps = true ∧
      t ≤ pc ∧ p.target pc insn = some t := by
  unfold Program.backEdgeTargets BpfInsn.jumps
  rw [List.mem_filterMap]
  constructor
  · rintro ⟨⟨insn, pc⟩, hmem, hsome⟩
    refine ⟨pc, insn, List.mk_mem_zipIdx_iff_getElem?.mp hmem, ?_⟩
    dsimp only at hsome
    cases hop : insn.opcode <;> cases htarget : p.target pc insn <;>
      simp only [hop, htarget, Option.ite_none_right_eq_some, Option.some.injEq, reduceCtorEq]
        at hsome
    all_goals exact ⟨rfl, hsome.2 ▸ hsome.1, congrArg some hsome.2⟩
  · rintro ⟨pc, insn, hinsn, hjumps, hle, htarget⟩
    refine ⟨(insn, pc), List.mk_mem_zipIdx_iff_getElem?.mpr hinsn, ?_⟩
    cases hop : insn.opcode <;> simp only [hop, Bool.false_eq_true] at hjumps
    all_goals simp only [hop, htarget, if_pos hle]

/-! ## The graph -/

namespace BpfInsn

/-- The registers an instruction reads: ALU and jump operands, access bases, stored registers,
declared helper arguments, and r0 at EXIT. -/
def reads (insn : BpfInsn) : List Reg :=
  match insn.opcode with
  | .alu64 op src | .alu32 op src =>
    (if op = .mov then [] else [insn.dst]) ++ (if src = .reg then [insn.src] else [])
  | .jmp64 _ src | .jmp32 _ src => insn.dst :: (if src = .reg then [insn.src] else [])
  | .ldx _ => [insn.src]
  | .stx _ => [insn.dst, insn.src]
  | .st _ => [insn.dst]
  | .call =>
    match getHelper insn.imm with
    | some helper => (argRegs.zip helper.args).filterMap fun a => a.2.map fun _ => a.1
    | none => []
  | .exit => [.r0]
  | .jmpJa | .ldImm64 | .unknown _ => []

/-- The registers that hold a written value after an instruction: a CALL writes r0 and un-writes
r1–r5. -/
def written (w : Reg → Bool) (insn : BpfInsn) : Reg → Bool :=
  match insn.opcode with
  | .alu64 _ _ | .alu32 _ _ | .ldx _ | .ldImm64 => Function.update w insn.dst true
  | .call => fun r => if r = .r0 then true else if r ∈ argRegs then false else w r
  | _ => w

/-- The registers an instruction writes or clobbers. -/
def writes (insn : BpfInsn) (r : Reg) : Prop :=
  match insn.opcode with
  | .alu64 _ _ | .alu32 _ _ | .ldx _ | .ldImm64 => r = insn.dst
  | .call => r = .r0 ∨ r ∈ argRegs
  | _ => False

/-- The instruction decodes. -/
def known (insn : BpfInsn) : Prop := ∀ raw, insn.opcode ≠ .unknown raw

end BpfInsn

/-- The registers entry writes. -/
def entryWritten (r : Reg) : Bool := r = .r1 ∨ r = .r10

/-- The registers written along a path. -/
def writtenBy (done : List BpfInsn) : Reg → Bool := done.foldl BpfInsn.written entryWritten

/-- The successors of an instruction: both edges of a conditional jump, the target of a JA,
otherwise the next instruction; none for EXIT. -/
def Program.cfgSucc (p : Program) (pc : ℕ) (insn : BpfInsn) : List ℕ :=
  match insn.opcode with
  | .exit => []
  | .jmpJa => (p.target pc insn).toList
  | .jmp64 _ _ | .jmp32 _ _ => (pc + 1) :: (p.target pc insn).toList
  | _ => [pc + 1]

/-- **The control-flow paths from instruction 0**: the instructions passed, and where the path has
got to. -/
inductive Program.Path (p : Program) : List BpfInsn → ℕ → Prop
  | start : p.Path [] 0
  | step {done : List BpfInsn} {pc pc' : ℕ} {insn : BpfInsn} : p.Path done pc →
      p.instructions[pc]? = some insn → pc' ∈ p.cfgSucc pc insn → p.Path (done ++ [insn]) pc'

theorem writtenBy_append (done : List BpfInsn) (insn : BpfInsn) :
    writtenBy (done ++ [insn]) = insn.written (writtenBy done) := by
  simp [writtenBy, List.foldl_append]

/-- No instruction un-writes the frame pointer. -/
theorem BpfInsn.written_r10 {w : Reg → Bool} (insn : BpfInsn) (h : w .r10 = true) :
    insn.written w .r10 = true := by
  have hupdate : Function.update w insn.dst true .r10 = true := by
    rw [Function.update_apply]
    split
    · rfl
    · exact h
  unfold BpfInsn.written
  cases insn.opcode with
  | alu64 op src => exact hupdate
  | alu32 op src => exact hupdate
  | ldx width => exact hupdate
  | ldImm64 => exact hupdate
  | call => simpa [argRegs] using h
  | _ => exact h

/-- The frame pointer stays written. -/
theorem writtenBy_r10 (done : List BpfInsn) : writtenBy done .r10 = true := by
  have hfold (w : Reg → Bool) (hw : w .r10 = true) :
      done.foldl BpfInsn.written w .r10 = true := by
    induction done generalizing w with
    | nil => exact hw
    | cons insn rest ih => exact ih _ (insn.written_r10 hw)
  exact hfold _ rfl

/-! ## The walk accounts for every path -/

/-- Every register the verifier holds as written has been written. -/
def Tracked (state : VerifierState) (w : Reg → Bool) : Prop :=
  ∀ r, (state.get r).regType ≠ .uninit → w r = true

theorem tracked_setAt {state : VerifierState} {w : Reg → Bool} (h : Tracked state w) (dst : Reg)
    (v : RegState) (pc : ℕ) : Tracked (state.setAt dst v pc) (Function.update w dst true) := by
  intro r hr
  rw [Function.update_apply]
  split
  · rfl
  · next hne =>
    rw [VerifierState.get_setAt, if_neg hne] at hr
    exact h r hr

theorem tracked_call {state : VerifierState} {w : Reg → Bool} (h : Tracked state w)
    (r0 : RegState) :
    Tracked (clobber (state.set .r0 r0))
      fun r => if r = .r0 then true else if r ∈ argRegs then false else w r := by
  intro r hr
  rw [get_clobber] at hr
  split at hr
  · exact absurd rfl hr
  · next harg =>
    dsimp only
    split
    · rfl
    · next hne =>
      rw [VerifierState.get_set_of_ne _ _ hne] at hr
      exact h r hr

theorem tracked_loadImm64 {p : Program} {pc : ℕ} {insn : BpfInsn} {state : VerifierState}
    {w : Reg → Bool} (h : Tracked state w) :
    Tracked (loadImm64 p pc insn state) (Function.update w insn.dst true) := by
  have hset (v : RegState) : Tracked (state.set insn.dst v) (Function.update w insn.dst true) := by
    intro r hr
    rw [Function.update_apply]
    split
    · rfl
    · next hne =>
      rw [VerifierState.get_set_of_ne _ _ hne] at hr
      exact h r hr
  unfold loadImm64
  split
  · exact tracked_setAt h _ _ _
  · exact hset _
  · exact tracked_setAt h _ _ _
  · exact tracked_setAt h _ _ _

/-- **Every edge of the graph out of an accepted instruction leads to a state left to explore**,
which holds as written only what is. -/
theorem Accepts.successor {p : Program} {pc pc' : ℕ} {insn : BpfInsn} {state : VerifierState}
    {stack : StackState} {idGen : ℕ} {o : Outcome} {w : Reg → Bool}
    (h : Accepts p pc insn state stack idGen o) (hw : Tracked state w)
    (hs : pc' ∈ p.cfgSucc pc insn) :
    ∃ i ∈ o.successors, i.pc = pc' ∧ Tracked i.state (insn.written w) := by
  unfold Program.cfgSucc at hs
  cases h with
  | exit hop _ => simp [hop] at hs
  | call hop _ _ =>
    simp only [BpfInsn.written, hop, List.mem_singleton] at hs ⊢
    exact ⟨_, List.mem_cons_self, hs.symm, tracked_call hw _⟩
  | ja hop ht =>
    simp only [BpfInsn.written, hop, ht, Option.toList_some, List.mem_singleton] at hs ⊢
    exact ⟨_, List.mem_cons_self, hs.symm, hw⟩
  | @jmp op src t is32 hop _ ht =>
    have hs' : pc' = pc + 1 ∨ pc' = t := by
      cases is32 <;> simpa [hop, ht] using hs
    have hwritten : insn.written w = w := by cases is32 <;> simp [BpfInsn.written, hop]
    rw [hwritten]
    rcases hs' with rfl | rfl
    · exact ⟨_, List.mem_cons_self, rfl, fun r hr => hw r (readable_of_refineBranch (Or.inr hr))⟩
    · exact ⟨_, List.mem_cons_of_mem _ List.mem_cons_self, rfl,
        fun r hr => hw r (readable_of_refineBranch (Or.inl hr))⟩
  | alu is64 hop _ halu =>
    obtain ⟨r, -, rfl⟩ := checkAlu_eq_ok halu
    cases is64 <;>
      simp only [BpfInsn.written, hop, if_true, Bool.false_eq_true, if_false,
        List.mem_singleton] at hs ⊢ <;>
      exact ⟨_, List.mem_cons_self, hs.symm, tracked_setAt hw _ _ _⟩
  | ldImm64 hop =>
    simp only [BpfInsn.written, hop, List.mem_singleton] at hs ⊢
    exact ⟨_, List.mem_cons_self, hs.symm, tracked_loadImm64 hw⟩
  | ldx hop _ _ _ =>
    simp only [BpfInsn.written, hop, List.mem_singleton] at hs ⊢
    exact ⟨_, List.mem_cons_self, hs.symm, tracked_setAt hw _ _ _⟩
  | stx hop _ _ _ _ =>
    simp only [BpfInsn.written, hop, List.mem_singleton] at hs ⊢
    exact ⟨_, List.mem_cons_self, hs.symm, hw⟩
  | st hop _ _ =>
    simp only [BpfInsn.written, hop, List.mem_singleton] at hs ⊢
    exact ⟨_, List.mem_cons_self, hs.symm, hw⟩

/-- The covering relation of paths: what the covering state holds as written, the covered one
does. -/
def CovWritten (state : VerifierState) (_ : StackState) (state' : VerifierState)
    (_ : StackState) : Prop :=
  ∀ r, (state'.get r).regType ≠ .uninit → (state.get r).regType ≠ .uninit

/-- Pruning and widening never hold as written what is not. -/
theorem respects_covWritten (p : Program) : p.Respects CovWritten where
  dominated m _ pc insn _ hdom := by
    obtain ⟨e, he, hsub⟩ := List.any_eq_true.mp hdom
    have hregs := VerifierState.isSubstateOf_iff.mp (Bool.and_eq_true_iff.mp hsub).1
    exact ⟨e, he, fun r => RegState.readable_of_isSubstateOf (hregs r)⟩
  visited m _ v hv := by
    obtain ⟨-, -, hstate, -, -⟩ := Walk.of_visit p m hv
    rw [hstate]
    have hrec := Walk.recorded p m.counted v.pc
    generalize m.counted.record p v.pc = m' at hrec
    cases hrec with
    | widened _ => exact fun r hr => (RegState.readable_of_widen hr).2
    | stored => exact fun r hr => hr
    | full => exact fun r hr => hr

/-- A path stands where a visit of an accepted programme has been, or past the end. -/
theorem Program.Accepted.described {p : Program} (h : p.Accepted) {done : List BpfInsn} {pc : ℕ}
    (hpath : p.Path done pc) :
    (∃ v, p.Visits v ∧ (v.outcome p).error = none ∧ v.pc = pc ∧ Tracked v.state (writtenBy done))
      ∨ p.instructions.length ≤ pc := by
  obtain ⟨vs, hclosed, hvs⟩ := h.closed (respects_covWritten p)
  -- a path is a run of the system whose states are paths
  let step (s s' : List BpfInsn × ℕ) : Prop :=
    ∃ insn, p.instructions[s.2]? = some insn ∧ s'.2 ∈ p.cfgSucc s.2 insn ∧ s'.1 = s.1 ++ [insn]
  have hrun : Relation.ReflTransGen step ([], 0) (done, pc) := by
    induction hpath with
    | start => exact .refl
    | step _ hinsn hs ih => exact ih.tail ⟨_, hinsn, hs, rfl⟩
  have hdesc : Described (p.explorer CovWritten) vs
      (fun i s => i.pc = s.2 ∧ Tracked i.state (writtenBy s.1))
      (fun v s => v.pc = s.2 ∧ Tracked v.state (writtenBy s.1)) (done, pc) := hclosed.reachable
    (fun i v _ s hcov hi => ⟨hcov.1.symm.trans hi.1, fun r hr => hi.2 r (hcov.2 r hr)⟩)
    (fun v hv s s' hd hstep => by
      obtain ⟨insn, hinsn, hs, hdone⟩ := hstep
      obtain ⟨hvisit, herr⟩ := hvs v hv
      have heq : v.insn = insn := by
        rw [← hd.1, hvisit.insn_eq] at hinsn
        exact Option.some.inj hinsn
      subst heq
      rw [← hd.1] at hs
      obtain ⟨i, hi, hpc, htr⟩ := (Visit.accepts herr).successor hd.2 hs
      exact ⟨i, hi, hpc, by rw [hdone, writtenBy_append]; exact htr⟩)
    (fun i s s' hend hi hstep => by
      obtain ⟨insn, hinsn, -, -⟩ := hstep
      have hlt := (List.getElem?_eq_some_iff.mp hinsn).1
      have hend' : p.instructions.length ≤ i.pc := hend
      rw [hi.1] at hend'
      omega)
    ⟨rfl, fun r hr => by cases r <;> first | rfl | exact absurd rfl hr⟩ hrun
  rcases hdesc with ⟨v, hv, hpc, htr⟩ | ⟨i, hend, hpc, -⟩
  · exact Or.inl ⟨v, (hvs v hv).1, (hvs v hv).2, hpc, htr⟩
  · exact Or.inr (Nat.le_trans hend (Nat.le_of_eq hpc))

end BpfVerifier
